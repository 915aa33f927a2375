/-!
Writers. A writer keeps the bytes that its device accepts. A device may accept a part of what it is
offered, and writes and flushes may fail.
-/

namespace Stacklet

/-- How a device answers, given what has been kept and how often it was called before. -/
structure Device where
  /-- How many of the offered bytes a write takes, or why it fails. -/
  accept : (kept : Array UInt8) → (calls : Nat) → (offered : List UInt8) → Except String Nat
  flush : (kept : Array UInt8) → (calls : Nat) → Except String Unit

def Device.reliable : Device where
  accept _ _ offered := .ok offered.length
  flush _ _ := .ok ()

structure Writer where
  device : Device
  kept : Array UInt8
  calls : Nat

namespace Writer

def ofDevice (d : Device) : Writer := ⟨d, #[], 0⟩

/-- Offers the data until all of it is taken. A write that takes nothing is a failure. -/
def deliver (w : Writer) (data : List UInt8) : Except String Unit × Writer :=
  match data with
  | [] => (.ok (), w)
  | b :: rest =>
    match w.device.accept w.kept w.calls (b :: rest) with
    | .error text => (.error text, { w with calls := w.calls + 1 })
    | .ok 0 => (.error "failed to write whole buffer", { w with calls := w.calls + 1 })
    | .ok (n + 1) =>
      deliver { w with kept := w.kept ++ b :: rest.take n, calls := w.calls + 1 } (rest.drop n)
termination_by data.length
decreasing_by simp only [List.length_drop, List.length_cons]; omega

def flush (w : Writer) : Except String Unit × Writer :=
  (w.device.flush w.kept w.calls, { w with calls := w.calls + 1 })

/-- Delivers the data, then flushes. -/
def write (w : Writer) (data : List UInt8) : Except String Unit × Writer :=
  match w.deliver data with
  | (.ok (), w) => w.flush
  | failed => failed

end Writer

abbrev Writers := Array Writer

namespace Writers

/-- A writer that is not there discards what it is given. -/
def write (ws : Writers) (id : Nat) (data : List UInt8) : Except String Unit × Writers :=
  match ws[id]? with
  | none => (.ok (), ws)
  | some w =>
    let (result, w) := w.write data
    (result, ws.setIfInBounds id w)

def kept (ws : Writers) (id : Nat) : Array UInt8 := (ws[id]?.map Writer.kept).getD #[]

end Writers

end Stacklet
