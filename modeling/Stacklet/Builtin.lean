import Stacklet.Machine

/-!
The names every program can use: calls on arrays, numbers and streams, the stream `cout`, and `pi`.
-/

namespace Stacklet

namespace World

def root : ScopeId := 0

/-- A world whose only scope is a root with these bindings, in order. -/
def ofBindings (writers : Writers) (bindings : List (String × Binding)) : World :=
  ⟨bindings.foldl (fun h (name, b) => h.bind root name b) Scopes.empty.root.2, writers⟩

end World

namespace Builtin

def add : HostCall where
  name := "add"
  parameters := [.array, .any]
  results := [.array]
  function := fun (values, v, ()) => pure (values ++ [v], ())

/-- A new empty array, whatever the argument. -/
def arr : HostCall where
  name := "arr"
  parameters := [.any]
  results := [.array]
  function := fun _ => pure ([], ())

def cat : HostCall where
  name := "cat"
  parameters := [.array, .array]
  results := [.array]
  function := fun (first, second, ()) => pure (first ++ second, ())

/-- The greatest number whose square is at most `n`, found from its value for a quarter of `n`. -/
def floorSqrt (n : Nat) : Nat :=
  if n = 0 then 0
  else
    let r := 2 * floorSqrt (n / 4)
    if (r + 1) * (r + 1) ≤ n then r + 1 else r
termination_by n
decreasing_by omega

theorem floorSqrt_mul_self_le (n : Nat) : floorSqrt n * floorSqrt n ≤ n := by
  fun_induction floorSqrt n with
  | case1 => omega
  | case2 n _ r h => exact h
  | case3 n _ r _ ih =>
    calc 2 * floorSqrt (n / 4) * (2 * floorSqrt (n / 4))
        = 4 * (floorSqrt (n / 4) * floorSqrt (n / 4)) := by
          rw [Nat.mul_mul_mul_comm]
      _ ≤ n := by omega

theorem floorSqrt_le (n : Nat) : floorSqrt n ≤ n :=
  Nat.le_trans (Nat.le_mul_self _) (floorSqrt_mul_self_le n)

theorem holds_floorSqrt {n : Int} (h : NumberType.int32.Holds n) :
    NumberType.int32.Holds (floorSqrt n.toNat) := by
  have hle := floorSqrt_le n.toNat
  simp only [NumberType.Holds, NumberType.least, NumberType.bound, NumberType.int32,
    Width.size, if_true] at h ⊢
  omega

def sqrt : HostCall where
  name := "sqrt"
  parameters := [.number .int32]
  results := [.number .int32]
  function := fun (⟨n, h⟩, ()) =>
    if n < 0 then throw (.failed s!"Square root of negative number {n}")
    else pure (⟨floorSqrt n.toNat, holds_floorSqrt h⟩, ())

def toBE : HostCall where
  name := "to-be"
  parameters := [.integer]
  results := [.bytes]
  function := fun (n, ()) => pure (n.bytesBE, ())

def toLE : HostCall where
  name := "to-le"
  parameters := [.integer]
  results := [.bytes]
  function := fun (n, ()) => pure (n.bytesLE, ())

/-- The machine's own byte order is little-endian. -/
def toME : HostCall where
  name := "to-me"
  parameters := [.integer]
  results := [.bytes]
  function := fun (n, ()) => pure (n.bytesLE, ())

def write : HostCall where
  name := "write"
  parameters := [.stream, .bytes]
  results := []
  function := fun (s, data, ()) => HostM.write s data

def calls : List HostCall := [add, arr, cat, sqrt, toBE, toLE, toME, write]

def cout : Stream := ⟨"cout", 0⟩

def bindings : List (String × Binding) :=
  calls.map (fun c => (c.name, .host c)) ++
    [("cout", .value (.stream cout)), ("pi", .value (.number ⟨.int32, 3, by decide⟩))]

end Builtin

/-- The base world, where `cout` is on the first of the writers. -/
def World.base (writers : Writers) : World := .ofBindings writers Builtin.bindings

end Stacklet
