import Stacklet.Proofs.Marshalling
import Stacklet.Proofs.Output

/-!
Programs on a standard output that may fail. All that a program learns of its writers is that a
write has failed, and this ends it. So until then it runs as on an output that never fails, and what
such an output keeps starts with what the failing one has kept.
-/

namespace Stacklet

/-! Writers. -/

namespace Writer

variable {w : Writer} {data : List UInt8}

/-- Data is kept in order, and all of it if its delivery succeeds. -/
theorem exists_kept_deliver (w : Writer) (data : List UInt8) :
    ∃ taken left, data = taken ++ left ∧
      (w.deliver data).2.kept.toList = w.kept.toList ++ taken ∧
      ((w.deliver data).1 = .ok () → left = []) := by
  fun_induction deliver w data with
  | case1 w => exact ⟨[], [], rfl, by simp, fun _ => rfl⟩
  | case2 w b rest text haccept => exact ⟨[], b :: rest, rfl, by simp, fun h => by cases h⟩
  | case3 w b rest haccept => exact ⟨[], b :: rest, rfl, by simp, fun h => by cases h⟩
  | case4 w b rest n haccept ih =>
    obtain ⟨taken, left, hdata, hkept, hleft⟩ := ih
    refine ⟨b :: rest.take n ++ taken, left, ?_, ?_, hleft⟩
    · rw [List.cons_append, List.cons_append, List.append_assoc, ← hdata, List.take_append_drop]
    · rw [hkept]
      simp

/-- A flush keeps nothing, so a write keeps what it delivers. -/
theorem exists_kept_write (w : Writer) (data : List UInt8) :
    ∃ taken left, data = taken ++ left ∧
      (w.write data).2.kept.toList = w.kept.toList ++ taken ∧
      ((w.write data).1 = .ok () → left = []) := by
  obtain ⟨taken, left, hdata, hkept, hleft⟩ := w.exists_kept_deliver data
  refine ⟨taken, left, hdata, ?_⟩
  rw [write]
  rcases hdeliver : w.deliver data with ⟨_ | _, w'⟩
  · rw [hdeliver] at hkept
    exact ⟨hkept, fun h => by cases h⟩
  · rw [hdeliver] at hkept hleft
    exact ⟨hkept, fun _ => hleft rfl⟩

theorem kept_write_of_ok (h : (w.write data).1 = .ok ()) :
    (w.write data).2.kept.toList = w.kept.toList ++ data := by
  obtain ⟨taken, left, rfl, hkept, hleft⟩ := w.exists_kept_write data
  rw [hkept, hleft h, List.append_nil]

theorem kept_prefix_write (w : Writer) (data : List UInt8) :
    w.kept.toList <+: (w.write data).2.kept.toList := by
  obtain ⟨taken, left, -, hkept, -⟩ := w.exists_kept_write data
  exact ⟨taken, hkept.symm⟩

/-- The writer after some writes. -/
def after (w : Writer) (writes : List (List UInt8)) : Writer :=
  writes.foldl (fun w data => (w.write data).2) w

/-- Whatever is written, all of it is delivered, and every flush succeeds. -/
def NeverFails (w : Writer) : Prop := ∀ writes data, ((w.after writes).write data).1 = .ok ()

theorem NeverFails.ok (h : w.NeverFails) (data : List UInt8) : (w.write data).1 = .ok () :=
  h [] data

theorem NeverFails.write (h : w.NeverFails) (data : List UInt8) : (w.write data).2.NeverFails :=
  fun writes => h (data :: writes)

end Writer

namespace Writers

/-- Standard output and the other writers. -/
def led (w : Writer) (others : Writers) : Writers := (w :: others.toList).toArray

variable {w : Writer} {others : Writers} {data : List UInt8}

theorem write_led_zero :
    (led w others).write 0 data = ((w.write data).1, led (w.write data).2 others) := by
  simp [led, write]

theorem write_led_succ (id : Nat) :
    (led w others).write (id + 1) data =
      ((others.write id data).1, led w (others.write id data).2) := by
  cases hw : others[id]? with
  | none => simp [led, write, hw]
  | some w' => simp [led, write, hw]

theorem kept_led : (led w others).kept 0 = w.kept := by
  simp [led, kept]

/-- Whatever is written, standard output loses nothing. -/
theorem kept_prefix_write (ws : Writers) (id : Nat) (data : List UInt8) :
    (ws.kept 0).toList <+: ((ws.write id data).2.kept 0).toList := by
  obtain ⟨ws⟩ := ws
  cases ws with
  | nil => simp [write]
  | cons w others =>
    change ((led w ⟨others⟩).kept 0).toList <+: (((led w ⟨others⟩).write id data).2.kept 0).toList
    cases id with
    | zero =>
      rw [write_led_zero, kept_led, kept_led]
      exact w.kept_prefix_write data
    | succ id =>
      have hkept : ((led w ⟨others⟩).write (id + 1) data).2.kept 0 = (led w ⟨others⟩).kept 0 := by
        rw [write_led_succ, kept_led, kept_led]
      exact hkept ▸ List.prefix_refl _

end Writers

/-! Calls. -/

namespace HostCall

open ValueType

/-- The call neither sees the writers nor changes them. -/
def Quiet (c : HostCall) : Prop :=
  ∀ arguments, ∃ result, ∀ ws, (c.invoke arguments).run ws = (result, ws)

/-- Arguments are native values, or the call refuses them. -/
theorem native_or_refused (c : HostCall) (arguments : List Value) :
    (∃ a, valueAll c.parameters a = arguments) ∨
      ∃ error, ∀ ws, (c.invoke arguments).run ws = (.error error, ws) := by
  by_cases hlen : arguments.length = c.parameters.length
  · rcases conforms_or_mismatch hlen with hall | ⟨i, t, v, hmismatch⟩
    · exact .inl (exists_valueAll hall)
    · have hread := readAll_of_mismatch hmismatch 0 hlen
      exact .inr ⟨_, fun ws => invoke_of_readAll_error hlen hread⟩
  · exact .inr ⟨_, fun ws => invoke_of_length_ne hlen⟩

end HostCall

namespace Builtin

theorem invoke_write (s : Stream) (data : List UInt8) (ws : Writers) :
    (write.invoke [.stream s, .ofBytes data]).run ws =
      (((ws.write s.writer data).1.mapError HostError.io).map fun _ => [],
        (ws.write s.writer data).2) :=
  HostCall.invoke_valueAll (c := write) (s, data, ())

end Builtin

/-- Host calls leave the writers alone, but for `write`. -/
def Scopes.Orderly (h : Scopes) : Prop :=
  ∀ id x c, h.local? id x = some (.host c) → c.Quiet ∨ c = Builtin.write

theorem Scopes.Orderly.of_get? {h : Scopes} (hh : h.Orderly) {e : ScopeId} {x : String}
    {c : HostCall} (hc : h.get? e x = some (.host c)) : c.Quiet ∨ c = Builtin.write := by
  obtain ⟨id, -, hlocal⟩ := exists_chain_of_get? hc
  exact hh id x c hlocal

/-- The state with other writers. -/
def State.on (s : State) (ws : Writers) : State := { s with world.writers := ws }

namespace Frame

variable {f : Frame} {s s' : State} {fs : List Frame}

theorem Advances.orderly (h : f.Advances s fs s') (hs : s.world.scopes.Orderly) :
    s'.world.scopes.Orderly :=
  fun id x c hc => hs id x c (h.local?_host hc)

/-- Only host calls can see the writers. -/
theorem Advances.on (h : f.Advances s fs s') (hcall : ∀ c, ¬ f.AtCall s.world.scopes c)
    (ws : Writers) : f.Advances (s.on ws) fs (s'.on ws) := by
  cases h with
  | leave hn => exact .leave hn
  | number ht => exact .number ht
  | value ht hv => exact .value ht hv
  | guest ht hc => exact .guest ht hc
  | host ht hc => exact absurd (.mk ht hc) (hcall _)
  | comment ht => exact .comment ht
  | block ht => exact .block ht
  | expression ha ht => exact .expression ha ht
  | enter ha h0 => exact .enter ha h0
  | assign ha h0 hlen hstack => exact .assign ha h0 hlen hstack
  | method ha => exact .method ha

theorem Faults.on {fault : Fault} {a : Statement} (h : f.Faults s fault a s')
    (hcall : ∀ c, ¬ f.AtCall s.world.scopes c) (ws : Writers) :
    f.Faults (s.on ws) fault a (s'.on ws) := by
  cases h with
  | unbound ht hn => exact .unbound ht hn
  | callUnderflow ht hc | host ht hc => exact absurd (.mk ht hc) (hcall _)
  | assignUnderflow ha h0 hlt => exact .assignUnderflow ha h0 hlt

end Frame

namespace Machine

/-- What becomes of a call of `write` that was taken at the frames `frames`, with its arguments
gone. -/
def written (frames frames' : List Frame) (s : State) (a : Statement) :
    Except String Unit × Writers → Except Failure Machine
  | (.ok (), ws) => .ok (of frames' (s.on ws))
  | (.error text, ws) => .error ⟨.hostCall "write" (.io text), a, of frames (s.on ws)⟩

/-- What a step can do with writers. It does the same whatever they are and leaves them alone, or it
is one call of `write`. -/
inductive Turn (frames : List Frame) (s : State) : Prop where
  | moves {frames' : List Frame} {s' : State} : s'.world.scopes.Orderly →
      (∀ ws, (of frames (s.on ws)).step = .ok (of frames' (s'.on ws))) → Turn frames s
  | fails {fault : Fault} {a : Statement} {s' : State} : s'.world.scopes.Orderly →
      (∀ ws, (of frames (s.on ws)).step = .error ⟨fault, a, of frames (s'.on ws)⟩) →
        Turn frames s
  | writes {f : Frame} {below : List Frame} {a : Statement} {t : Stream} {data : List UInt8}
      {rest : List Value} : frames = f :: below → f.AtCall s.world.scopes Builtin.write →
      s.stack.values = .ofBytes data :: .stream t :: rest →
      (∀ ws, (of frames (s.on ws)).step =
        written frames (f.nextTerm :: below) ⟨⟨rest⟩, s.world⟩ a (ws.write t.writer data)) →
        Turn frames s

variable {f : Frame} {below : List Frame} {s : State} {a : Statement} {name : String}

theorem step_write {t : Stream} {data : List UInt8} {rest : List Value}
    (ht : f.AtTerm a (.identifier name))
    (hget : s.world.scopes.get? f.scope name = some (.host Builtin.write))
    (hstack : s.stack.values = .ofBytes data :: .stream t :: rest) (below : List Frame)
    (ws : Writers) :
    (of (f :: below) (s.on ws)).step =
      written (f :: below) (f.nextTerm :: below) ⟨⟨rest⟩, s.world⟩ a
        (ws.write t.writer data) := by
  have hlen : [Value.stream t, .ofBytes data].length = Builtin.write.parameters.length := rfl
  have hinvoke := Builtin.invoke_write t data ws
  rcases hwrite : ws.write t.writer data with ⟨text | _, ws'⟩
  · rw [hwrite] at hinvoke
    exact step_of_faults (.host (s := s.on ws) ht hget hlen hstack hinvoke) below
  · rw [hwrite] at hinvoke
    exact step_of_advances (.host (s := s.on ws) ht hget hlen hstack hinvoke) below

/-- A call that answers alike whatever the writers are. -/
theorem turn_of_result {c : HostCall} {arguments rest : List Value}
    {result : Except HostError (List Value)} (hs : s.world.scopes.Orderly)
    (ht : f.AtTerm a (.identifier name)) (hget : s.world.scopes.get? f.scope name = some (.host c))
    (hlen : arguments.length = c.parameters.length)
    (hstack : s.stack.values = arguments.reverse ++ rest)
    (hresult : ∀ ws, (c.invoke arguments).run ws = (result, ws)) : Turn (f :: below) s := by
  cases result with
  | ok results =>
    let left : State := ⟨⟨results.reverse ++ rest⟩, s.world⟩
    have hstep (ws : Writers) :
        (of (f :: below) (s.on ws)).step = .ok (of (f.nextTerm :: below) (left.on ws)) :=
      step_of_advances (.host (s := s.on ws) ht hget hlen hstack (hresult ws)) below
    have hleft : left.world.scopes.Orderly := hs
    exact .moves hleft hstep
  | error error =>
    let left : State := ⟨⟨rest⟩, s.world⟩
    have hstep (ws : Writers) : (of (f :: below) (s.on ws)).step =
        .error ⟨.hostCall c.name error, a, of (f :: below) (left.on ws)⟩ :=
      step_of_faults (.host (s := s.on ws) ht hget hlen hstack (hresult ws)) below
    have hleft : left.world.scopes.Orderly := hs
    exact .fails hleft hstep

theorem turn_of_call {c : HostCall} (hs : s.world.scopes.Orderly)
    (ht : f.AtTerm a (.identifier name))
    (hget : s.world.scopes.get? f.scope name = some (.host c)) : Turn (f :: below) s := by
  rcases s.stack.pop_or_underflow c.parameters.length with ⟨arguments, rest, hlen, hstack⟩ | hlt
  · rcases hs.of_get? hget with hquiet | rfl
    · obtain ⟨result, hresult⟩ := hquiet arguments
      exact turn_of_result hs ht hget hlen hstack hresult
    · rcases Builtin.write.native_or_refused arguments with ⟨⟨t, data, _⟩, rfl⟩ | ⟨error, herror⟩
      · exact .writes rfl (.mk ht hget) hstack (step_write ht hget hstack below)
      · exact turn_of_result hs ht hget hlen hstack herror
  · have hstep (ws : Writers) : (of (f :: below) (s.on ws)).step =
        .error ⟨.stackUnderflow c.parameters.length s.stack.size, a, of (f :: below) (s.on ws)⟩ :=
      step_of_faults (.callUnderflow (s := s.on ws) ht hget hlt) below
    exact .fails hs hstep

theorem exists_turn (frames : List Frame) (hs : s.world.scopes.Orderly) : Turn frames s := by
  cases frames with
  | nil => exact .moves hs fun ws => rfl
  | cons f below =>
    by_cases hcall : ∃ c, f.AtCall s.world.scopes c
    · obtain ⟨c, ht, hget⟩ := hcall
      exact turn_of_call hs ht hget
    · have hcall (c : HostCall) (hc : f.AtCall s.world.scopes c) : False := hcall ⟨c, hc⟩
      rcases f.advances_or_faults s with ⟨fs, s', hadv⟩ | ⟨fault, a, s', hfault⟩
      · exact .moves (hadv.orderly hs) fun ws => step_of_advances (hadv.on hcall ws) below
      · have hs' : s'.world.scopes.Orderly := by
          rw [hfault.scopes]
          exact hs
        exact .fails hs' fun ws => step_of_faults (hfault.on hcall ws) below

end Machine

/-! Runs. -/

/-- The machine that a run has reached. -/
def Run.machine : Run → Machine
  | finished m _ => m
  | failed f => f.machine
  | running m => m

namespace Machine

/-- What standard output has kept. -/
def output (m : Machine) : List UInt8 := m.world.stdout.toList

/-- The machine apart from its writers. -/
def apart (m : Machine) : Machine := { m with world.writers := #[] }

variable {frames : List Frame} {s : State}

theorem output_on (ws : Writers) : (of frames (s.on ws)).output = (ws.kept 0).toList := rfl

theorem eq_of_on (m : Machine) : m = of m.frames (m.state.on m.world.writers) := rfl

/-- A step adds to the output, if anything. -/
theorem output_prefix_step {m : Machine} (hm : m.world.scopes.Orderly) :
    (∀ m', m.step = .ok m' → m'.world.scopes.Orderly ∧ m.output <+: m'.output) ∧
      ∀ failure, m.step = .error failure → m.output <+: failure.machine.output := by
  rw [m.eq_of_on]
  cases exists_turn (s := m.state) m.frames hm with
  | moves hs hstep =>
    rw [hstep]
    refine ⟨fun m' h => ?_, fun failure h => by cases h⟩
    cases h
    exact ⟨hs, List.prefix_refl _⟩
  | fails hs hstep =>
    rw [hstep]
    refine ⟨fun m' h => (by cases h), fun failure h => ?_⟩
    cases h
    exact List.prefix_refl _
  | @writes f below a t data rest hframes hcall hstack hstep =>
    rw [hstep]
    have hgrows := Writers.kept_prefix_write m.world.writers t.writer data
    rcases hwrite : m.world.writers.write t.writer data with ⟨text | _, ws⟩
    · rw [hwrite] at hgrows
      refine ⟨fun m' h => (by cases h), fun failure h => ?_⟩
      cases h
      exact hgrows
    · rw [hwrite] at hgrows
      refine ⟨fun m' h => ?_, fun failure h => by cases h⟩
      cases h
      exact ⟨hm, hgrows⟩

theorem output_prefix_run {m : Machine} (hm : m.world.scopes.Orderly) (n : Nat) :
    m.output <+: (m.run n).machine.output := by
  fun_induction run n m with
  | case1 => exact List.prefix_refl _
  | case2 => exact List.prefix_refl _
  | case3 m _ n m' hstep ih =>
    obtain ⟨hm', hgrows⟩ := (output_prefix_step hm).1 m' hstep
    exact hgrows.trans (ih hm')
  | case4 m _ n failure hstep => exact (output_prefix_step hm).2 failure hstep

/-- The next step writes to standard output, and the write or the flush fails there. -/
inductive FailsWriting (m : Machine) (text : String) : Prop where
  | mk {f : Frame} {below : List Frame} {t : Stream} {data : List UInt8} {rest : List Value}
      {w : Writer} : m.frames = f :: below → f.AtCall m.world.scopes Builtin.write →
      m.stack.values = .ofBytes data :: .stream t :: rest → t.writer = 0 →
      m.world.writers[0]? = some w → (w.write data).1 = .error text → FailsWriting m text

/-- Machines alike but for standard output, which has kept the same and in the first never fails. -/
inductive Twins : Machine → Machine → Prop where
  | mk {frames : List Frame} {s : State} {w w' : Writer} {others : Writers} :
      s.world.scopes.Orderly → w.NeverFails → w'.kept.toList = w.kept.toList →
        Twins (of frames (s.on (.led w others))) (of frames (s.on (.led w' others)))

/-- Steps that end alike. -/
inductive StepsAlike : Except Failure Machine → Except Failure Machine → Prop where
  | ok {m m' : Machine} : Twins m m' → StepsAlike (.ok m) (.ok m')
  | error {fault : Fault} {a : Statement} {m m' : Machine} :
      Twins m m' → StepsAlike (.error ⟨fault, a, m⟩) (.error ⟨fault, a, m'⟩)

theorem Twins.step {m m' : Machine} (h : Twins m m') :
    StepsAlike m.step m'.step ∨ ∃ text m₁ failure, m'.FailsWriting text ∧ m.step = .ok m₁ ∧
      m'.step = .error failure ∧ m₁.world.scopes.Orderly ∧
      failure.machine.output <+: m₁.output := by
  obtain @⟨frames, s, w, w', others, hs, hw, hkept⟩ := h
  cases exists_turn frames hs with
  | moves hs' hstep =>
    rw [hstep, hstep]
    exact .inl (.ok (.mk hs' hw hkept))
  | fails hs' hstep =>
    rw [hstep, hstep]
    exact .inl (.error (.mk hs' hw hkept))
  | @writes f below a t data rest hframes hcall hstack hstep =>
    rw [hstep, hstep]
    cases hid : t.writer with
    | zero =>
      have hfirst := Writer.kept_write_of_ok (hw.ok data)
      rw [Writers.write_led_zero, Writers.write_led_zero, hw.ok]
      cases hsecond : (w'.write data).1 with
      | ok =>
        have hkept' : (w'.write data).2.kept.toList = (w.write data).2.kept.toList := by
          rw [Writer.kept_write_of_ok hsecond, hfirst, hkept]
        exact .inl (.ok (.mk hs (hw.write data) hkept'))
      | error text =>
        -- The one output has all of the data now, the other only a part.
        obtain ⟨taken, left, hdata, htaken, -⟩ := w'.exists_kept_write data
        refine .inr ⟨text, _, _, .mk hframes hcall hstack hid rfl hsecond, rfl, rfl, hs, left, ?_⟩
        rw [output_on, output_on, Writers.kept_led, Writers.kept_led, htaken, hfirst, hkept, hdata,
          List.append_assoc]
    | succ id =>
      rw [Writers.write_led_succ, Writers.write_led_succ]
      rcases others.write id data with ⟨text | _, others'⟩
      · exact .inl (.error (.mk hs hw hkept))
      · exact .inl (.ok (.mk hs hw hkept))

end Machine

/-- Runs that have got equally far. -/
inductive Run.Alike : Run → Run → Prop where
  | finished {m m' : Machine} {unspent : Nat} :
      m.Twins m' → Alike (.finished m unspent) (.finished m' unspent)
  | failed {fault : Fault} {a : Statement} {m m' : Machine} :
      m.Twins m' → Alike (.failed ⟨fault, a, m⟩) (.failed ⟨fault, a, m'⟩)
  | running {m m' : Machine} : m.Twins m' → Alike (.running m) (.running m')

/-- The run apart from all writers. -/
def Run.apart : Run → Run
  | finished m unspent => .finished m.apart unspent
  | failed f => .failed { f with machine := f.machine.apart }
  | running m => .running m.apart

namespace Machine

variable {m m' : Machine}

theorem Twins.isFinished_eq (h : Twins m m') : m'.isFinished = m.isFinished := by
  cases h
  rfl

end Machine

namespace Run.Alike

variable {r r' : Run}

end Run.Alike

namespace Machine

variable {m m' : Machine}

theorem Twins.run (h : Twins m m') (n : Nat) :
    Run.Alike (m.run n) (m'.run n) ∨ ∃ k < n, ∃ m₁ text failure, m'.run k = .running m₁ ∧
      m₁.FailsWriting text ∧ m'.run n = .failed failure ∧
      failure.machine.output <+: (m.run n).machine.output := by
  have hbusy {m m' : Machine} (h : Twins m m') (hm : ¬ m.isFinished) : ¬ m'.isFinished := by
    rw [h.isFinished_eq]
    exact hm
  fun_induction Machine.run n m generalizing m' with
  | case1 n m hm =>
    rw [← h.isFinished_eq] at hm
    rw [run_of_finished hm]
    exact .inl (.finished h)
  | case2 m hm =>
    rw [run_zero (hbusy h hm)]
    exact .inl (.running h)
  | case3 m hm n m₁ hstep ih =>
    rcases h.step with halike | ⟨text, m₂, failure, hfails, hok, herror, horderly, hbegins⟩
    · rw [hstep] at halike
      generalize hstep' : m'.step = result at halike
      obtain ⟨htwins⟩ := halike
      rw [run_succ_of_ok (hbusy h hm) hstep']
      rcases ih htwins with halike | ⟨k, hk, m₂, text, failure, hrun, hfailing⟩
      · exact .inl halike
      · refine .inr ⟨k + 1, Nat.succ_lt_succ hk, m₂, text, failure, ?_, hfailing⟩
        rw [run_succ_of_ok (hbusy h hm) hstep', hrun]
    · obtain rfl := Except.ok.inj (hstep.symm.trans hok)
      refine .inr ⟨0, Nat.succ_pos n, m', text, failure, run_zero (hbusy h hm), hfails,
        run_succ_of_error herror n, ?_⟩
      exact hbegins.trans (output_prefix_run horderly n)
  | case4 m hm n failure hstep =>
    rcases h.step with halike | ⟨_, m₂, _, _, hok, _⟩
    · rw [hstep] at halike
      generalize hstep' : m'.step = result at halike
      obtain _ | htwins := halike
      rw [run_succ_of_error hstep']
      exact .inl (.failed htwins)
    · rw [hstep] at hok
      cases hok

end Machine

namespace Machine

end Machine

end Stacklet
