import Stacklet.Console
import Stacklet.Proofs.Isolation

/-!
Values at the bottom of the stack. A run that never asks for more values than it has does not see
what lies below them: with other values underneath it takes the same steps, makes the same output
and ends alike, and those values stay where they are.
-/

namespace Stacklet

/-- The values of `s` on top of those of `below`. -/
def Stack.above (s below : Stack) : Stack := ⟨s.values ++ below.values⟩

def Fault.isUnderflow : Fault → Bool
  | stackUnderflow .. => true
  | _ => false

namespace State

def above (s : State) (below : Stack) : State := { s with stack := s.stack.above below }

variable {s : State} {top rest : List Value}

/-- Values that are on top of a stack are so whatever is put underneath. -/
theorem values_above (h : s.stack.values = top ++ rest) (below : Stack) :
    (s.above below).stack.values = top ++ (rest ++ below.values) := by
  rw [← List.append_assoc, ← h]
  rfl

theorem above_append (world : World) (below : Stack) :
    above ⟨⟨top ++ rest⟩, world⟩ below = ⟨⟨top ++ (rest ++ below.values)⟩, world⟩ := by
  rw [← List.append_assoc]
  rfl

end State

namespace Frame

variable {f : Frame} {s s' : State} {fs : List Frame}

theorem Advances.above (h : f.Advances s fs s') (below : Stack) :
    f.Advances (s.above below) fs (s'.above below) := by
  cases h with
  | leave hn => exact .leave hn
  | number ht => exact .number ht
  | value ht hv => exact .value ht hv
  | guest ht hc => exact .guest ht hc
  | host ht hc hlen hstack hrun =>
    rw [State.above_append]
    exact .host ht hc hlen (State.values_above hstack below) hrun
  | comment ht => exact .comment ht
  | block ht => exact .block ht
  | expression ha ht => exact .expression ha ht
  | enter ha h0 => exact .enter ha h0
  | assign ha h0 hlen hstack => exact .assign ha h0 hlen (State.values_above hstack below)
  | method ha => exact .method ha

theorem Faults.above {fault : Fault} {a : Statement} (h : f.Faults s fault a s')
    (hfault : ¬ fault.isUnderflow) (below : Stack) :
    f.Faults (s.above below) fault a (s'.above below) := by
  cases h with
  | unbound ht hn => exact .unbound ht hn
  -- An underflow is the one fault that values underneath could have averted.
  | callUnderflow => exact absurd rfl hfault
  | host ht hc hlen hstack hrun =>
    exact .host ht hc hlen (State.values_above hstack below) hrun
  | assignUnderflow => exact absurd rfl hfault

end Frame

namespace Machine

def above (m : Machine) (below : Stack) : Machine := { m with stack := m.stack.above below }

end Machine

def Failure.above (f : Failure) (below : Stack) : Failure :=
  { f with machine := f.machine.above below }

namespace Run

def above (below : Stack) : Run → Run
  | finished m unspent => .finished (m.above below) unspent
  | failed f => .failed (f.above below)
  | running m => .running (m.above below)

def isUnderflow : Run → Bool
  | failed f => f.fault.isUnderflow
  | _ => false

end Run

namespace Machine

variable {m m' : Machine} {failure : Failure}

theorem isFinished_above (below : Stack) : (m.above below).isFinished = m.isFinished := rfl

theorem step_above (h : m.step = .ok m') (below : Stack) :
    (m.above below).step = .ok (m'.above below) := by
  cases hframes : m.frames with
  -- A finished machine may be stepped, and stays as it is.
  | nil =>
    have hm : m' = m := by simpa [step, hframes] using h.symm
    simp [step, above, hframes, hm]
  | cons f frames =>
    have hsome : 0 < m.frames.length := by simp [hframes]
    obtain ⟨f, frames, fs, s', hm, hadv, rfl⟩ := exists_advances hsome h
    rw [hm]
    exact step_of_advances (hadv.above below) frames

theorem step_above_of_error (h : m.step = .error failure) (hfault : ¬ failure.fault.isUnderflow)
    (below : Stack) : (m.above below).step = .error (failure.above below) := by
  obtain ⟨f, frames, s', hm, hfaults, hmachine⟩ := exists_faults h
  have hstep := step_of_faults (hfaults.above hfault below) frames
  rw [hm, Failure.above, hmachine]
  exact hstep

/-- Takes `n` steps, where a finished machine stays as it is. -/
def steps : Nat → Machine → Except Failure Machine
  | 0, m => .ok m
  | n + 1, m =>
    match m.step with
    | .ok m => steps n m
    | .error f => .error f

theorem steps_succ_of_ok {n : Nat} (h : m.step = .ok m') : m.steps (n + 1) = m'.steps n := by
  rw [steps, h]

theorem steps_of_advances {n : Nat} {f : Frame} {fs frames : List Frame} {s s' : State}
    (hadv : f.Advances s fs s') (h : (of (fs ++ frames) s').steps n = .ok m) :
    (of (f :: frames) s).steps (n + 1) = .ok m :=
  (steps_succ_of_ok (step_of_advances hadv frames)).trans h

theorem steps_above {n : Nat} (h : m.steps n = .ok m') (below : Stack) :
    (m.above below).steps n = .ok (m'.above below) := by
  induction n generalizing m with
  | zero =>
    obtain rfl := Except.ok.inj h
    rfl
  | succ n ih =>
    cases hstep : m.step with
    | ok m₁ =>
      rw [steps_succ_of_ok hstep] at h
      rw [steps_succ_of_ok (step_above hstep below)]
      exact ih h
    | error f =>
      rw [steps, hstep] at h
      cases h

theorem run_above {limit : Nat} (h : ¬ (m.run limit).isUnderflow) (below : Stack) :
    (m.above below).run limit = (m.run limit).above below := by
  induction limit generalizing m with
  | zero =>
    rw [run, run, isFinished_above]
    split
    · rfl
    · rfl
  | succ n ih =>
    rw [run] at h
    rw [run, run, isFinished_above]
    split
    · rfl
    · rename_i hne
      rw [if_neg hne] at h
      cases hstep : m.step with
      | ok m₁ =>
        simp only [hstep] at h
        simp only [step_above hstep below]
        exact ih h
      | error f =>
        simp only [hstep, Run.isUnderflow] at h
        simp only [step_above_of_error hstep h below]
        rfl

/-- Values underneath are left alone. If `n` steps succeed, they succeed on top of any other values
and lead to the same frames, scopes and writers, with the same values on top. If the step after them
fails, and not for want of values, it fails in the same way there. So does a whole run, however it
ends, unless it underflows. -/
theorem run_leaves_values_below (b : Block) (e : ScopeId) (world : World) (below stack : Stack) :
    (∀ n m, (start b stack e world).steps n = .ok m →
      (start b (stack.above below) e world).steps n = .ok (m.above below) ∧
      ∀ failure, m.step = .error failure → ¬ failure.fault.isUnderflow →
        (m.above below).step = .error (failure.above below)) ∧
    ∀ limit, ¬ ((start b stack e world).run limit).isUnderflow →
      (start b (stack.above below) e world).run limit =
        ((start b stack e world).run limit).above below := by
  refine ⟨fun n m h => ⟨?_, ?_⟩, ?_⟩
  · exact steps_above h below
  · intro failure hstep hfault
    exact step_above_of_error hstep hfault below
  · intro limit h
    exact run_above h below

/-- Binds the newest of two numbers, and hands both to a call that takes arrays. -/
def misusedCall : Block :=
  [.assignment ["a"] [.expression [.number (.ofByte 1), .number (.ofByte 2)] none] none,
    .expression [.identifier "a", .identifier "cat"] none]

/-- The call fails after seven steps and has taken its two arguments, but not what is below. -/
theorem misusedCall_above : ∃ m failure,
    (start misusedCall (.ofList [.number (.ofByte 7)]) World.program World.console).steps 7 =
      .ok m ∧
    m.step = .error failure ∧
    failure.fault = .hostCall "cat" (.type 0 .array (.number .uint8)) ∧
    (start misusedCall (.ofList [.number (.ofByte 9), .number (.ofByte 7)]) World.program
      World.console).steps 7 = .ok (m.above (.ofList [.number (.ofByte 9)])) ∧
    (m.above (.ofList [.number (.ofByte 9)])).step =
      .error (failure.above (.ofList [.number (.ofByte 9)])) ∧
    (failure.above (.ofList [.number (.ofByte 9)])).machine.stack =
      .ofList [.number (.ofByte 9), .number (.ofByte 7)] := by
  let bound : State :=
    ⟨.ofList [.number (.ofByte 7), .number (.ofByte 1)], { World.console with
      scopes := (World.console.scopes.extend 1).2.bindAll 1 ["a"] [.number (.ofByte 2)] }⟩
  have hvalue : bound.world.scopes.get? 1 "a" = some (.value (.number (.ofByte 2))) :=
    Scopes.get?_of_local? rfl
  have hcall : bound.world.scopes.get? 1 "cat" = some (.host Builtin.cat) := by
    rw [Scopes.get?_of_parent? rfl rfl Nat.zero_lt_one]
    exact Scopes.get?_of_local? rfl
  have hassigned : [Value.number (.ofByte 2)].length = ["a"].length := rfl
  have hpassed : [Value.number (.ofByte 1), .number (.ofByte 2)].length =
      Builtin.cat.parameters.length := rfl
  let last : State := bound.push (.number (.ofByte 2))
  have hsteps : (start misusedCall (.ofList [.number (.ofByte 7)]) World.program
      World.console).steps 7 = .ok (of [⟨misusedCall, 1, 1, 1⟩] last) := by
    change (of [.start misusedCall 1] ⟨.ofList [.number (.ofByte 7)], World.console⟩).steps 7 = _
    refine steps_of_advances (.enter rfl rfl) ?_
    refine steps_of_advances (.number (.mk rfl rfl)) ?_
    refine steps_of_advances (.number (.mk rfl rfl)) ?_
    refine steps_of_advances (.expression rfl rfl) ?_
    refine steps_of_advances (.leave rfl) ?_
    refine steps_of_advances (.assign rfl Nat.one_ne_zero hassigned rfl) ?_
    exact steps_of_advances (.value (.mk rfl rfl) hvalue) rfl
  have hstep := step_of_faults (f := ⟨misusedCall, 1, 1, 1⟩) (s := last)
    (.host (.mk rfl rfl) hcall hpassed rfl rfl) []
  obtain ⟨habove, hfails⟩ := (run_leaves_values_below misusedCall World.program World.console
    (.ofList [.number (.ofByte 9)]) (.ofList [.number (.ofByte 7)])).1 7 _ hsteps
  exact ⟨_, _, hsteps, hstep, rfl, habove, hfails _ hstep (by decide), rfl⟩

end Machine

end Stacklet
