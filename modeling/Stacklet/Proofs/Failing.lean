import Stacklet.Console
import Stacklet.Proofs.Isolation

/-!
What a failing step leaves. Frames and scopes are as before, and so is the stack, unless a host call
has failed: then its arguments are gone, and it may have written.
-/

namespace Stacklet

namespace Frame

/-- The frame stands at the name of a host call. -/
inductive AtCall (f : Frame) (h : Scopes) (c : HostCall) : Prop where
  | mk {a : Statement} {name : String} :
      f.AtTerm a (.identifier name) → h.get? f.scope name = some (.host c) → AtCall f h c

/-- How many values the frame is about to take from the stack. -/
inductive Pops (f : Frame) (h : Scopes) : Nat → Prop where
  | arguments {c : HostCall} : f.AtCall h c → Pops f h c.parameters.length
  | values {names : List String} {value : Block} {comment : Option String} :
      f.At (.assignment names value comment) → f.term ≠ 0 → Pops f h names.length

end Frame

/-- What a step of the machine `m` with the innermost frame `f` has done to the stack and the
writers, if it has failed with the fault and left the machine `left`. -/
def Fault.Leaves (f : Frame) (m left : Machine) : Fault → Prop
  | unboundName name =>
    left = m ∧ (∃ a, f.AtTerm a (.identifier name)) ∧ m.world.scopes.get? f.scope name = none
  | stackUnderflow needed found =>
    left = m ∧ found = m.stack.size ∧ found < needed ∧ f.Pops m.world.scopes needed
  | hostCall name error => ∃ (c : HostCall) (arguments : List Value),
    c.name = name ∧ f.AtCall m.world.scopes c ∧ arguments.length = c.parameters.length ∧
    m.stack.values = arguments.reverse ++ left.stack.values ∧
    (c.invoke arguments).run m.world.writers = (.error error, left.world.writers)

/-- What a failing step of the machine `m` has done. -/
structure Failure.Leaves (failure : Failure) (m : Machine) : Prop where
  frames : failure.machine.frames = m.frames
  scopes : failure.machine.world.scopes = m.world.scopes
  fault : ∃ f frames, m.frames = f :: frames ∧ f.At failure.statement ∧
    failure.fault.Leaves f m failure.machine

namespace Frame

variable {f : Frame} {s s' : State} {fault : Fault} {a : Statement}

theorem Faults.at (h : f.Faults s fault a s') : f.At a := by
  cases h with
  | unbound ht | callUnderflow ht | host ht => exact ht.at
  | assignUnderflow ha => exact ha

theorem Faults.leaves (h : f.Faults s fault a s') (frames : List Frame) :
    fault.Leaves f (.of (f :: frames) s) (.of (f :: frames) s') := by
  cases h with
  | unbound ht hn => exact ⟨rfl, ⟨_, ht⟩, hn⟩
  | callUnderflow ht hc hlt => exact ⟨rfl, rfl, hlt, .arguments (.mk ht hc)⟩
  | host ht hc hlen hstack hrun => exact ⟨_, _, rfl, .mk ht hc, hlen, hstack, hrun⟩
  | assignUnderflow ha h0 hlt => exact ⟨rfl, rfl, hlt, .values ha h0⟩

end Frame

namespace Machine

variable {m : Machine} {failure : Failure}

theorem leaves_of_step (h : m.step = .error failure) : failure.Leaves m := by
  obtain ⟨f, frames, s', hm, hfaults, hmachine⟩ := exists_faults h
  constructor
  · rw [hmachine, hm]
    rfl
  · rw [hmachine]
    exact hfaults.scopes
  · refine ⟨f, frames, by rw [hm]; rfl, hfaults.at, ?_⟩
    rw [hmachine, hm]
    exact hfaults.leaves frames

/-- A run fails because one of its steps does. -/
theorem exists_leads_of_run {limit : Nat} (h : m.run limit = .failed failure) :
    ∃ m', Leads 0 m m' ∧ m'.step = .error failure := by
  induction limit generalizing m with
  | zero =>
    rw [run] at h
    split at h
    · cases h
    · cases h
  | succ n ih =>
    rw [run] at h
    split at h
    · cases h
    · rename_i hframes
      have hsome : 0 < m.frames.length := by
        rw [List.length_pos_iff]
        simpa [isFinished] using hframes
      split at h
      · rename_i m₁ hstep
        obtain ⟨m', hleads, hm'⟩ := ih h
        exact ⟨m', .head ⟨hsome, hstep⟩ hleads, hm'⟩
      · rename_i hstep
        obtain rfl := Run.failed.inj h
        exact ⟨m, .refl, hstep⟩

/-- A step that fails says at which statement, leaves all frames and scopes as they are, and changes
the stack and the writers only by a host call that fails. So an assignment that finds too few values
binds none of its names. And if a run fails, it is by such a step of a machine that it reached. -/
theorem failing_step_spares_frames_and_scopes (m : Machine) :
    (∀ failure, m.step = .error failure → failure.Leaves m) ∧
    (∀ f frames names value comment, m.frames = f :: frames →
      f.At (.assignment names value comment) → f.term ≠ 0 → m.stack.size < names.length →
        m.step = .error
          ⟨.stackUnderflow names.length m.stack.size, .assignment names value comment, m⟩) ∧
    ∀ limit failure, m.run limit = .failed failure →
      ∃ m', Leads 0 m m' ∧ m'.step = .error failure ∧ failure.Leaves m' := by
  refine ⟨fun failure h => leaves_of_step h, ?_, ?_⟩
  · intro f frames names value comment hframes ha hterm hlt
    rw [← of_state m, hframes]
    exact step_of_faults (.assignUnderflow ha hterm hlt) frames
  · intro limit failure h
    obtain ⟨m', hleads, hstep⟩ := exists_leads_of_run h
    exact ⟨m', hleads, hstep, leaves_of_step hstep⟩

end Machine

/-- What a native function has written before it fails stays written. -/
theorem HostM.bind_of_error {α β : Type} {x : HostM α} {k : α → HostM β} {w w' : Writers}
    {error : HostError} (h : x w = (.error error, w')) : (x >>= k) w = (.error error, w') := by
  change ExceptT.bind x k w = _
  simp only [ExceptT.bind, ExceptT.mk, bind, StateT.bind, h, ExceptT.bindCont]
  rfl

/-- Takes a single byte, and is full then. -/
def Device.singleByte : Device where
  accept kept _ _ := if kept.isEmpty then .ok 1 else .error "disk full"
  flush _ _ := .ok ()

namespace Machine

/-- Two names, and a value of one number. -/
def tooFewValues : Statement :=
  .assignment ["a", "b"] [.expression [.number (.ofByte 1)] none] none

/-- Two bytes are written to a device that takes one. The call fails, its arguments are gone and the
value below them is not; frames and scopes are as before, and the one byte stays written. An
assignment that finds one value for its two names leaves everything as it is. -/
theorem partial_write_spares_frames_and_scopes : (∃ m failure,
    m = start [.expression [.identifier "write"] none]
      (.ofList [.number (.ofByte 7), .stream Builtin.cout, .ofBytes [1, 2]]) World.program
      { World.console with writers := #[.ofDevice .singleByte] } ∧
    m.step = .error failure ∧ failure.Leaves m ∧
    failure.fault = .hostCall "write" (.io "disk full") ∧
    failure.machine.stack = .ofList [.number (.ofByte 7)] ∧
    failure.machine.world.writers.kept 0 = #[1]) ∧
    ∃ m : Machine, m = ⟨[⟨[tooFewValues], 0, 1, 1⟩], .ofList [.number (.ofByte 1)], .console⟩ ∧
      m.step = .error ⟨.stackUnderflow 2 1, tooFewValues, m⟩ := by
  let writers : Writers := #[.ofDevice .singleByte]
  let world : World := { World.console with writers }
  have hcall : world.scopes.get? 1 "write" = some (.host Builtin.write) := by
    rw [Scopes.get?_of_parent? rfl rfl Nat.zero_lt_one]
    exact Scopes.get?_of_local? rfl
  have hdeliver : (Writer.ofDevice .singleByte).deliver [1, 2] =
      (.error "disk full", ⟨.singleByte, #[1], 2⟩) := by
    simp [Writer.deliver, Writer.ofDevice, Device.singleByte]
  have hwrite : HostM.write Builtin.cout [1, 2] writers =
      (.error (.io "disk full"), #[⟨.singleByte, #[1], 2⟩]) := by
    simp [HostM.write, Writers.write, Writer.write, hdeliver, Builtin.cout, Except.mapError,
      writers]
  have hlen : [Value.stream Builtin.cout, .ofBytes [1, 2]].length =
      Builtin.write.parameters.length := rfl
  have hrun : (Builtin.write.invoke [.stream Builtin.cout, .ofBytes [1, 2]]).run writers =
      (.error (.io "disk full"), #[⟨.singleByte, #[1], 2⟩]) := by
    change (HostM.write Builtin.cout [1, 2] >>= fun results =>
      pure (ValueType.valueAll [] results)) writers = _
    exact HostM.bind_of_error hwrite
  have hstep := step_of_faults (f := .start [.expression [.identifier "write"] none] 1)
    (s := ⟨.ofList [.number (.ofByte 7), .stream Builtin.cout, .ofBytes [1, 2]], world⟩)
    (.host (.mk rfl rfl) hcall hlen rfl hrun) []
  refine ⟨⟨_, _, rfl, hstep, (failing_step_spares_frames_and_scopes _).1 _ hstep, rfl, rfl, rfl⟩,
    _, rfl, ?_⟩
  exact (failing_step_spares_frames_and_scopes _).2.1 ⟨[tooFewValues], 0, 1, 1⟩ [] ["a", "b"]
    [.expression [.number (.ofByte 1)] none] none rfl rfl Nat.one_ne_zero (Nat.lt_succ_self 1)

end Machine

end Stacklet
