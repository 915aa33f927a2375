import Mathlib.Logic.Relation
import Stacklet.Machine
import Stacklet.Proofs.Store

/-!
What one step of the machine can do. It only looks at the innermost frame: either it puts other
frames in its place and changes the state, or it fails at the frame's statement and leaves all
frames as they are.
-/

namespace Stacklet

/-- What a program works on. -/
structure State where
  stack : Stack
  world : World

namespace State

def push (s : State) (v : Value) : State := { s with stack := s.stack.push v }

/-- The scope that will be created next. -/
def fresh (s : State) : ScopeId := s.world.scopes.all.size

/-- Creates the fresh scope. -/
def extend (s : State) (parent : ScopeId) : State :=
  { s with world.scopes := (s.world.scopes.extend parent).2 }

def bind (s : State) (e : ScopeId) (name : String) (b : Binding) : State :=
  { s with world.scopes := s.world.scopes.bind e name b }

end State

namespace Machine

def of (frames : List Frame) (s : State) : Machine := ⟨frames, s.stack, s.world⟩

def state (m : Machine) : State := ⟨m.stack, m.world⟩

@[simp] theorem of_frames (frames : List Frame) (s : State) : (of frames s).frames = frames := rfl

@[simp] theorem of_state (m : Machine) : of m.frames m.state = m := rfl

end Machine

namespace Frame

def At (f : Frame) (a : Statement) : Prop := f.block[f.statement]? = some a

/-- The frame stands at a term of an expression. -/
inductive AtTerm (f : Frame) : Statement → Term → Prop where
  | mk {terms : List Term} {comment : Option String} {t : Term} :
      f.At (.expression terms comment) → terms[f.term]? = some t →
        AtTerm f (.expression terms comment) t

/-- A step from the state `s` that succeeds: the frames that replace `f`, and the new state. -/
inductive Advances (f : Frame) (s : State) : List Frame → State → Prop where
  | leave : f.block[f.statement]? = none → Advances f s [] s
  | number {a : Statement} {n : Number} :
      f.AtTerm a (.number n) → Advances f s [f.nextTerm] (s.push (.number n))
  | value {a : Statement} {name : String} {v : Value} :
      f.AtTerm a (.identifier name) → s.world.scopes.get? f.scope name = some (.value v) →
        Advances f s [f.nextTerm] (s.push v)
  | guest {a : Statement} {name : String} {c : Closure} :
      f.AtTerm a (.identifier name) → s.world.scopes.get? f.scope name = some (.guest c) →
        Advances f s [.start c.body s.fresh, f.nextTerm] (s.extend c.scope)
  | host {a : Statement} {name : String} {c : HostCall} {arguments results below : List Value}
      {writers : Writers} :
      f.AtTerm a (.identifier name) → s.world.scopes.get? f.scope name = some (.host c) →
      arguments.length = c.parameters.length → s.stack.values = arguments.reverse ++ below →
      (c.invoke arguments).run s.world.writers = (.ok results, writers) →
        Advances f s [f.nextTerm] ⟨⟨results.reverse ++ below⟩, { s.world with writers }⟩
  | comment {a : Statement} {text : String} :
      f.AtTerm a (.comment text) → Advances f s [f.nextTerm] s
  | block {a : Statement} {body : Block} :
      f.AtTerm a (.block body) →
        Advances f s [.start body s.fresh, f.nextTerm] (s.extend f.scope)
  | expression {terms : List Term} {comment : Option String} :
      f.At (.expression terms comment) → terms[f.term]? = none →
        Advances f s [f.nextStatement] s
  | enter {names : List String} {value : Block} {comment : Option String} :
      f.At (.assignment names value comment) → f.term = 0 →
        Advances f s [.start value s.fresh, f.nextTerm] (s.extend f.scope)
  | assign {names : List String} {value : Block} {comment : Option String}
      {values below : List Value} :
      f.At (.assignment names value comment) → f.term ≠ 0 →
      values.length = names.length → s.stack.values = values.reverse ++ below →
        Advances f s [f.nextStatement]
          ⟨⟨below⟩, { s.world with scopes := s.world.scopes.bindAll f.scope names values }⟩
  | method {name : String} {body : Block} {comment : Option String} :
      f.At (.method name body comment) →
        Advances f s [f.nextStatement] (s.bind f.scope name (.guest ⟨f.scope, body⟩))

/-- A step that fails: why, at which statement, and the state that is left. -/
inductive Faults (f : Frame) (s : State) : Fault → Statement → State → Prop where
  | unbound {a : Statement} {name : String} :
      f.AtTerm a (.identifier name) → s.world.scopes.get? f.scope name = none →
        Faults f s (.unboundName name) a s
  | callUnderflow {a : Statement} {name : String} {c : HostCall} :
      f.AtTerm a (.identifier name) → s.world.scopes.get? f.scope name = some (.host c) →
      s.stack.size < c.parameters.length →
        Faults f s (.stackUnderflow c.parameters.length s.stack.size) a s
  | host {a : Statement} {name : String} {c : HostCall} {arguments below : List Value}
      {error : HostError} {writers : Writers} :
      f.AtTerm a (.identifier name) → s.world.scopes.get? f.scope name = some (.host c) →
      arguments.length = c.parameters.length → s.stack.values = arguments.reverse ++ below →
      (c.invoke arguments).run s.world.writers = (.error error, writers) →
        Faults f s (.hostCall c.name error) a ⟨⟨below⟩, { s.world with writers }⟩
  | assignUnderflow {names : List String} {value : Block} {comment : Option String} :
      f.At (.assignment names value comment) → f.term ≠ 0 → s.stack.size < names.length →
        Faults f s (.stackUnderflow names.length s.stack.size) (.assignment names value comment) s

variable {f : Frame} {s s' : State} {fs : List Frame} {fault : Fault} {a : Statement}

theorem AtTerm.at {t : Term} (h : f.AtTerm a t) : f.At a := by
  obtain ⟨ha, -⟩ := h
  exact ha

theorem AtTerm.statement {t : Term} (h : f.AtTerm a t) (m : Machine) :
    m.statement f a = m.term f t := by
  obtain ⟨-, ht⟩ := h
  simp only [Machine.statement, ht]

end Frame

namespace Machine

variable {f : Frame} {s s' : State} {fs : List Frame} {fault : Fault} {a : Statement}

/-- A step at a statement is a step of that statement. -/
theorem step_at (ha : f.At a) (frames : List Frame) (s : State) :
    (of (f :: frames) s).step =
      ((of (f :: frames) s).statement f a).mapError fun (fault, m) => ⟨fault, a, m⟩ := by
  rw [Frame.At] at ha
  simp only [step, of, ha]

theorem call_underflow {m : Machine} {c : HostCall} (h : m.stack.size < c.parameters.length) :
    m.call c = .error (.stackUnderflow c.parameters.length m.stack.size, m) := by
  simp only [call, Stack.pop?_eq_none_iff.mpr h]

section Call

variable {m : Machine} {c : HostCall} {arguments below : List Value} {writers : Writers}

theorem call_ok {results : List Value} (hlen : arguments.length = c.parameters.length)
    (hstack : m.stack.values = arguments.reverse ++ below)
    (hrun : (c.invoke arguments).run m.world.writers = (.ok results, writers)) :
    m.call c = .ok (of m.frames ⟨⟨results.reverse ++ below⟩, { m.world with writers }⟩) := by
  have hpop : m.stack.pop? c.parameters.length = some (arguments, ⟨below⟩) :=
    Stack.pop?_eq_some_iff.mpr ⟨hlen, hstack⟩
  have hpush : Stack.pushAll ⟨below⟩ results = ⟨results.reverse ++ below⟩ := by
    rw [← Stack.values_pushAll]
  simp only [call, hpop, hrun, hpush]
  rfl

theorem call_error {error : HostError} (hlen : arguments.length = c.parameters.length)
    (hstack : m.stack.values = arguments.reverse ++ below)
    (hrun : (c.invoke arguments).run m.world.writers = (.error error, writers)) :
    m.call c = .error
      (.hostCall c.name error, of m.frames ⟨⟨below⟩, { m.world with writers }⟩) := by
  have hpop : m.stack.pop? c.parameters.length = some (arguments, ⟨below⟩) :=
    Stack.pop?_eq_some_iff.mpr ⟨hlen, hstack⟩
  simp only [call, hpop, hrun]
  rfl

end Call

theorem assign_ok {m : Machine} {e : ScopeId} {names : List String} {values below : List Value}
    (hlen : values.length = names.length) (hstack : m.stack.values = values.reverse ++ below) :
    m.assign e names = .ok (of m.frames
      ⟨⟨below⟩, { m.world with scopes := m.world.scopes.bindAll e names values }⟩) := by
  have hpop : m.stack.pop? names.length = some (values, ⟨below⟩) :=
    Stack.pop?_eq_some_iff.mpr ⟨hlen, hstack⟩
  simp only [assign, hpop]
  rfl

theorem assign_underflow {m : Machine} {e : ScopeId} {names : List String}
    (h : m.stack.size < names.length) :
    m.assign e names = .error (.stackUnderflow names.length m.stack.size, m) := by
  simp only [assign, Stack.pop?_eq_none_iff.mpr h]

theorem step_of_advances (h : f.Advances s fs s') (frames : List Frame) :
    (of (f :: frames) s).step = .ok (of (fs ++ frames) s') := by
  have hget (name : String) : (of (f :: frames) s).world.scopes.get? f.scope name =
      s.world.scopes.get? f.scope name := rfl
  cases h with
  | leave hn => simp [step, of, hn]
  | number ht => rw [step_at ht.at, ht.statement]; rfl
  | value ht hv =>
    rw [step_at ht.at, ht.statement]
    simp only [term, hget, hv]
    rfl
  | guest ht hc =>
    rw [step_at ht.at, ht.statement]
    simp only [term, hget, hc]
    rfl
  | host ht hc hlen hstack hrun =>
    rw [step_at ht.at, ht.statement]
    simp only [term, hget, hc]
    rw [call_ok hlen hstack hrun]
    rfl
  | comment ht => rw [step_at ht.at, ht.statement]; rfl
  | block ht => rw [step_at ht.at, ht.statement]; rfl
  | expression ha ht =>
    rw [step_at ha]
    simp only [statement, ht]
    rfl
  | enter ha ht =>
    rw [step_at ha]
    simp only [statement, if_pos ht]
    rfl
  | assign ha ht hlen hstack =>
    rw [step_at ha]
    simp only [statement, if_neg ht]
    rw [assign_ok hlen hstack]
    rfl
  | method ha => rw [step_at ha]; rfl

theorem step_of_faults (h : f.Faults s fault a s') (frames : List Frame) :
    (of (f :: frames) s).step = .error ⟨fault, a, of (f :: frames) s'⟩ := by
  have hget (name : String) : (of (f :: frames) s).world.scopes.get? f.scope name =
      s.world.scopes.get? f.scope name := rfl
  cases h with
  | unbound ht hn =>
    rw [step_at ht.at, ht.statement]
    simp only [term, hget, hn]
    rfl
  | callUnderflow ht hc hlt =>
    rw [step_at ht.at, ht.statement]
    simp only [term, hget, hc]
    rw [call_underflow hlt]
    rfl
  | host ht hc hlen hstack hrun =>
    rw [step_at ht.at, ht.statement]
    simp only [term, hget, hc]
    rw [call_error hlen hstack hrun]
    rfl
  | assignUnderflow ha ht hlt =>
    rw [step_at ha]
    simp only [statement, if_neg ht]
    rw [assign_underflow hlt]
    rfl

end Machine

namespace Frame

variable {f : Frame} {a : Statement} {t : Term}

theorem AtTerm.advances_or_faults (ht : f.AtTerm a t) (s : State) :
    (∃ fs s', f.Advances s fs s') ∨ ∃ fault a s', f.Faults s fault a s' := by
  cases t with
  | number n => exact .inl ⟨_, _, .number ht⟩
  | comment text => exact .inl ⟨_, _, .comment ht⟩
  | block body => exact .inl ⟨_, _, .block ht⟩
  | identifier name =>
    cases hb : s.world.scopes.get? f.scope name with
    | none => exact .inr ⟨_, _, _, .unbound ht hb⟩
    | some b =>
      cases b with
      | value v => exact .inl ⟨_, _, .value ht hb⟩
      | guest c => exact .inl ⟨_, _, .guest ht hb⟩
      | host c =>
        rcases s.stack.pop_or_underflow c.parameters.length with ⟨vs, below, hlen, hs⟩ | hlt
        · rcases hrun : (c.invoke vs).run s.world.writers with ⟨_ | results, writers⟩
          · exact .inr ⟨_, _, _, .host ht hb hlen hs hrun⟩
          · exact .inl ⟨_, _, .host ht hb hlen hs hrun⟩
        · exact .inr ⟨_, _, _, .callUnderflow ht hb hlt⟩

theorem advances_or_faults (f : Frame) (s : State) :
    (∃ fs s', f.Advances s fs s') ∨ ∃ fault a s', f.Faults s fault a s' := by
  cases ha : f.block[f.statement]? with
  | none => exact .inl ⟨_, _, .leave ha⟩
  | some a =>
    cases a with
    | expression terms comment =>
      cases ht : terms[f.term]? with
      | none => exact .inl ⟨_, _, .expression ha ht⟩
      | some t => exact AtTerm.advances_or_faults (.mk ha ht) s
    | assignment names value comment =>
      by_cases ht : f.term = 0
      · exact .inl ⟨_, _, .enter ha ht⟩
      · rcases s.stack.pop_or_underflow names.length with ⟨vs, below, hlen, hs⟩ | hlt
        · exact .inl ⟨_, _, .assign ha ht hlen hs⟩
        · exact .inr ⟨_, _, _, .assignUnderflow ha ht hlt⟩
    | method name body comment => exact .inl ⟨_, _, .method ha⟩

end Frame

namespace Machine

variable {f : Frame} {frames : List Frame} {s : State}

/-- What a successful step is. -/
theorem step_eq_ok_iff {m' : Machine} :
    (of (f :: frames) s).step = .ok m' ↔
      ∃ fs s', f.Advances s fs s' ∧ m' = of (fs ++ frames) s' := by
  constructor
  · intro h
    rcases f.advances_or_faults s with ⟨fs, s', hadv⟩ | ⟨fault, a, s', hfault⟩
    · rw [step_of_advances hadv] at h
      exact ⟨fs, s', hadv, (Except.ok.inj h).symm⟩
    -- The step is a function of the machine, so it cannot fail as well.
    · rw [step_of_faults hfault] at h
      cases h
  · rintro ⟨fs, s', hadv, rfl⟩
    exact step_of_advances hadv frames

/-- What a failing step is. -/
theorem step_eq_error_iff {failure : Failure} :
    (of (f :: frames) s).step = .error failure ↔
      ∃ fault a s', f.Faults s fault a s' ∧ failure = ⟨fault, a, of (f :: frames) s'⟩ := by
  constructor
  · intro h
    rcases f.advances_or_faults s with ⟨fs, s', hadv⟩ | ⟨fault, a, s', hfault⟩
    · rw [step_of_advances hadv] at h
      cases h
    · rw [step_of_faults hfault] at h
      exact ⟨fault, a, s', hfault, (Except.error.inj h).symm⟩
  · rintro ⟨fault, a, s', hfault, rfl⟩
    exact step_of_faults hfault frames

end Machine

end Stacklet
