import Mathlib.Data.List.Induction
import Stacklet.Proofs.Step

/-!
A big-step semantics of programs, in which nested evaluation is a nested derivation. The machine
ends with an outcome and a state exactly if the semantics derives them.
-/

namespace Stacklet

/-- How an evaluation ends: well, or with a fault at the innermost statement being executed. -/
inductive Outcome where
  | done
  | failed (fault : Fault) (statement : Statement)

/-- What is evaluated. A binding, and terms, belong to the statement `a`. -/
inductive Task where
  | statements (rest : Block)
  | statement (a : Statement)
  /-- The names of an assignment whose value has been evaluated. -/
  | binding (names : List String) (a : Statement)
  | terms (a : Statement) (rest : List Term)
  | term (a : Statement) (t : Term)

/-- `Binds e names s s'` says that the names take a value each off the stack and are bound to it in
the scope `e`. The last name takes the top, and is bound after the others. -/
inductive Binds (e : ScopeId) : List String → State → State → Prop where
  | nil {s : State} : Binds e [] s s
  | concat {names : List String} {name : String} {v : Value} {values : List Value}
      {world : World} {s' : State} :
      Binds e names ⟨⟨values⟩, world⟩ s' →
        Binds e (names ++ [name]) ⟨⟨v :: values⟩, world⟩ (s'.bind e name (.value v))

/-- The machine takes the values off together, oldest first, and then binds the names in order. -/
theorem binds_iff {e : ScopeId} {names : List String} {s s' : State} :
    Binds e names s s' ↔
      ∃ values below : List Value, values.length = names.length ∧
        s.stack.values = values.reverse ++ below ∧
        s' = ⟨⟨below⟩, { s.world with scopes := s.world.scopes.bindAll e names values }⟩ := by
  constructor
  · intro h
    induction h with
    | @nil s => exact ⟨[], s.stack.values, rfl, rfl, rfl⟩
    | @concat names name v newer world s' _ ih =>
      obtain ⟨values, below, hlen, hstack, rfl⟩ := ih
      refine ⟨values ++ [v], below, by simp [hlen], ?_, ?_⟩
      · rw [List.reverse_concat]
        exact congrArg (v :: ·) hstack
      · rw [Scopes.bindAll_concat _ _ _ _ hlen]
        rfl
  · rintro ⟨values, below, hlen, hstack, rfl⟩
    obtain ⟨⟨stack⟩, world⟩ := s
    obtain rfl : stack = values.reverse ++ below := hstack
    induction names using List.reverseRecOn generalizing values with
    | nil =>
      obtain rfl := List.eq_nil_of_length_eq_zero hlen
      exact .nil
    | append_singleton names name ih =>
      obtain rfl | ⟨values, v, rfl⟩ := values.eq_nil_or_concat'
      · simp at hlen
      · have hlen : values.length = names.length := by simpa using hlen
        rw [Scopes.bindAll_concat _ _ _ _ hlen, List.reverse_concat]
        exact .concat (ih values hlen)

/-- `Evaluates e t s o s'` says that `t`, evaluated in the scope `e` from the state `s`, ends with
the outcome `o` and leaves the state `s'`. -/
inductive Evaluates : ScopeId → Task → State → Outcome → State → Prop where
  | nil {e : ScopeId} {s : State} : Evaluates e (.statements []) s .done s
  | cons {e : ScopeId} {a : Statement} {rest : Block} {s s' s'' : State} {o : Outcome} :
      Evaluates e (.statement a) s .done s' → Evaluates e (.statements rest) s' o s'' →
        Evaluates e (.statements (a :: rest)) s o s''
  | consFailed {e : ScopeId} {a b : Statement} {rest : Block} {s s' : State} {fault : Fault} :
      Evaluates e (.statement a) s (.failed fault b) s' →
        Evaluates e (.statements (a :: rest)) s (.failed fault b) s'
  | expression {e : ScopeId} {terms : List Term} {comment : Option String} {s s' : State}
      {o : Outcome} :
      Evaluates e (.terms (.expression terms comment) terms) s o s' →
        Evaluates e (.statement (.expression terms comment)) s o s'
  | assignment {e : ScopeId} {names : List String} {value : Block} {comment : Option String}
      {s s' s'' : State} {o : Outcome} :
      Evaluates s.fresh (.statements value) (s.extend e) .done s' →
      Evaluates e (.binding names (.assignment names value comment)) s' o s'' →
        Evaluates e (.statement (.assignment names value comment)) s o s''
  | assignmentFailed {e : ScopeId} {names : List String} {value : Block}
      {comment : Option String} {s s' : State} {fault : Fault} {b : Statement} :
      Evaluates s.fresh (.statements value) (s.extend e) (.failed fault b) s' →
        Evaluates e (.statement (.assignment names value comment)) s (.failed fault b) s'
  | method {e : ScopeId} {name : String} {body : Block} {comment : Option String} {s : State} :
      Evaluates e (.statement (.method name body comment)) s .done
        (s.bind e name (.guest ⟨e, body⟩))
  | binding {e : ScopeId} {names : List String} {a : Statement} {s s' : State} :
      Binds e names s s' → Evaluates e (.binding names a) s .done s'
  | bindingUnderflow {e : ScopeId} {names : List String} {a : Statement} {s : State} :
      s.stack.size < names.length →
        Evaluates e (.binding names a) s
          (.failed (.stackUnderflow names.length s.stack.size) a) s
  | termsNil {e : ScopeId} {a : Statement} {s : State} : Evaluates e (.terms a []) s .done s
  | termsCons {e : ScopeId} {a : Statement} {t : Term} {rest : List Term} {s s' s'' : State}
      {o : Outcome} :
      Evaluates e (.term a t) s .done s' → Evaluates e (.terms a rest) s' o s'' →
        Evaluates e (.terms a (t :: rest)) s o s''
  | termsFailed {e : ScopeId} {a b : Statement} {t : Term} {rest : List Term} {s s' : State}
      {fault : Fault} :
      Evaluates e (.term a t) s (.failed fault b) s' →
        Evaluates e (.terms a (t :: rest)) s (.failed fault b) s'
  | number {e : ScopeId} {a : Statement} {n : Number} {s : State} :
      Evaluates e (.term a (.number n)) s .done (s.push (.number n))
  | comment {e : ScopeId} {a : Statement} {text : String} {s : State} :
      Evaluates e (.term a (.comment text)) s .done s
  | block {e : ScopeId} {a : Statement} {body : Block} {s s' : State} {o : Outcome} :
      Evaluates s.fresh (.statements body) (s.extend e) o s' →
        Evaluates e (.term a (.block body)) s o s'
  | value {e : ScopeId} {a : Statement} {name : String} {v : Value} {s : State} :
      s.world.scopes.get? e name = some (.value v) →
        Evaluates e (.term a (.identifier name)) s .done (s.push v)
  /-- The body is evaluated under the scope that the method was defined in. -/
  | guest {e : ScopeId} {a : Statement} {name : String} {c : Closure} {s s' : State}
      {o : Outcome} :
      s.world.scopes.get? e name = some (.guest c) →
      Evaluates s.fresh (.statements c.body) (s.extend c.scope) o s' →
        Evaluates e (.term a (.identifier name)) s o s'
  | host {e : ScopeId} {a : Statement} {name : String} {c : HostCall} {s : State}
      {arguments results below : List Value} {writers : Writers} :
      s.world.scopes.get? e name = some (.host c) →
      arguments.length = c.parameters.length → s.stack.values = arguments.reverse ++ below →
      (c.invoke arguments).run s.world.writers = (.ok results, writers) →
        Evaluates e (.term a (.identifier name)) s .done
          ⟨⟨results.reverse ++ below⟩, { s.world with writers }⟩
  | unbound {e : ScopeId} {a : Statement} {name : String} {s : State} :
      s.world.scopes.get? e name = none →
        Evaluates e (.term a (.identifier name)) s (.failed (.unboundName name) a) s
  | hostUnderflow {e : ScopeId} {a : Statement} {name : String} {c : HostCall} {s : State} :
      s.world.scopes.get? e name = some (.host c) → s.stack.size < c.parameters.length →
        Evaluates e (.term a (.identifier name)) s
          (.failed (.stackUnderflow c.parameters.length s.stack.size) a) s
  /-- The arguments of a call that fails are gone all the same. -/
  | hostFailed {e : ScopeId} {a : Statement} {name : String} {c : HostCall} {s : State}
      {arguments below : List Value} {error : HostError} {writers : Writers} :
      s.world.scopes.get? e name = some (.host c) →
      arguments.length = c.parameters.length → s.stack.values = arguments.reverse ++ below →
      (c.invoke arguments).run s.world.writers = (.error error, writers) →
        Evaluates e (.term a (.identifier name)) s (.failed (.hostCall c.name error) a)
          ⟨⟨below⟩, { s.world with writers }⟩

/-- How something that starts in one state may end. -/
abbrev Effect := State → Outcome → State → Prop

namespace Effect

def skip : Effect := fun s o s' => o = .done ∧ s' = s

/-- What follows an outcome: `q` if it is good, else nothing. -/
inductive After (q : Effect) : Outcome → State → Outcome → State → Prop where
  | done {s s' : State} {o : Outcome} : q s o s' → After q .done s o s'
  | failed {s : State} {fault : Fault} {a : Statement} :
      After q (.failed fault a) s (.failed fault a) s

/-- First `p`, then `q` unless `p` fails. -/
def Then (p q : Effect) : Effect := fun s o s' => ∃ o₁ s₁, p s o₁ s₁ ∧ After q o₁ s₁ o s'

variable {p p' q r : Effect} {s s₁ s' : State} {o : Outcome}

theorem Then.imp (hp : ∀ o s', p s₁ o s' → p' s o s') (h : Then p q s₁ o s') :
    Then p' q s o s' := by
  obtain ⟨o₁, s₂, h₁, h₂⟩ := h
  exact ⟨o₁, s₂, hp o₁ s₂ h₁, h₂⟩

theorem then_skip : Then p skip s o s' ↔ p s o s' := by
  constructor
  · rintro ⟨o₁, s₁, hp, hq | _⟩
    · obtain ⟨rfl, rfl⟩ := hq
      exact hp
    · exact hp
  · intro hp
    cases o with
    | done => exact ⟨.done, s', hp, .done ⟨rfl, rfl⟩⟩
    | failed fault a => exact ⟨_, s', hp, .failed⟩

theorem skip_then : Then skip p s o s' ↔ p s o s' := by
  constructor
  · rintro ⟨o₁, s₁, ⟨rfl, rfl⟩, h⟩
    cases h with
    | done hp => exact hp
  · intro hp
    exact ⟨.done, s, ⟨rfl, rfl⟩, .done hp⟩

theorem then_assoc : Then (Then p q) r s o s' ↔ Then p (Then q r) s o s' := by
  constructor
  · rintro ⟨o₂, s₂, ⟨o₁, s₁, hp, hq | _⟩, hr⟩
    · exact ⟨.done, s₁, hp, .done ⟨o₂, s₂, hq, hr⟩⟩
    · cases hr
      exact ⟨_, _, hp, .failed⟩
  · rintro ⟨o₁, s₁, hp, ⟨o₂, s₂, hq, hr⟩ | _⟩
    · exact ⟨o₂, s₂, ⟨.done, s₁, hp, .done hq⟩, hr⟩
    · exact ⟨_, _, ⟨_, _, hp, .failed⟩, .failed⟩

end Effect

end Stacklet
