import Stacklet.Proofs.Comments
import Stacklet.Proofs.Refinement

/-!
Comments do nothing. A program and its erasure end alike, though after different numbers of steps:
well or with the same fault, with the same stack and writers, and with the same scopes up to the
comments in the bodies of methods.
-/

namespace Stacklet

/-! Scopes, when methods lose their comments. -/

def Closure.erase (c : Closure) : Closure := { c with body := Block.erase c.body }

def Binding.erase : Binding → Binding
  | value v => .value v
  | guest c => .guest c.erase
  | host c => .host c

def Scope.erase (s : Scope) : Scope :=
  { s with bindings := s.bindings.map fun (name, b) => (name, b.erase) }

def Scopes.erase (h : Scopes) : Scopes := ⟨h.all.map Scope.erase⟩

@[simp] theorem Binding.erase_eq_value_iff {b : Binding} {v : Value} :
    b.erase = .value v ↔ b = .value v := by
  cases b <;> simp [erase]

@[simp] theorem Binding.erase_eq_guest_iff {b : Binding} {c : Closure} :
    b.erase = .guest c ↔ ∃ c₀ : Closure, b = .guest c₀ ∧ c₀.erase = c := by
  cases b <;> simp [erase]

@[simp] theorem Binding.erase_eq_host_iff {b : Binding} {c : HostCall} :
    b.erase = .host c ↔ b = .host c := by
  cases b <;> simp [erase]

theorem Scope.get?_erase (s : Scope) (x : String) :
    s.erase.get? x = (s.get? x).map Binding.erase := by
  simp only [get?, erase]
  induction s.bindings with
  | nil => rfl
  | cons entry entries ih =>
    rw [List.map_cons, List.lookup_cons, List.lookup_cons, ih]
    cases x == entry.1 <;> rfl

theorem Scope.erase_bind (s : Scope) (name : String) (b : Binding) :
    (s.bind name b).erase = s.erase.bind name b.erase := by
  simp [bind, erase, List.filter_map, Function.comp_def]

namespace Scopes

variable (h : Scopes) (e : ScopeId) (x : String)

@[simp] theorem size_erase : h.erase.all.size = h.all.size := by
  simp [erase]

theorem local?_erase : h.erase.local? e x = (h.local? e x).map Binding.erase := by
  simp only [local?, erase, Array.getElem?_map]
  cases h.all[e]? with
  | none => rfl
  | some s => exact s.get?_erase x

@[simp] theorem parent?_erase : h.erase.parent? e = h.parent? e := by
  simp only [parent?, erase, Array.getElem?_map]
  cases h.all[e]? <;> rfl

theorem get?_erase : h.erase.get? e x = (h.get? e x).map Binding.erase := by
  induction e using Nat.strongRecOn with
  | ind e ih =>
    rw [get?, get?, local?_erase, parent?_erase]
    cases h.local? e x with
    | some b => rfl
    | none =>
      cases h.parent? e with
      | none => rfl
      | some p =>
        simp only [Option.map_none]
        split
        · rename_i hp
          exact ih p hp
        · rfl

theorem erase_extend : (h.extend e).2.erase = (h.erase.extend e).2 := by
  simp [extend, add, erase, Scope.erase]

theorem erase_bind (b : Binding) : (h.bind e x b).erase = h.erase.bind e x b.erase := by
  simp only [bind, erase, mk.injEq]
  apply Array.ext_getElem?
  intro i
  simp only [Array.getElem?_map, Array.getElem?_modify]
  split
  · cases h.all[i]? with
    | none => rfl
    | some s => simp [s.erase_bind]
  · rfl

variable {h e x}

theorem get?_erase_eq_none_iff : h.erase.get? e x = none ↔ h.get? e x = none := by
  rw [get?_erase, Option.map_eq_none_iff]

theorem get?_erase_eq_value_iff {v : Value} :
    h.erase.get? e x = some (.value v) ↔ h.get? e x = some (.value v) := by
  simp [get?_erase]

theorem get?_erase_eq_host_iff {c : HostCall} :
    h.erase.get? e x = some (.host c) ↔ h.get? e x = some (.host c) := by
  simp [get?_erase]

theorem get?_erase_eq_guest_iff {c : Closure} :
    h.erase.get? e x = some (.guest c) ↔
      ∃ c₀ : Closure, h.get? e x = some (.guest c₀) ∧ c₀.erase = c := by
  simp [get?_erase]

end Scopes

def World.erase (w : World) : World := { w with scopes := w.scopes.erase }

namespace State

def erase (s : State) : State := { s with world := s.world.erase }

variable (s : State) (e : ScopeId)

@[simp] theorem fresh_erase : s.erase.fresh = s.fresh := s.world.scopes.size_erase

theorem erase_extend : (s.extend e).erase = s.erase.extend e := by
  simp [erase, extend, World.erase, Scopes.erase_extend]

theorem erase_bind (x : String) (b : Binding) :
    (s.bind e x b).erase = s.erase.bind e x b.erase := by
  simp [erase, bind, World.erase, Scopes.erase_bind]

end State

namespace Binds

variable {e : ScopeId} {names : List String} {s s' : State}

theorem erase (h : Binds e names s s') : Binds e names s.erase s'.erase := by
  induction h with
  | nil => exact .nil
  | concat _ ih =>
    rw [State.erase_bind]
    exact .concat ih

theorem exists_of_erase (h : Binds e names s.erase s') :
    ∃ s₁, Binds e names s s₁ ∧ s₁.erase = s' := by
  generalize hs : s.erase = s₀ at h
  induction h generalizing s with
  | nil => exact ⟨s, .nil, hs⟩
  | @concat names name v values world s' _ ih =>
    obtain ⟨stack, w⟩ := s
    cases hs
    obtain ⟨s₁, h₁, rfl⟩ := ih (s := ⟨⟨values⟩, w⟩) rfl
    exact ⟨s₁.bind e name (.value v), .concat h₁, s₁.erase_bind _ _ _⟩

end Binds

/-- The same fault, at the same statement but for its comments. -/
def Outcome.erase : Outcome → Outcome
  | done => .done
  | failed fault a => .failed fault a.erase

namespace Outcome

variable {o : Outcome}

theorem erase_eq_done_iff : o.erase = .done ↔ o = .done := by
  cases o <;> simp [erase]

theorem erase_eq_failed_iff {fault : Fault} {a' : Statement} :
    o.erase = .failed fault a' ↔ ∃ a, o = .failed fault a ∧ a.erase = a' := by
  cases o <;> simp [erase]

end Outcome

def Task.erase : Task → Task
  | statements rest => .statements (Block.erase rest)
  | statement a => .statement a.erase
  | binding names a => .binding names a.erase
  | terms a rest => .terms a.erase (Term.eraseAll rest)
  | term a t => .term a.erase t.erase

/-! What is left comes from a task of the same kind. -/

namespace Task

variable {t : Task}

theorem erase_eq_statements_iff {b' : Block} :
    t.erase = .statements b' ↔ ∃ b, t = .statements b ∧ Block.erase b = b' := by
  cases t <;> simp [erase]

theorem erase_eq_statement_iff {a' : Statement} :
    t.erase = .statement a' ↔ ∃ a, t = .statement a ∧ a.erase = a' := by
  cases t <;> simp [erase]

theorem erase_eq_binding_iff {names : List String} {a' : Statement} :
    t.erase = .binding names a' ↔ ∃ a, t = .binding names a ∧ a.erase = a' := by
  cases t <;> simp [erase]

theorem erase_eq_terms_iff {a' : Statement} {ts' : List Term} :
    t.erase = .terms a' ts' ↔ ∃ a ts, t = .terms a ts ∧ a.erase = a' ∧ Term.eraseAll ts = ts' := by
  cases t <;> simp [erase]

theorem erase_eq_term_iff {a' : Statement} {u' : Term} :
    t.erase = .term a' u' ↔ ∃ a u, t = .term a u ∧ a.erase = a' ∧ u.erase = u' := by
  cases t <;> simp [erase]

theorem erase_eq_identifier_iff {a' : Statement} {name : String} :
    t.erase = .term a' (.identifier name) ↔
      ∃ a, t = .term a (.identifier name) ∧ a.erase = a' := by
  rw [erase_eq_term_iff]
  constructor
  · rintro ⟨a, u, rfl, ha, hu⟩
    obtain rfl := Term.erase_eq_identifier_iff.mp hu
    exact ⟨a, rfl, ha⟩
  · rintro ⟨a, rfl, ha⟩
    exact ⟨a, _, rfl, ha, rfl⟩

end Task

/-! Comments, and expressions of nothing else, are skipped. -/

open Effect

namespace Evaluates

variable {e : ScopeId} {a : Statement} {s s' : State} {o : Outcome}

theorem statements_cons_iff {rest : Block} :
    Evaluates e (.statements (a :: rest)) s o s' ↔
      Then (Evaluates e (.statement a)) (Evaluates e (.statements rest)) s o s' := by
  constructor
  · intro h
    cases h with
    | cons h₁ h₂ => exact ⟨_, _, h₁, .done h₂⟩
    | consFailed h₁ => exact ⟨_, _, h₁, .failed⟩
  · exact of_then

theorem terms_cons_iff {t : Term} {rest : List Term} :
    Evaluates e (.terms a (t :: rest)) s o s' ↔
      Then (Evaluates e (.term a t)) (Evaluates e (.terms a rest)) s o s' := by
  constructor
  · intro h
    cases h with
    | termsCons h₁ h₂ => exact ⟨_, _, h₁, .done h₂⟩
    | termsFailed h₁ => exact ⟨_, _, h₁, .failed⟩
  · exact terms_of_then

theorem expression_iff {ts : List Term} {comment : Option String} :
    Evaluates e (.statement (.expression ts comment)) s o s' ↔
      Evaluates e (.terms (.expression ts comment) ts) s o s' := by
  constructor
  · intro h
    cases h with
    | expression h => exact h
  · exact .expression

theorem term_eq_skip {t : Term} (ht : t.isComment) : Evaluates e (.term a t) = skip := by
  funext s o s'
  apply propext
  cases t with
  | comment text =>
    constructor
    · intro h
      cases h
      exact ⟨rfl, rfl⟩
    · rintro ⟨rfl, rfl⟩
      exact .comment
  | number n => cases ht
  | identifier name => cases ht
  | block body => cases ht

theorem terms_append_iff {notes rest : List Term} (hnotes : ∀ t ∈ notes, t.isComment) :
    Evaluates e (.terms a (notes ++ rest)) s o s' ↔ Evaluates e (.terms a rest) s o s' := by
  induction notes with
  | nil => rfl
  | cons t notes ih =>
    rw [List.cons_append, terms_cons_iff, term_eq_skip (hnotes t (by simp)), skip_then]
    exact ih fun t ht => hnotes t (List.mem_cons_of_mem _ ht)

theorem terms_nil_eq_skip : Evaluates e (.terms a []) = skip := by
  funext s o s'
  apply propext
  constructor
  · intro h
    cases h
    exact ⟨rfl, rfl⟩
  · rintro ⟨rfl, rfl⟩
    exact .termsNil

theorem statement_eq_skip (ha : a.erase.isRemark) : Evaluates e (.statement a) = skip := by
  obtain ⟨notes, comment, rfl, hnotes⟩ := Statement.exists_of_isRemark_erase ha
  funext s o s'
  apply propext
  rw [expression_iff, ← List.append_nil notes]
  rw [terms_append_iff hnotes, terms_nil_eq_skip]

theorem statements_append_iff {notes rest : Block} (hnotes : ∀ n ∈ notes, n.erase.isRemark) :
    Evaluates e (.statements (notes ++ rest)) s o s' ↔ Evaluates e (.statements rest) s o s' := by
  induction notes with
  | nil => rfl
  | cons n notes ih =>
    rw [List.cons_append, statements_cons_iff, statement_eq_skip (hnotes n (by simp)), skip_then]
    exact ih fun n hn => hnotes n (List.mem_cons_of_mem _ hn)

/-- A derivation can be read without its comments. -/
theorem erase {t : Task} (h : Evaluates e t s o s') :
    Evaluates e t.erase s.erase o.erase s'.erase := by
  induction h with
  | nil => exact .nil
  | @cons e a rest s s₁ s' o h₁ _ ih₁ ih₂ =>
    rw [Task.erase, Block.erase]
    split
    -- A statement that is left out has done nothing.
    · rename_i ha
      rw [statement_eq_skip ha] at h₁
      obtain ⟨-, rfl⟩ := h₁
      exact ih₂
    · exact .cons ih₁ ih₂
  | @consFailed e a b rest s s' fault h₁ ih =>
    rw [Task.erase, Block.erase]
    split
    · rename_i ha
      rw [statement_eq_skip ha] at h₁
      cases h₁.1
    · exact .consFailed ih
  | expression _ ih => exact .expression ih
  | @assignment e names value comment s s₁ s' o _ _ ih₁ ih₂ =>
    rw [State.erase_extend, ← State.fresh_erase] at ih₁
    exact .assignment ih₁ ih₂
  | assignmentFailed _ ih =>
    rw [State.erase_extend, ← State.fresh_erase] at ih
    exact .assignmentFailed ih
  | method =>
    rw [State.erase_bind]
    exact .method
  | binding hb => exact .binding hb.erase
  | bindingUnderflow hlt => exact .bindingUnderflow hlt
  | termsNil => exact .termsNil
  | @termsCons e a t rest s s₁ s' o h₁ _ ih₁ ih₂ =>
    rw [Task.erase, Term.eraseAll]
    split
    · rename_i ht
      rw [term_eq_skip ht] at h₁
      obtain ⟨-, rfl⟩ := h₁
      exact ih₂
    · exact .termsCons ih₁ ih₂
  | @termsFailed e a b t rest s s' fault h₁ ih =>
    rw [Task.erase, Term.eraseAll]
    split
    · rename_i ht
      rw [term_eq_skip ht] at h₁
      cases h₁.1
    · exact .termsFailed ih
  | number => exact .number
  | comment => exact .comment
  | block _ ih =>
    rw [State.erase_extend, ← State.fresh_erase] at ih
    exact .block ih
  | value hv => exact .value (Scopes.get?_erase_eq_value_iff.mpr hv)
  | guest hc _ ih =>
    rw [State.erase_extend, ← State.fresh_erase] at ih
    exact .guest (Scopes.get?_erase_eq_guest_iff.mpr ⟨_, hc, rfl⟩) ih
  | host hc hlen hstack hrun =>
    exact .host (Scopes.get?_erase_eq_host_iff.mpr hc) hlen hstack hrun
  | unbound hn => exact .unbound (Scopes.get?_erase_eq_none_iff.mpr hn)
  | hostUnderflow hc hlt => exact .hostUnderflow (Scopes.get?_erase_eq_host_iff.mpr hc) hlt
  | hostFailed hc hlen hstack hrun =>
    exact .hostFailed (Scopes.get?_erase_eq_host_iff.mpr hc) hlen hstack hrun

/-- A derivation about what is left without comments is one about the whole, read without them. -/
theorem exists_of_erase {t t' : Task} {s₀ s₁ : State} {o' : Outcome} (h : Evaluates e t' s₀ o' s₁)
    (ht : t.erase = t') (hs : s.erase = s₀) :
    ∃ o s', Evaluates e t s o s' ∧ o.erase = o' ∧ s'.erase = s₁ := by
  -- The task and the state vary, since a nested derivation has other ones.
  induction h generalizing t s with
  | nil =>
    obtain ⟨b, rfl, hb⟩ := Task.erase_eq_statements_iff.mp ht
    refine ⟨.done, s, ?_, rfl, hs⟩
    rw [← List.append_nil b, statements_append_iff (Block.isRemark_of_erase_eq_nil hb)]
    exact .nil
  | cons _ _ ih₁ ih₂ =>
    obtain ⟨b, rfl, hb⟩ := Task.erase_eq_statements_iff.mp ht
    -- The first statement that is left may have had some before it that were left out.
    obtain ⟨notes, a, rest, rfl, hnotes, rfl, rfl⟩ := Block.exists_of_erase_eq_cons hb
    obtain ⟨o₁, s₁, h₁, ho₁, hs₁⟩ := ih₁ (t := .statement a) rfl hs
    obtain rfl := Outcome.erase_eq_done_iff.mp ho₁
    obtain ⟨o₂, s₂, h₂, ho₂, hs₂⟩ := ih₂ (t := .statements rest) rfl hs₁
    exact ⟨o₂, s₂, (statements_append_iff hnotes).mpr (.cons h₁ h₂), ho₂, hs₂⟩
  | consFailed _ ih =>
    obtain ⟨b, rfl, hb⟩ := Task.erase_eq_statements_iff.mp ht
    obtain ⟨notes, a, rest, rfl, hnotes, rfl, rfl⟩ := Block.exists_of_erase_eq_cons hb
    obtain ⟨o₁, s₁, h₁, ho₁, hs₁⟩ := ih (t := .statement a) rfl hs
    obtain ⟨c, rfl, -⟩ := Outcome.erase_eq_failed_iff.mp ho₁
    exact ⟨_, s₁, (statements_append_iff hnotes).mpr (.consFailed h₁), ho₁, hs₁⟩
  | expression _ ih =>
    obtain ⟨a, rfl, ha⟩ := Task.erase_eq_statement_iff.mp ht
    obtain ⟨ts, comment, rfl, rfl, rfl⟩ := Statement.erase_eq_expression_iff.mp ha
    obtain ⟨o, s', h, ho, hs'⟩ := ih (t := .terms (.expression ts comment) ts) rfl hs
    exact ⟨o, s', .expression h, ho, hs'⟩
  | assignment _ _ ih₁ ih₂ =>
    obtain ⟨a, rfl, ha⟩ := Task.erase_eq_statement_iff.mp ht
    obtain ⟨value, comment, rfl, rfl, rfl⟩ := Statement.erase_eq_assignment_iff.mp ha
    subst hs
    obtain ⟨o₁, s₁, h₁, ho₁, hs₁⟩ := ih₁ (t := .statements value) rfl (s.erase_extend _)
    obtain rfl := Outcome.erase_eq_done_iff.mp ho₁
    obtain ⟨o₂, s₂, h₂, ho₂, hs₂⟩ :=
      ih₂ (t := .binding _ (.assignment _ value comment)) rfl hs₁
    rw [State.fresh_erase] at h₁
    exact ⟨o₂, s₂, .assignment h₁ h₂, ho₂, hs₂⟩
  | assignmentFailed _ ih =>
    obtain ⟨a, rfl, ha⟩ := Task.erase_eq_statement_iff.mp ht
    obtain ⟨value, comment, rfl, rfl, rfl⟩ := Statement.erase_eq_assignment_iff.mp ha
    subst hs
    obtain ⟨o₁, s₁, h₁, ho₁, hs₁⟩ := ih (t := .statements value) rfl (s.erase_extend _)
    obtain ⟨c, rfl, -⟩ := Outcome.erase_eq_failed_iff.mp ho₁
    rw [State.fresh_erase] at h₁
    exact ⟨_, s₁, .assignmentFailed h₁, ho₁, hs₁⟩
  | method =>
    obtain ⟨a, rfl, ha⟩ := Task.erase_eq_statement_iff.mp ht
    obtain ⟨body, comment, rfl, rfl, rfl⟩ := Statement.erase_eq_method_iff.mp ha
    subst hs
    exact ⟨.done, _, .method, rfl, s.erase_bind _ _ _⟩
  | binding hb =>
    obtain ⟨a, rfl, rfl⟩ := Task.erase_eq_binding_iff.mp ht
    subst hs
    obtain ⟨s', hb', hs'⟩ := hb.exists_of_erase
    exact ⟨.done, s', .binding hb', rfl, hs'⟩
  | bindingUnderflow hlt =>
    obtain ⟨a, rfl, rfl⟩ := Task.erase_eq_binding_iff.mp ht
    subst hs
    exact ⟨_, s, .bindingUnderflow hlt, rfl, rfl⟩
  | termsNil =>
    obtain ⟨a, ts, rfl, -, hts⟩ := Task.erase_eq_terms_iff.mp ht
    refine ⟨.done, s, ?_, rfl, hs⟩
    rw [← List.append_nil ts, terms_append_iff (Term.isComment_of_eraseAll_eq_nil hts)]
    exact .termsNil
  | termsCons _ _ ih₁ ih₂ =>
    obtain ⟨a, ts, rfl, rfl, hts⟩ := Task.erase_eq_terms_iff.mp ht
    obtain ⟨notes, t, rest, rfl, hnotes, rfl, rfl⟩ := Term.exists_of_eraseAll_eq_cons hts
    obtain ⟨o₁, s₁, h₁, ho₁, hs₁⟩ := ih₁ (t := .term a t) rfl hs
    obtain rfl := Outcome.erase_eq_done_iff.mp ho₁
    obtain ⟨o₂, s₂, h₂, ho₂, hs₂⟩ := ih₂ (t := .terms a rest) rfl hs₁
    exact ⟨o₂, s₂, (terms_append_iff hnotes).mpr (.termsCons h₁ h₂), ho₂, hs₂⟩
  | termsFailed _ ih =>
    obtain ⟨a, ts, rfl, rfl, hts⟩ := Task.erase_eq_terms_iff.mp ht
    obtain ⟨notes, t, rest, rfl, hnotes, rfl, rfl⟩ := Term.exists_of_eraseAll_eq_cons hts
    obtain ⟨o₁, s₁, h₁, ho₁, hs₁⟩ := ih (t := .term a t) rfl hs
    obtain ⟨c, rfl, -⟩ := Outcome.erase_eq_failed_iff.mp ho₁
    exact ⟨_, s₁, (terms_append_iff hnotes).mpr (.termsFailed h₁), ho₁, hs₁⟩
  | number =>
    obtain ⟨a, t, rfl, -, htn⟩ := Task.erase_eq_term_iff.mp ht
    obtain rfl := Term.erase_eq_number_iff.mp htn
    subst hs
    exact ⟨.done, _, .number, rfl, rfl⟩
  | comment =>
    obtain ⟨a, t, rfl, -, htc⟩ := Task.erase_eq_term_iff.mp ht
    obtain rfl := Term.erase_eq_comment_iff.mp htc
    exact ⟨.done, s, .comment, rfl, hs⟩
  | block _ ih =>
    obtain ⟨a, t, rfl, -, htb⟩ := Task.erase_eq_term_iff.mp ht
    obtain ⟨body, rfl, rfl⟩ := Term.erase_eq_block_iff.mp htb
    subst hs
    obtain ⟨o, s', h, ho, hs'⟩ := ih (t := .statements body) rfl (s.erase_extend _)
    rw [State.fresh_erase] at h
    exact ⟨o, s', .block h, ho, hs'⟩
  | value hv =>
    obtain ⟨a, rfl, -⟩ := Task.erase_eq_identifier_iff.mp ht
    subst hs
    exact ⟨.done, _, .value (Scopes.get?_erase_eq_value_iff.mp hv), rfl, rfl⟩
  | guest hc _ ih =>
    obtain ⟨a, rfl, -⟩ := Task.erase_eq_identifier_iff.mp ht
    subst hs
    obtain ⟨c, hc₀, rfl⟩ := Scopes.get?_erase_eq_guest_iff.mp hc
    obtain ⟨o, s', h, ho, hs'⟩ := ih (t := .statements c.body) rfl (s.erase_extend _)
    rw [State.fresh_erase] at h
    exact ⟨o, s', .guest hc₀ h, ho, hs'⟩
  | host hc hlen hstack hrun =>
    obtain ⟨a, rfl, -⟩ := Task.erase_eq_identifier_iff.mp ht
    subst hs
    exact ⟨.done, _, .host (Scopes.get?_erase_eq_host_iff.mp hc) hlen hstack hrun, rfl, rfl⟩
  | unbound hn =>
    obtain ⟨a, rfl, rfl⟩ := Task.erase_eq_identifier_iff.mp ht
    subst hs
    exact ⟨_, s, .unbound (Scopes.get?_erase_eq_none_iff.mp hn), rfl, rfl⟩
  | hostUnderflow hc hlt =>
    obtain ⟨a, rfl, rfl⟩ := Task.erase_eq_identifier_iff.mp ht
    subst hs
    exact ⟨_, s, .hostUnderflow (Scopes.get?_erase_eq_host_iff.mp hc) hlt, rfl, rfl⟩
  | hostFailed hc hlen hstack hrun =>
    obtain ⟨a, rfl, rfl⟩ := Task.erase_eq_identifier_iff.mp ht
    subst hs
    exact ⟨_, _, .hostFailed (Scopes.get?_erase_eq_host_iff.mp hc) hlen hstack hrun, rfl, rfl⟩

end Evaluates

namespace Machine

/-- Without its comments, and the comments of the methods it starts with, a program ends exactly
as it does with them: well, or with the same fault at the same statement, with the same stack and
writers, and with the same scopes but for the comments of methods. -/
theorem run_erase_iff (b : Block) (stack : Stack) (e : ScopeId) (world : World) (o' : Outcome)
    (s' : State) :
    (∃ limit, ((start (Block.erase b) stack e world.erase).run limit).ending? = some (o', s')) ↔
      ∃ o s, (∃ limit, ((start b stack e world).run limit).ending? = some (o, s)) ∧
        o.erase = o' ∧ s.erase = s' := by
  simp only [exists_run_iff_ends, ends_start_iff]
  constructor
  · intro h
    exact h.exists_of_erase (t := .statements b) (s := ⟨stack, world⟩) rfl rfl
  · rintro ⟨o, s, h, rfl, rfl⟩
    exact h.erase

end Machine

end Stacklet
