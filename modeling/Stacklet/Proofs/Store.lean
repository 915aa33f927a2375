import Mathlib.Data.List.Basic
import Stacklet.Scope
import Stacklet.Stack

/-!
Laws of the stack and of scopes. A pop takes values off the top or nothing at all, a new scope
disturbs no other, and binding a name changes that name in that scope only.
-/

namespace Stacklet

namespace Stack

theorem take?_eq_some_iff {n : Nat} {taken values vs : List Value} {s : Stack} :
    take? n taken values = some (vs, s) ↔
      ∃ us : List Value, us.length = n ∧ values = us ++ s.values ∧ vs = us.reverse ++ taken := by
  induction n generalizing taken values with
  | zero =>
    constructor
    · intro h
      cases h
      exact ⟨[], rfl, rfl, rfl⟩
    · rintro ⟨us, hlen, rfl, rfl⟩
      rw [List.eq_nil_of_length_eq_zero hlen]
      rfl
  | succ n ih =>
    cases values with
    | nil =>
      constructor
      · intro h
        cases h
      · rintro ⟨us, hlen, happ, -⟩
        rw [(List.append_eq_nil_iff.mp happ.symm).1] at hlen
        cases hlen
    | cons v values =>
      rw [take?, ih]
      constructor
      · rintro ⟨us, hlen, rfl, rfl⟩
        exact ⟨v :: us, by simp [hlen], rfl, by simp⟩
      · rintro ⟨us, hlen, happ, rfl⟩
        obtain ⟨u, us, rfl⟩ := List.exists_cons_of_length_eq_add_one hlen
        obtain ⟨rfl, rfl⟩ := List.cons.inj happ
        exact ⟨us, by simpa using hlen, rfl, by simp⟩

/-- The popped values stood on top, the last of them topmost. -/
theorem pop?_eq_some_iff {s s' : Stack} {n : Nat} {vs : List Value} :
    s.pop? n = some (vs, s') ↔ vs.length = n ∧ s.values = vs.reverse ++ s'.values := by
  rw [pop?, take?_eq_some_iff]
  constructor
  · rintro ⟨us, hlen, hs, rfl⟩
    exact ⟨by simpa using hlen, by simpa using hs⟩
  · rintro ⟨hlen, hs⟩
    exact ⟨vs.reverse, by simpa using hlen, hs, by simp⟩

theorem pop?_eq_none_iff {s : Stack} {n : Nat} : s.pop? n = none ↔ s.size < n := by
  constructor
  · intro h
    by_contra hn
    have hlen : (s.values.take n).length = n := by
      rw [List.length_take]
      exact Nat.min_eq_left (Nat.not_lt.mp hn)
    have hs : s.pop? n = some ((s.values.take n).reverse, ⟨s.values.drop n⟩) :=
      pop?_eq_some_iff.mpr ⟨by simpa using hlen, by simp⟩
    rw [h] at hs
    cases hs
  · intro hn
    rw [Option.eq_none_iff_forall_not_mem]
    rintro ⟨vs, s'⟩ h
    obtain ⟨hlen, hs⟩ := pop?_eq_some_iff.mp h
    have hsize := congrArg List.length hs
    rw [List.length_append, List.length_reverse, hlen] at hsize
    unfold size at hn
    omega

/-- Either there are enough values to pop, or there is an underflow. -/
theorem pop_or_underflow (s : Stack) (n : Nat) :
    (∃ vs below : List Value, vs.length = n ∧ s.values = vs.reverse ++ below) ∨ s.size < n := by
  cases hp : s.pop? n with
  | none => exact .inr (pop?_eq_none_iff.mp hp)
  | some popped =>
    obtain ⟨hlen, hstack⟩ := pop?_eq_some_iff.mp hp
    exact .inl ⟨popped.1, popped.2.values, hlen, hstack⟩

theorem values_pushAll (s : Stack) (vs : List Value) :
    (s.pushAll vs).values = vs.reverse ++ s.values := by
  induction vs generalizing s with
  | nil => rfl
  | cons v vs ih =>
    rw [pushAll, List.foldl_cons]
    exact (ih (s.push v)).trans (by simp [push])

end Stack

theorem Scope.get?_bind (s : Scope) (name x : String) (b : Binding) :
    (s.bind name b).get? x = if x = name then some b else s.get? x := by
  have hrest : x ≠ name → (s.bindings.filter (·.1 ≠ name)).lookup x = s.bindings.lookup x := by
    intro hx
    induction s.bindings with
    | nil => rfl
    | cons entry entries ih =>
      by_cases hn : entry.1 = name
      · have hxe : (x == entry.1) = false := by simpa [hn] using hx
        rw [List.filter_cons_of_neg (by simpa using hn), ih, List.lookup_cons, hxe]
      · rw [List.filter_cons_of_pos (by simpa using hn), List.lookup_cons, List.lookup_cons, ih]
  by_cases hx : x = name
  · simp [bind, get?, hx]
  · have hxe : (x == name) = false := by simpa using hx
    rw [if_neg hx]
    simp only [bind, get?, List.lookup_cons, hxe]
    exact hrest hx

namespace Scopes

variable (h : Scopes) (e e' : ScopeId) (name x : String) (b : Binding)

@[simp] theorem size_extend : (h.extend e).2.all.size = h.all.size + 1 := by
  simp [extend, add]

/-- A new scope binds nothing. -/
theorem local?_add (parent : Option ScopeId) :
    (h.add parent).2.local? e' x = h.local? e' x := by
  simp only [add, local?, Array.getElem?_push]
  split
  · rename_i he
    subst he
    simp [Scope.get?]
  · rfl

@[simp] theorem local?_extend : (h.extend e).2.local? e' x = h.local? e' x :=
  h.local?_add e' x (some e)

theorem parent?_add (parent : Option ScopeId) :
    (h.add parent).2.parent? e' = if e' = h.all.size then parent else h.parent? e' := by
  simp only [add, parent?, Array.getElem?_push]
  split <;> rfl

theorem parent?_extend :
    (h.extend e).2.parent? e' = if e' = h.all.size then some e else h.parent? e' :=
  h.parent?_add e' (some e)

theorem lt_size_of_parent? {h : Scopes} {e p : ScopeId} (hp : h.parent? e = some p) :
    e < h.all.size := by
  by_contra hlt
  rw [parent?, Array.getElem?_eq_none (Nat.not_lt.mp hlt)] at hp
  cases hp

theorem get?_of_local? {h : Scopes} {e : ScopeId} {x : String} {b : Binding}
    (hb : h.local? e x = some b) : h.get? e x = some b := by
  rw [get?, hb]

theorem get?_of_parent? {h : Scopes} {e p : ScopeId} {x : String} (hx : h.local? e x = none)
    (hp : h.parent? e = some p) (hlt : p < e) : h.get? e x = h.get? p x := by
  rw [get?, hx, hp]
  exact if_pos hlt

@[simp] theorem size_bind : (h.bind e name b).all.size = h.all.size := by
  simp [bind]

@[simp] theorem parent?_bind : (h.bind e name b).parent? e' = h.parent? e' := by
  simp only [bind, parent?, Array.getElem?_modify]
  split
  · rename_i he
    subst he
    cases h.all[e]? <;> rfl
  · rfl

theorem local?_bind :
    (h.bind e name b).local? e' x =
      if e' = e ∧ x = name ∧ e < h.all.size then some b else h.local? e' x := by
  simp only [bind, local?, Array.getElem?_modify]
  by_cases he : e = e'
  · subst he
    by_cases hlt : e < h.all.size
    · simp [hlt, Scope.get?_bind]
    · simp [hlt]
  · simp [he, Ne.symm he]

theorem bindAll_cons (v : Value) (names : List String) (values : List Value) :
    h.bindAll e (name :: names) (v :: values) =
      (h.bind e name (.value v)).bindAll e names values := rfl

@[simp] theorem size_bindAll (names : List String) (values : List Value) :
    (h.bindAll e names values).all.size = h.all.size := by
  induction names generalizing h values with
  | nil => rfl
  | cons name names ih =>
    cases values with
    | nil => rfl
    | cons v values => rw [bindAll_cons, ih, size_bind]

@[simp] theorem parent?_bindAll (names : List String) (values : List Value) :
    (h.bindAll e names values).parent? e' = h.parent? e' := by
  induction names generalizing h values with
  | nil => rfl
  | cons name names ih =>
    cases values with
    | nil => rfl
    | cons v values => rw [bindAll_cons, ih, parent?_bind]

theorem bindAll_concat {names : List String} {values : List Value} (v : Value)
    (hlen : values.length = names.length) :
    h.bindAll e (names ++ [name]) (values ++ [v]) =
      (h.bindAll e names values).bind e name (.value v) := by
  simp [bindAll, List.zip_append hlen.symm]

/-- What each name has after names are bound together: in that scope the value at the last of its
places among them, so that the last name has the newest value. -/
theorem local?_bindAll (names : List String) (values : List Value) :
    (h.bindAll e names values).local? e' x =
      if e' = e ∧ e < h.all.size then
        (((names.zip values).reverse.lookup x).map .value).or (h.local? e' x)
      else h.local? e' x := by
  induction names generalizing h values with
  | nil => simp [bindAll]
  | cons name names ih =>
    cases values with
    | nil => simp [bindAll]
    | cons v values =>
      rw [bindAll_cons, ih, size_bind, local?_bind, List.zip_cons_cons, List.reverse_cons,
        List.lookup_append]
      split
      · rename_i he
        -- The first place of the list is the last of the reversed one: a later one is found before.
        cases (names.zip values).reverse.lookup x with
        | some w => rfl
        | none =>
          by_cases hx : x = name
          · simp [hx, he]
          · have hne : (x == name) = false := beq_false_of_ne hx
            simp [hx, hne, List.lookup_cons]
      · rename_i he
        rw [if_neg fun hb => he ⟨hb.1, hb.2.2⟩]

/-- What names bound together change: one of the names, in that scope, to a value. -/
theorem local?_bindAll_or (names : List String) (values : List Value) :
    (h.bindAll e names values).local? e' x = h.local? e' x ∨
      e' = e ∧ x ∈ names ∧ ∃ v, (h.bindAll e names values).local? e' x = some (.value v) := by
  rw [local?_bindAll]
  split
  · rename_i he
    cases hv : (names.zip values).reverse.lookup x with
    | none => exact .inl rfl
    | some v =>
      obtain ⟨before, after, hzip, -⟩ := List.lookup_eq_some_iff.mp hv
      have hmem : (x, v) ∈ names.zip values := by
        rw [← List.mem_reverse, hzip]
        simp
      exact .inr ⟨he.1, (List.of_mem_zip hmem).1, v, rfl⟩
  · exact .inl rfl

end Scopes

end Stacklet
