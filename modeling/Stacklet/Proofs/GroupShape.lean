import Mathlib.Data.List.Chain
import Stacklet.Proofs.Depth

/-!
The shape of outlines. Grouping gives an outline whose nested groups all start with a line that has
items and stands at their depth, and in which a line separates any two groups side by side. What is
true of a whole outline carries over to the groups nested in it, so each part is shown at once for
all of them.
-/

namespace Stacklet

namespace Outline

/-- The groups nested in an outline and how deep they are. The outline itself is at depth zero. -/
inductive NestedAt (o : Outline) : Nat → Outline → Prop where
  | root : NestedAt o 0 o
  | group {k : Nat} {es fs : List Entry} :
      NestedAt o k es → .group fs ∈ es → NestedAt o (k + 1) fs

namespace NestedAt

variable {o : Outline} {k : Nat} {es : List Entry}

theorem headed (h : o.NestedAt k es) (ho : Headed o) : Headed es := by
  induction h with
  | root => exact ho
  | group _ hfs ih => exact (headed_iff.mp ih _ hfs).2

theorem starts (h : o.NestedAt k es) (ho : Headed o) (hk : k ≠ 0) : Starts es := by
  cases h with
  | root => exact absurd rfl hk
  | group hes hfs => exact (headed_iff.mp (hes.headed ho) _ hfs).1

theorem indented (h : o.NestedAt k es) (ho : Indented 0 o) : Indented k es := by
  induction h with
  | root => exact ho
  | group _ hfs ih => exact indented_iff.mp ih _ hfs

theorem compact (h : o.NestedAt k es) (ho : Compact o) : Compact es := by
  induction h with
  | root => exact ho
  | group _ hfs ih =>
    obtain _ | ⟨-, hchain, hall⟩ := ih.2 _ hfs
    exact ⟨hchain, hall⟩

end NestedAt

theorem Compact.not_adjacent {es : List Entry} (h : Compact es) (before fs gs after : List Entry) :
    es ≠ before ++ .group fs :: .group gs :: after := by
  rintro rfl
  have hapart : Entry.Apart (.group fs) (.group gs) := (List.isChain_append_cons_cons.mp h.1).2.1
  simp [Entry.Apart, Entry.isLine] at hapart

/-- The shape that grouping gives. The lines are kept in order, and those with items are in a group
as deep as their indent says. Each nested group starts with such a line, no group follows another
directly, and only the outline itself may start with a group. -/
theorem ofLines_shapes_groups {ls : List Line} {o : Outline} (h : Outline.ofLines ls = .ok o) :
    (Outline.lines o = ls ∧ ∀ k es, o.NestedAt k es →
      ∀ l, .line l ∈ es → l.isSubstantial → l.indent = 2 * k) ∧
    (∀ k es, 1 ≤ k → o.NestedAt k es →
      ∃ l rest, es = .line l :: rest ∧ l.isSubstantial ∧ l.indent = 2 * k) ∧
    (∀ k es, o.NestedAt k es →
      ∀ before fs gs after, es ≠ before ++ .group fs :: .group gs :: after) ∧
    ∀ k fs rest, o.NestedAt k (.group fs :: rest) → k = 0 := by
  obtain ⟨hlines, hheaded⟩ := ofLines_eq_ok h
  obtain ⟨-, hcompact, -⟩ := ofLines_eq_ok_iff.mp h
  have hindent : ∀ k es, o.NestedAt k es →
      ∀ l, .line l ∈ es → l.isSubstantial → l.indent = 2 * k :=
    fun _ _ hes _ hl => indented_iff.mp (hes.indented (indented_of_ofLines h)) _ hl
  refine ⟨⟨hlines, hindent⟩, ?_, ?_, ?_⟩
  · intro k es hk hes
    obtain ⟨l, rest, rfl, hitems⟩ := hes.starts hheaded (Nat.ne_zero_of_lt hk)
    exact ⟨l, rest, rfl, hitems, hindent _ _ hes l (List.mem_cons_self ..) hitems⟩
  · intro k es hes
    exact (hes.compact hcompact).not_adjacent
  · intro k fs rest hes
    by_contra hk
    obtain ⟨l, rest', heq, -⟩ := hes.starts hheaded hk
    cases heq

/-- An outline that starts with a group. The deep comment opens no group of its own, and the one at
the margin stands between two. -/
def deepStart : Outline :=
  [.group [.line ⟨⟨2, [.atom (.identifier "a")], none⟩, 1⟩, .line ⟨⟨8, [], some "deep"⟩, 2⟩,
      .group [.line ⟨⟨4, [.atom (.identifier "b")], none⟩, 3⟩, .line ⟨⟨6, [], none⟩, 4⟩]],
    .line ⟨⟨0, [], some "margin"⟩, 5⟩,
    .group [.line ⟨⟨2, [.atom (.identifier "c")], none⟩, 6⟩]]

theorem deepStart_shaped :
    Outline.ofLines (Outline.lines deepStart) = .ok deepStart ∧
      (∃ es, deepStart.NestedAt 2 es ∧
        ∃ l rest, es = .line l :: rest ∧ l.isSubstantial ∧ l.indent = 2 * 2) ∧
      (∀ before fs gs after, deepStart ≠ before ++ .group fs :: .group gs :: after) ∧
      ∀ k fs rest, deepStart.NestedAt k (.group fs :: rest) → k = 0 := by
  have hgroup : Outline.ofLines (Outline.lines deepStart) = .ok deepStart := by decide
  obtain ⟨-, hfirst, hapart, hroot⟩ := ofLines_shapes_groups hgroup
  have hdeep : deepStart.NestedAt 2
      [.line ⟨⟨4, [.atom (.identifier "b")], none⟩, 3⟩, .line ⟨⟨6, [], none⟩, 4⟩] :=
    .group (.group .root (List.mem_cons_self ..)) (by simp)
  exact ⟨hgroup, ⟨_, hdeep, hfirst 2 _ (by decide) hdeep⟩, hapart 0 deepStart .root, hroot⟩

end Outline

end Stacklet
