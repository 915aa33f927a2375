import Stacklet.Proofs.Grouping

/-!
How deep lines stand. One pass over the lines tells the depth of each from the lines before it, and
these depths decide everything about grouping: whether it fails and with which error, and, as no
group is empty or follows another group directly, which outline it gives.
-/

namespace Stacklet

namespace Line

/-- The depth after a line, given the one before it. A blank line stays where it is, a comment may
only close levels, and a line with items stands where its indent says. -/
def depthAfter (d : Nat) (l : Line) : Nat :=
  if l.isBlank then d
  else if l.isComment then min d (l.indent / 2)
  else l.indent / 2

/-- A line with items that stands between two levels, or more than one level deeper than what is
before it. -/
def Misindented (d : Nat) (l : Line) : Prop :=
  l.isSubstantial ∧ (l.indent % 2 ≠ 0 ∨ d + 1 < l.indent / 2)

def indentError (d : Nat) (l : Line) : IndentError :=
  if l.indent % 2 ≠ 0 then .odd l.number l.indent
  else .unexpected l.number (l.indent / 2) (d + 1)

theorem depthAfter_blank {l : Line} (h : l.isBlank) (d : Nat) : l.depthAfter d = d := if_pos h

theorem depthAfter_comment {l : Line} (h : l.isComment) (d : Nat) :
    l.depthAfter d = min d (l.indent / 2) := by
  rw [depthAfter, if_neg (by simp [Row.isBlank_of_isComment h]), if_pos h]

theorem depthAfter_substantial {l : Line} (h : l.isSubstantial) (d : Nat) :
    l.depthAfter d = l.indent / 2 := by
  rw [depthAfter, if_neg (by simp [Row.isBlank_of_isSubstantial h]),
    if_neg (by simp [Row.isComment_of_isSubstantial h])]

theorem depthAfter_le {d : Nat} {l : Line} (h : ¬ l.Misindented d) : l.depthAfter d ≤ d + 1 := by
  by_cases hitems : l.isSubstantial
  · rw [depthAfter_substantial hitems]
    have hlevel : ¬ d + 1 < l.indent / 2 := fun hlt => h ⟨hitems, .inr hlt⟩
    omega
  · unfold depthAfter
    split
    · omega
    · rw [if_pos (Row.isComment_of_not ‹_› hitems)]
      omega

/-- The depth after some lines. -/
def depthAfterAll (d : Nat) (ls : List Line) : Nat := ls.foldl depthAfter d

/-- Each line with the depth just after it. -/
def withDepths : Nat → List Line → List (Line × Nat)
  | _, [] => []
  | d, l :: ls => (l, l.depthAfter d) :: withDepths (l.depthAfter d) ls

/-- No line is misindented, given the depth before it. -/
def WellIndented (d : Nat) (ls : List Line) : Prop :=
  ∀ before l after, ls = before ++ l :: after → ¬ l.Misindented (depthAfterAll d before)

theorem wellIndented_nil (d : Nat) : WellIndented d [] := by
  intro before l after h
  simp at h

theorem wellIndented_cons {d : Nat} {l : Line} {ls : List Line} :
    WellIndented d (l :: ls) ↔ ¬ l.Misindented d ∧ WellIndented (l.depthAfter d) ls := by
  constructor
  · intro h
    refine ⟨h [] l ls rfl, ?_⟩
    rintro before m after rfl
    exact h (l :: before) m after rfl
  · rintro ⟨hl, hls⟩ before m after h
    cases before with
    | nil =>
      obtain ⟨rfl, -⟩ := List.cons.inj h
      exact hl
    | cons b before =>
      obtain ⟨rfl, hrest⟩ := List.cons.inj h
      exact hls before m after hrest

end Line

/-! Where the lines of an outline stand. -/

mutual

/-- The lines of an entry in order, each with the level it stands at. -/
def Entry.levels (level : Nat) : Entry → List (Line × Nat)
  | .line l => [(l, level)]
  | .group entries => Outline.levels (level + 1) entries

def Outline.levels (level : Nat) : List Entry → List (Line × Nat)
  | [] => []
  | e :: entries => e.levels level ++ Outline.levels level entries

end

def Entry.isLine : Entry → Bool
  | .line _ => true
  | .group _ => false

/-- Two entries that are not both groups. -/
def Entry.Apart (e f : Entry) : Prop := e.isLine ∨ f.isLine

/-- No group in the entry, itself included, is empty or has a group in it directly after another. -/
inductive Entry.Compact : Entry → Prop where
  | line (l : Line) : Compact (.line l)
  | group {entries : List Entry} :
      entries ≠ [] → entries.IsChain Entry.Apart → (∀ e ∈ entries, Compact e) →
        Compact (.group entries)

namespace Outline

def Compact (o : Outline) : Prop := o.IsChain Entry.Apart ∧ ∀ e ∈ o, e.Compact

theorem levels_append (level : Nat) (es fs : List Entry) :
    Outline.levels level (es ++ fs) = Outline.levels level es ++ Outline.levels level fs := by
  induction es with
  | nil => rfl
  | cons e es ih => rw [List.cons_append, Outline.levels, Outline.levels, ih, List.append_assoc]

theorem Compact.tail {e : Entry} {es : List Entry} (h : Compact (e :: es)) : Compact es :=
  ⟨h.1.tail, fun f hf => h.2 f (List.mem_cons_of_mem _ hf)⟩

theorem Compact.group {es fs : List Entry} (h : Compact (.group es :: fs)) :
    es ≠ [] ∧ Compact es := by
  obtain _ | ⟨hne, hchain, hall⟩ := h.2 (.group es) (List.mem_cons_self ..)
  exact ⟨hne, hchain, hall⟩

end Outline

theorem Entry.Compact.levels_ne_nil {e : Entry} (h : e.Compact) (level : Nat) :
    e.levels level ≠ [] := by
  induction h generalizing level with
  | line l => simp [Entry.levels]
  | @group entries hne _ _ ih =>
    obtain ⟨e, rest, rfl⟩ := List.exists_cons_of_ne_nil hne
    rw [Entry.levels, Outline.levels]
    exact List.append_ne_nil_of_left_ne_nil (ih e (List.mem_cons_self ..) _) _

mutual

theorem Entry.le_of_mem_levels {level : Nat} {p : Line × Nat} :
    (e : Entry) → p ∈ e.levels level → level ≤ p.2
  | .line l, h => by
    rw [Entry.levels, List.mem_singleton] at h
    rw [h]
  | .group entries, h => Nat.le_of_succ_le (Outline.le_of_mem_levels entries h)

theorem Outline.le_of_mem_levels {level : Nat} {p : Line × Nat} :
    (es : List Entry) → p ∈ Outline.levels level es → level ≤ p.2
  | [], h => by simp [Outline.levels] at h
  | e :: es, h => by
    rcases List.mem_append.mp h with h | h
    · exact Entry.le_of_mem_levels e h
    · exact Outline.le_of_mem_levels es h

end

namespace Outline

/-- After a group the next line stands outside of it, so the group ends where the levels fall. -/
theorem levels_split {es fs : List Entry} (h : Compact (.group es :: fs)) (level : Nat) :
    (Outline.levels level (.group es :: fs)).takeWhile (level < ·.2) =
        Outline.levels (level + 1) es ∧
      (Outline.levels level (.group es :: fs)).dropWhile (level < ·.2) =
        Outline.levels level fs := by
  have hdeep : ∀ p ∈ Outline.levels (level + 1) es, decide (level < p.2) := by
    intro p hp
    exact decide_eq_true (Outline.le_of_mem_levels es hp)
  rw [Outline.levels, Entry.levels, List.takeWhile_append_of_pos hdeep,
    List.dropWhile_append_of_pos hdeep]
  cases fs with
  | nil => simp [Outline.levels]
  | cons f fs =>
    cases f with
    | line l => simp [Outline.levels, Entry.levels]
    -- With two groups side by side, their levels would not tell where one ends.
    | group es' =>
      have hapart : Entry.Apart (.group es) (.group es') := h.1.rel
      simp [Entry.Apart, Entry.isLine] at hapart

theorem levels_line_ne_group {level : Nat} {l : Line} {es fs gs : List Entry}
    (h : Compact (.group gs :: fs)) :
    Outline.levels level (.line l :: es) ≠ Outline.levels level (.group gs :: fs) := by
  intro heq
  have hsplit := (levels_split h level).1
  rw [← heq] at hsplit
  have hne := (h.2 (.group gs) (List.mem_cons_self ..)).levels_ne_nil level
  rw [Entry.levels, ← hsplit] at hne
  simp [Outline.levels, Entry.levels] at hne

/-- A compact outline is known from its lines and their levels. -/
theorem levels_injective (level : Nat) : (o o' : Outline) → Compact o → Compact o' →
    Outline.levels level o = Outline.levels level o' → o = o'
  | [], [], _, _, _ => rfl
  | [], e :: es, _, h', heq => by
    have hne := (h'.2 e (List.mem_cons_self ..)).levels_ne_nil level
    rw [Outline.levels, Outline.levels] at heq
    exact absurd (List.append_eq_nil_iff.mp heq.symm).1 hne
  | e :: es, [], h, _, heq => by
    have hne := (h.2 e (List.mem_cons_self ..)).levels_ne_nil level
    rw [Outline.levels, Outline.levels] at heq
    exact absurd (List.append_eq_nil_iff.mp heq).1 hne
  | .line l :: es, .line l' :: es', h, h', heq => by
    simp only [Outline.levels, Entry.levels, List.singleton_append, List.cons.injEq,
      Prod.mk.injEq, and_true] at heq
    rw [heq.1, levels_injective level es es' h.tail h'.tail heq.2]
  | .line _ :: _, .group _ :: _, _, h', heq => absurd heq (levels_line_ne_group h')
  | .group _ :: _, .line _ :: _, h, _, heq => absurd heq.symm (levels_line_ne_group h)
  | .group es :: fs, .group es' :: fs', h, h', heq => by
    obtain ⟨htake, hdrop⟩ := levels_split h level
    obtain ⟨htake', hdrop'⟩ := levels_split h' level
    rw [heq, htake'] at htake
    rw [heq, hdrop'] at hdrop
    rw [levels_injective (level + 1) es es' h.group.2 h'.group.2 htake.symm,
      levels_injective level fs fs' h.tail h'.tail hdrop.symm]
termination_by o => sizeOf o

namespace Groups

/-! What placing a line does. -/

theorem add_of_isSubstantial {g : Groups} {l : Line} (h : l.isSubstantial) :
    g.add l =
      if l.indent % 2 ≠ 0 then .error (.odd l.number l.indent)
      else if g.depth + 1 < l.indent / 2 then
        .error (.unexpected l.number (l.indent / 2) (g.depth + 1))
      else .ok (g.place (l.indent / 2) l) := by
  have hblank : ¬ l.isBlank := by simp [Row.isBlank_of_isSubstantial h]
  have hcomment : ¬ l.isComment := by simp [Row.isComment_of_isSubstantial h]
  rw [add, if_neg hblank, if_neg hcomment]

/-- Where a line without items goes. -/
def settle (g : Groups) (l : Line) : Groups :=
  if l.isBlank then g.push (.line l) else g.place (min g.depth (l.indent / 2)) l

theorem add_of_not_isSubstantial {g : Groups} {l : Line} (h : ¬ l.isSubstantial) :
    g.add l = .ok (g.settle l) := by
  unfold add settle
  split
  · rfl
  · rw [if_pos (Row.isComment_of_not ‹_› h)]

theorem add_of_misindented {g : Groups} {l : Line} (h : l.Misindented g.depth) :
    g.add l = .error (l.indentError g.depth) := by
  obtain ⟨hitems, hindent⟩ := h
  rw [add_of_isSubstantial hitems, Line.indentError]
  split
  · rfl
  · rename_i heven
    rw [if_pos (hindent.resolve_left heven)]

/-- Every kind of line is placed at the depth just after it. -/
theorem add_of_not_misindented {g : Groups} {l : Line} (h : ¬ l.Misindented g.depth) :
    g.add l = .ok (g.place (l.depthAfter g.depth) l) := by
  by_cases hitems : l.isSubstantial
  · have heven : ¬ l.indent % 2 ≠ 0 := fun hodd => h ⟨hitems, .inl hodd⟩
    have hlevel : ¬ g.depth + 1 < l.indent / 2 := fun hlt => h ⟨hitems, .inr hlt⟩
    rw [add_of_isSubstantial hitems, if_neg heven, if_neg hlevel,
      Line.depthAfter_substantial hitems]
  · rw [add_of_not_isSubstantial hitems, settle]
    split
    · rename_i hblank
      rw [Line.depthAfter_blank hblank, place_of_le (Nat.le_refl _), closeTo_eq_self rfl]
    · rw [Line.depthAfter_comment (Row.isComment_of_not ‹_› hitems)]

theorem depth_place {g : Groups} {level : Nat} (h : level ≤ g.depth + 1) (l : Line) :
    (g.place level l).depth = level := by
  by_cases hlt : g.depth < level
  · rw [place_of_lt hlt, depth, List.length_cons]
    exact Nat.le_antisymm hlt h
  · have hle : level ≤ g.depth := Nat.not_lt.mp hlt
    rw [place_of_le hle, depth_push, depth_closeTo hle]

/-- The lines of the open groups in order, each with the level it stands at. -/
def levelsFrom (inner : List Entry) : List (List Entry) → List (Line × Nat)
  | [] => Outline.levels 0 inner.reverse
  | parent :: outer => levelsFrom parent outer ++ Outline.levels (outer.length + 1) inner.reverse

def levels (g : Groups) : List (Line × Nat) := levelsFrom g.inner g.outer

theorem levelsFrom_cons (e : Entry) (inner : List Entry) (outer : List (List Entry)) :
    levelsFrom (e :: inner) outer = levelsFrom inner outer ++ e.levels outer.length := by
  cases outer with
  | nil => simp [levelsFrom, Outline.levels_append, Outline.levels]
  | cons parent outer => simp [levelsFrom, Outline.levels_append, Outline.levels]

theorem levels_close (g : Groups) : g.close.levels = g.levels := by
  obtain ⟨inner, outer⟩ := g
  cases outer with
  | nil => rfl
  | cons parent outer => exact levelsFrom_cons (.group inner.reverse) parent outer

theorem levels_closeTo (g : Groups) (level : Nat) : (g.closeTo level).levels = g.levels :=
  closeMany_induction (P := fun g' => g'.levels = g.levels)
    (fun g' hg' => (levels_close g').trans hg') _ rfl

theorem levels_place {g : Groups} {level : Nat} (h : level ≤ g.depth + 1) (l : Line) :
    (g.place level l).levels = g.levels ++ [(l, level)] := by
  by_cases hlt : g.depth < level
  · have hlevel : level = g.outer.length + 1 := Nat.le_antisymm h hlt
    rw [place_of_lt hlt, hlevel]
    simp [levels, levelsFrom, Outline.levels, Entry.levels]
  · have hle : level ≤ g.depth := Nat.not_lt.mp hlt
    have hdepth : (g.closeTo level).outer.length = level := depth_closeTo hle
    calc (g.place level l).levels
        = levelsFrom (.line l :: (g.closeTo level).inner) (g.closeTo level).outer := by
          rw [place_of_le hle]
          rfl
      _ = (g.closeTo level).levels ++ [(l, (g.closeTo level).outer.length)] :=
          levelsFrom_cons ..
      _ = g.levels ++ [(l, level)] := by rw [hdepth, levels_closeTo]

/-! Groups stay compact. -/

/-- Each open group is compact so far, and those that have another open above them ended with a
line when it was opened. -/
def CompactFrom (inner : List Entry) : List (List Entry) → Prop
  | [] => Outline.Compact inner
  | parent :: outer =>
    inner ≠ [] ∧ Outline.Compact inner ∧ (∀ e ∈ parent.head?, e.isLine) ∧ CompactFrom parent outer

theorem CompactFrom.inner {inner : List Entry} {outer : List (List Entry)}
    (h : CompactFrom inner outer) : Outline.Compact inner := by
  cases outer with
  | nil => exact h
  | cons parent outer => exact h.2.1

theorem CompactFrom.cons {e : Entry} {inner : List Entry} {outer : List (List Entry)}
    (h : CompactFrom inner outer) (he : e.Compact) (hapart : ∀ f ∈ inner.head?, e.Apart f) :
    CompactFrom (e :: inner) outer := by
  have hinner : Outline.Compact (e :: inner) :=
    ⟨h.inner.1.cons hapart, List.forall_mem_cons.mpr ⟨he, h.inner.2⟩⟩
  cases outer with
  | nil => exact hinner
  | cons parent outer => exact ⟨List.cons_ne_nil _ _, hinner, h.2.2⟩

theorem compact_reverse {es : List Entry} (h : Outline.Compact es) :
    Outline.Compact es.reverse := by
  refine ⟨List.isChain_reverse.mpr (h.1.imp fun _ _ hapart => hapart.symm), ?_⟩
  intro e he
  exact h.2 e (List.mem_reverse.mp he)

def Compact (g : Groups) : Prop := CompactFrom g.inner g.outer

theorem Compact.close {g : Groups} (h : g.Compact) : g.close.Compact := by
  obtain ⟨inner, outer⟩ := g
  cases outer with
  | nil => exact h
  | cons parent outer =>
    obtain ⟨hne, hinner, hline, hparent⟩ := h
    obtain ⟨hchain, hall⟩ := compact_reverse hinner
    refine CompactFrom.cons hparent (.group (by simpa using hne) hchain hall) ?_
    exact fun f hf => .inr (hline f hf)

/-- The innermost group has a line as its newest entry, unless it is empty. -/
def EndsInLine (g : Groups) : Prop := ∀ e ∈ g.inner.head?, e.isLine

theorem Compact.place {g : Groups} (h : g.Compact) (hline : g.EndsInLine) (level : Nat)
    (l : Line) : (g.place level l).Compact ∧ (g.place level l).EndsInLine := by
  by_cases hlt : g.depth < level
  -- The group that was innermost gets a group after its newest entry, so that must be a line.
  · rw [place_of_lt hlt]
    refine ⟨⟨List.cons_ne_nil _ _, ⟨.singleton _, ?_⟩, hline, h⟩, ?_⟩
    · intro e he
      obtain rfl := List.mem_singleton.mp he
      exact .line l
    · intro e he
      obtain rfl := Option.some.inj he
      rfl
  · rw [place_of_le (Nat.not_lt.mp hlt)]
    have hclosed : (g.closeTo level).Compact :=
      closeMany_induction (P := Groups.Compact) (fun _ => Compact.close) _ h
    refine ⟨CompactFrom.cons hclosed (.line l) fun f _ => .inl rfl, ?_⟩
    intro e he
    obtain rfl := Option.some.inj he
    rfl

end Groups

open Groups

/-! Runs over many lines. -/

theorem foldlM_add_of_wellIndented {ls : List Line} {g : Groups}
    (h : Line.WellIndented g.depth ls) :
    ∃ g', ls.foldlM Groups.add g = .ok g' ∧
      g'.levels = g.levels ++ Line.withDepths g.depth ls ∧
      (g.Compact → g.EndsInLine → g'.Compact) := by
  induction ls generalizing g with
  | nil => exact ⟨g, rfl, by simp [Line.withDepths], fun hg _ => hg⟩
  | cons l ls ih =>
    obtain ⟨hl, hls⟩ := Line.wellIndented_cons.mp h
    have hle : l.depthAfter g.depth ≤ g.depth + 1 := Line.depthAfter_le hl
    have hdepth := depth_place hle l
    rw [← hdepth] at hls
    obtain ⟨g', hfold, hlevels, hcompact⟩ := ih hls
    refine ⟨g', ?_, ?_, ?_⟩
    · rw [List.foldlM_cons, add_of_not_misindented hl]
      exact hfold
    · rw [hlevels, hdepth, levels_place hle, List.append_assoc, List.singleton_append]
      rfl
    · intro hg hline
      obtain ⟨hplaced, hends⟩ := hg.place hline (l.depthAfter g.depth) l
      exact hcompact hplaced hends

/-- The first misindented line is where grouping fails. -/
theorem foldlM_add_of_misindented {before after : List Line} {l : Line} {g : Groups}
    (hbefore : Line.WellIndented g.depth before)
    (h : l.Misindented (Line.depthAfterAll g.depth before)) :
    (before ++ l :: after).foldlM Groups.add g =
      .error (l.indentError (Line.depthAfterAll g.depth before)) := by
  induction before generalizing g with
  | nil =>
    rw [List.nil_append, List.foldlM_cons, add_of_misindented h]
    rfl
  | cons b before ih =>
    -- The depth of the groups is the one that is counted, so both go on from there.
    obtain ⟨hb, hbefore⟩ := Line.wellIndented_cons.mp hbefore
    have hdepth := depth_place (Line.depthAfter_le hb) b
    have hcons : Line.depthAfterAll g.depth (b :: before) =
        Line.depthAfterAll (b.depthAfter g.depth) before := rfl
    rw [hcons] at h ⊢
    rw [← hdepth] at hbefore h ⊢
    rw [List.cons_append, List.foldlM_cons, add_of_not_misindented hb]
    exact ih hbefore h

theorem exists_first_misindented {d : Nat} {ls : List Line} (h : ¬ Line.WellIndented d ls) :
    ∃ before l after, ls = before ++ l :: after ∧ Line.WellIndented d before ∧
      l.Misindented (Line.depthAfterAll d before) := by
  induction ls generalizing d with
  | nil => exact absurd (Line.wellIndented_nil d) h
  | cons l ls ih =>
    by_cases hl : l.Misindented d
    · exact ⟨[], l, ls, rfl, Line.wellIndented_nil d, hl⟩
    · have hls : ¬ Line.WellIndented (l.depthAfter d) ls :=
        fun hls => h (Line.wellIndented_cons.mpr ⟨hl, hls⟩)
      obtain ⟨before, m, after, rfl, hbefore, hm⟩ := ih hls
      exact ⟨l :: before, m, after, rfl, Line.wellIndented_cons.mpr ⟨hl, hbefore⟩, hm⟩

theorem exists_ofLines {ls : List Line} (h : Line.WellIndented 0 ls) :
    ∃ o, Outline.ofLines ls = .ok o ∧ Compact o ∧ Outline.levels 0 o = Line.withDepths 0 ls := by
  obtain ⟨g, hfold, hlevels, hcompact⟩ := foldlM_add_of_wellIndented (g := ⟨[], []⟩) h
  have hg : g.Compact := by
    refine hcompact ⟨.nil, ?_⟩ ?_
    · intro e he
      simp at he
    · intro e he
      simp at he
  have hroot : (g.closeTo 0).outer = [] :=
    List.length_eq_zero_iff.mp (depth_closeTo (Nat.zero_le _))
  have hclosed : (g.closeTo 0).Compact :=
    closeMany_induction (P := Groups.Compact) (fun _ => Compact.close) _ hg
  refine ⟨g.finish, ?_, compact_reverse hclosed.inner, ?_⟩
  · rw [Outline.ofLines, hfold]
    rfl
  · calc Outline.levels 0 g.finish = (g.closeTo 0).levels := by
          rw [Groups.levels, hroot]
          rfl
      _ = g.levels := levels_closeTo g 0
      _ = Line.withDepths 0 ls := hlevels

theorem ofLines_of_misindented {before after : List Line} {l : Line}
    (hbefore : Line.WellIndented 0 before) (h : l.Misindented (Line.depthAfterAll 0 before)) :
    Outline.ofLines (before ++ l :: after) =
      .error (l.indentError (Line.depthAfterAll 0 before)) := by
  rw [Outline.ofLines, foldlM_add_of_misindented (g := ⟨[], []⟩) hbefore h]
  rfl

theorem wellIndented_of_ofLines {ls : List Line} {o : Outline} (h : Outline.ofLines ls = .ok o) :
    Line.WellIndented 0 ls := by
  by_contra hbad
  obtain ⟨before, l, after, rfl, hbefore, hl⟩ := exists_first_misindented hbad
  rw [ofLines_of_misindented hbefore hl] at h
  cases h

/-- What grouping gives is known from the lines and their depths. -/
theorem ofLines_eq_ok_iff {ls : List Line} {o : Outline} :
    Outline.ofLines ls = .ok o ↔
      Line.WellIndented 0 ls ∧ Compact o ∧ Outline.levels 0 o = Line.withDepths 0 ls := by
  constructor
  · intro h
    have hwell := wellIndented_of_ofLines h
    obtain ⟨o', ho', hcompact, hlevels⟩ := exists_ofLines hwell
    obtain rfl := Except.ok.inj (h.symm.trans ho')
    exact ⟨hwell, hcompact, hlevels⟩
  · rintro ⟨hwell, hcompact, hlevels⟩
    obtain ⟨o', ho', hcompact', hlevels'⟩ := exists_ofLines hwell
    rw [ho', levels_injective 0 o' o hcompact' hcompact (hlevels'.trans hlevels.symm)]

/-! Grouping with delay. -/

/-- Open groups, and lines without items that wait for their place, oldest first. -/
structure Delayed where
  groups : Groups
  waiting : List Line

namespace Delayed

/-- Gives the waiting lines their places. -/
def flush (d : Delayed) : Groups := d.waiting.foldl Groups.settle d.groups

/-- Only a line with items shows where the lines that wait belong. Its own level is compared with
what they have left open. -/
def add (d : Delayed) (l : Line) : Except IndentError Delayed :=
  if l.isSubstantial then
    if l.indent % 2 ≠ 0 then .error (.odd l.number l.indent)
    else if d.flush.depth + 1 < l.indent / 2 then
      .error (.unexpected l.number (l.indent / 2) (d.flush.depth + 1))
    else .ok ⟨d.flush.place (l.indent / 2) l, []⟩
  else .ok { d with waiting := d.waiting ++ [l] }

def ofLines (ls : List Line) : Except IndentError Outline :=
  (ls.foldlM add ⟨⟨[], []⟩, []⟩).map fun d => d.flush.finish

theorem map_flush_add (d : Delayed) (l : Line) : (d.add l).map flush = d.flush.add l := by
  by_cases hitems : l.isSubstantial
  · rw [add, if_pos hitems, add_of_isSubstantial hitems]
    split
    · rfl
    · split
      · rfl
      · rfl
  · rw [add, if_neg hitems, add_of_not_isSubstantial hitems]
    simp [Except.map, flush]

theorem map_flush_foldlM (ls : List Line) (d : Delayed) :
    (ls.foldlM add d).map flush = ls.foldlM Groups.add d.flush := by
  induction ls generalizing d with
  | nil => rfl
  | cons l ls ih =>
    rw [List.foldlM_cons, List.foldlM_cons, ← map_flush_add]
    cases d.add l with
    | error e => rfl
    | ok d' => exact ih d'

/-- Delay changes nothing. -/
theorem ofLines_eq (ls : List Line) : Delayed.ofLines ls = Outline.ofLines ls := by
  have hfold := map_flush_foldlM ls ⟨⟨[], []⟩, []⟩
  rw [Outline.ofLines, Delayed.ofLines]
  change _ = (ls.foldlM Groups.add (flush ⟨⟨[], []⟩, []⟩)).map Groups.finish
  rw [← hfold]
  cases ls.foldlM add ⟨⟨[], []⟩, []⟩ with
  | error e => rfl
  | ok d => rfl

end Delayed

/-- Grouping follows depths. It fails if and only if a line is misindented, with the error of the
first such line. Otherwise it gives the one compact outline whose lines are the given ones in order,
each at the depth just after it. And nothing changes if lines without items wait for their places
until the next line with items. -/
theorem ofLines_follows_depths (ls : List Line) :
    ((∃ e, Outline.ofLines ls = .error e) ↔
      ∃ before l after, ls = before ++ l :: after ∧
        l.Misindented (Line.depthAfterAll 0 before)) ∧
    (∀ e, Outline.ofLines ls = .error e ↔
      ∃ before l after, ls = before ++ l :: after ∧ Line.WellIndented 0 before ∧
        l.Misindented (Line.depthAfterAll 0 before) ∧
        e = l.indentError (Line.depthAfterAll 0 before)) ∧
    (∀ o, Outline.ofLines ls = .ok o ↔
      Line.WellIndented 0 ls ∧ Compact o ∧ Outline.lines o = ls ∧
        Outline.levels 0 o = Line.withDepths 0 ls) ∧
    Delayed.ofLines ls = Outline.ofLines ls := by
  have hok (h : Line.WellIndented 0 ls) (e : IndentError) : Outline.ofLines ls ≠ .error e := by
    obtain ⟨o, ho, -⟩ := exists_ofLines h
    rw [ho]
    exact fun he => nomatch he
  refine ⟨⟨?_, ?_⟩, fun e => ⟨?_, ?_⟩, fun o => ⟨?_, ?_⟩, Delayed.ofLines_eq ls⟩
  · rintro ⟨e, he⟩
    obtain ⟨before, l, after, hls, -, hl⟩ := exists_first_misindented fun h => hok h e he
    exact ⟨before, l, after, hls, hl⟩
  · rintro ⟨before, l, after, hls, hl⟩
    cases ho : Outline.ofLines ls with
    | ok o => exact absurd hl (wellIndented_of_ofLines ho before l after hls)
    | error e => exact ⟨e, rfl⟩
  · intro he
    obtain ⟨before, l, after, rfl, hbefore, hl⟩ := exists_first_misindented fun h => hok h e he
    rw [ofLines_of_misindented hbefore hl] at he
    exact ⟨before, l, after, rfl, hbefore, hl, (Except.error.inj he).symm⟩
  · rintro ⟨before, l, after, rfl, hbefore, hl, rfl⟩
    exact ofLines_of_misindented hbefore hl
  · intro ho
    obtain ⟨hwell, hcompact, hlevels⟩ := ofLines_eq_ok_iff.mp ho
    exact ⟨hwell, hcompact, (ofLines_eq_ok ho).1, hlevels⟩
  · rintro ⟨hwell, hcompact, -, hlevels⟩
    exact ofLines_eq_ok_iff.mpr ⟨hwell, hcompact, hlevels⟩

end Outline

end Stacklet
