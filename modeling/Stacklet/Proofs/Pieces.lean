import Stacklet.Proofs.Depth
import Stacklet.Proofs.Grammar
import Stacklet.Proofs.Regrouping

/-!
Programs read in pieces. If a piece ends with its last line and the next one starts at the margin,
then nothing of the first waits for what comes: both read together are both read apart, one after
the other.
-/

namespace Stacklet

open Text

/-! Texts. -/

namespace Text

theorem linesFrom_append_of_newline (line cs rest : List Char) :
    linesFrom line (cs ++ '\n' :: rest) = linesFrom line (cs ++ ['\n']) ++ linesFrom [] rest := by
  induction cs generalizing line with
  | nil => simp [linesFrom]
  | cons c cs ih =>
    simp only [List.cons_append, linesFrom, ih]
    split
    · rfl
    · rfl

/-- Whether a text may be followed by another without joining two lines into one. -/
def EndsLine (s : String) : Prop := s = "" ∨ s.toList.getLast? = some '\n'

theorem lines_append {s : String} (h : EndsLine s) (t : String) :
    lines (s ++ t) = lines s ++ lines t := by
  rcases h with rfl | h
  · rw [String.empty_append]
    rfl
  · obtain ⟨cs, hcs⟩ := List.getLast?_eq_some_iff.mp h
    rw [lines, lines, lines, String.toList_append, hcs, List.append_assoc, List.singleton_append,
      linesFrom_append_of_newline, List.map_append]

end Text

/-! Lines. -/

namespace Line

/-- The line with its number counted from another start. -/
def shift (k : Nat) (l : Line) : Line := { l with number := l.number + k }

theorem keepsPlace_shift (k : Nat) : KeepsPlace (shift k) :=
  ⟨fun _ => rfl, fun _ => rfl, fun _ => rfl⟩

theorem readFrom_shift {number : Nat} {texts : List String} {ls : List Line}
    (h : readFrom number texts = .ok ls) (k : Nat) :
    readFrom (number + k) texts = .ok (ls.map (shift k)) := by
  induction texts generalizing number ls with
  | nil =>
    cases h
    rfl
  | cons text texts ih =>
    rw [readFrom, Except.bind_eq_ok_iff] at h
    obtain ⟨l, hl, h⟩ := h
    obtain ⟨rest, hrest, h⟩ := Except.bind_eq_ok_iff.mp h
    cases h
    have hfirst : read (number + k) text = .ok (l.shift k) := by
      rw [read_renumber hl (number + k), shift, number_of_read hl]
    rw [readFrom, hfirst, Nat.add_right_comm, ih hrest]
    rfl

theorem readFrom_append {number : Nat} {texts texts' : List String} {ls ms : List Line}
    (hls : readFrom number texts = .ok ls)
    (hms : readFrom (number + texts.length) texts' = .ok ms) :
    readFrom number (texts ++ texts') = .ok (ls ++ ms) := by
  induction texts generalizing number ls with
  | nil =>
    cases hls
    exact hms
  | cons text texts ih =>
    rw [readFrom, Except.bind_eq_ok_iff] at hls
    obtain ⟨l, hl, h⟩ := hls
    obtain ⟨rest, hrest, h⟩ := Except.bind_eq_ok_iff.mp h
    cases h
    rw [List.length_cons, Nat.add_comm texts.length, ← Nat.add_assoc] at hms
    rw [List.cons_append, readFrom, hl, List.cons_append]
    show (readFrom (number + 1) (texts ++ texts') >>= _) = _
    rw [ih hrest hms]
    rfl

theorem readAll_append {s t : String} (hs : EndsLine s) {ls ms : List Line}
    (hls : readAll s = .ok ls) (hms : readAll t = .ok ms) :
    ∃ k, readAll (s ++ t) = .ok (ls ++ ms.map (shift k)) := by
  refine ⟨(lines s).length, ?_⟩
  rw [readAll, lines_append hs]
  exact readFrom_append hls (readFrom_shift hms _)

/-! Depths. -/

theorem withDepths_append (d : Nat) (ls ms : List Line) :
    withDepths d (ls ++ ms) = withDepths d ls ++ withDepths (depthAfterAll d ls) ms := by
  induction ls generalizing d with
  | nil => rfl
  | cons l ls ih => rw [List.cons_append, withDepths, ih, withDepths]; rfl

theorem wellIndented_append {d : Nat} {ls ms : List Line} (hls : WellIndented d ls)
    (hms : WellIndented (depthAfterAll d ls) ms) : WellIndented d (ls ++ ms) := by
  induction ls generalizing d with
  | nil => exact hms
  | cons l ls ih =>
    obtain ⟨hl, hls⟩ := wellIndented_cons.mp hls
    exact wellIndented_cons.mpr ⟨hl, ih hls hms⟩

/-- A line that closes all groups, whatever is open before it. -/
def AtMargin (l : Line) : Prop := l.isBlank = false ∧ l.indent ≤ 1

theorem AtMargin.depthAfter {l : Line} (h : l.AtMargin) (d : Nat) : l.depthAfter d = 0 := by
  obtain ⟨hblank, hindent⟩ := h
  have hlevel : l.indent / 2 = 0 := by omega
  rw [Line.depthAfter, if_neg (by simp [hblank]), hlevel, Nat.min_zero, ite_self]

theorem AtMargin.not_misindented {l : Line} (h : l.AtMargin) {d : Nat} (hl : ¬ l.Misindented d)
    (d' : Nat) : ¬ l.Misindented d' := by
  rintro ⟨hitems, hodd | hdeep⟩
  · exact hl ⟨hitems, .inl hodd⟩
  · have := h.2
    omega

/-- Lines that start at the margin stand at the same depths whatever is before them. -/
theorem withDepths_atMargin {l : Line} (h : l.AtMargin) (ls : List Line) (d d' : Nat) :
    withDepths d (l :: ls) = withDepths d' (l :: ls) := by
  rw [withDepths, withDepths, h.depthAfter, h.depthAfter]

theorem wellIndented_atMargin {l : Line} (h : l.AtMargin) {ls : List Line} {d : Nat}
    (hls : WellIndented d (l :: ls)) (d' : Nat) : WellIndented d' (l :: ls) := by
  obtain ⟨hl, hrest⟩ := wellIndented_cons.mp hls
  rw [h.depthAfter] at hrest
  refine wellIndented_cons.mpr ⟨h.not_misindented hl d', ?_⟩
  rwa [h.depthAfter]

end Line

/-! Outlines. -/

namespace Outline

theorem Compact.append {o p : Outline} (ho : Compact o) (hp : Compact p)
    (hfirst : ∀ e ∈ p.head?, e.isLine) : Compact (o ++ p) := by
  constructor
  · rw [List.isChain_append]
    exact ⟨ho.1, hp.1, fun _ _ f hf => .inr (hfirst f hf)⟩
  · intro e he
    rcases List.mem_append.mp he with he | he
    · exact ho.2 e he
    · exact hp.2 e he

/-- An outline whose first line stands at its level does not start with a group. -/
theorem isLine_of_levels {p : Outline} (hp : Compact p) {level : Nat} {l : Line}
    {rest : List (Line × Nat)} (h : Outline.levels level p = (l, level) :: rest) :
    ∀ e ∈ p.head?, e.isLine := by
  intro e he
  obtain ⟨es, rfl⟩ := List.head?_eq_some_iff.mp he
  cases e with
  | line l => rfl
  | group entries =>
    have hne := (hp.2 _ (List.mem_cons_self ..)).levels_ne_nil level
    obtain ⟨first, others, hfirst⟩ := List.exists_cons_of_ne_nil hne
    rw [Outline.levels, hfirst] at h
    obtain ⟨rfl, -⟩ := List.cons.inj h
    have hdeep : level + 1 ≤ level :=
      Outline.le_of_mem_levels (p := (l, level)) entries (by
        rw [Entry.levels] at hfirst
        rw [hfirst]
        exact List.mem_cons_self ..)
    omega

/-- Lines that start at the margin are grouped after the ones before them as they are alone. -/
theorem ofLines_append {ls ms : List Line} {o p : Outline} (hls : Outline.ofLines ls = .ok o)
    (hms : Outline.ofLines ms = .ok p) (hfirst : ∀ l ∈ ms.head?, l.AtMargin) :
    Outline.ofLines (ls ++ ms) = .ok (o ++ p) := by
  obtain ⟨hwell, hcompact, hlevels⟩ := ofLines_eq_ok_iff.mp hls
  obtain ⟨hwell', hcompact', hlevels'⟩ := ofLines_eq_ok_iff.mp hms
  cases ms with
  | nil =>
    obtain rfl : p = [] := by
      cases hms
      rfl
    simpa using hls
  | cons l ms =>
    have hl := hfirst l rfl
    have hstart := hlevels'
    rw [Line.withDepths, hl.depthAfter] at hstart
    apply ofLines_eq_ok_iff.mpr
    refine ⟨?_, hcompact.append hcompact' (isLine_of_levels hcompact' hstart), ?_⟩
    · exact Line.wellIndented_append hwell (Line.wellIndented_atMargin hl hwell' _)
    · rw [levels_append, Line.withDepths_append, hlevels, hlevels',
        Line.withDepths_atMargin hl ms (Line.depthAfterAll 0 ls) 0]

end Outline

/-! Blocks. -/

/-- The one group spells a block that the other spells too. -/
def Nested.Agrees (n n' : Nested) : Prop := ∀ b, n.block = .ok b → n'.block = .ok b

namespace Part

/-- Parts that say the same, whatever the numbers of their lines. -/
inductive Alike : Part → Part → Prop where
  | line {l l' : Line} : l'.toRow = l.toRow → Alike (.line l) (.line l')
  | nested {n n' : Nested} : n.Agrees n' → Alike (.nested n) (.nested n')

theorem groupsAhead_alike {parts parts' : List Part} (h : List.Forall₂ Alike parts parts') :
    List.Forall₂ Nested.Agrees (groupsAhead parts) (groupsAhead parts') := by
  induction h with
  | nil => exact .nil
  | cons hpart _ ih =>
    cases hpart with
    | nested hn => exact .cons hn ih
    | line hl =>
      rw [groupsAhead, groupsAhead, hl]
      split
      · exact .nil
      · exact ih

theorem statement_alike {l l' : Line} {s : Shape} {ahead ahead' : List Nested}
    {statement : Statement} (hl : l'.toRow = l.toRow)
    (hahead : List.Forall₂ Nested.Agrees ahead ahead')
    (h : Part.statement l s ahead = .ok statement) :
    Part.statement l' s ahead' = .ok statement :=
  statement_of_forall₂ (f := id) (g := id) rfl (fun _ => by rw [hl]; rfl) hahead h

theorem assemble_alike {parts parts' : List Part} (h : List.Forall₂ Alike parts parts')
    {claimed : Bool} {b : Block} (hb : assemble claimed parts = .ok b) :
    assemble claimed parts' = .ok b := by
  induction h generalizing claimed b with
  | nil => exact hb
  | @cons part part' parts parts' hpart hrest ih =>
    cases hpart with
    | nested hn =>
      rw [assemble] at hb ⊢
      split at hb
      · rw [if_pos ‹_›]
        exact ih hb
      · cases hb
    | @line l l' hl =>
      by_cases hitems : l.isSubstantial
      · obtain ⟨shape, statement, rest, hshape, hstatement, htail, rfl⟩ :=
          (assemble_substantial hitems).mp hb
        rw [← hl] at hitems hshape
        exact (assemble_substantial hitems).mpr ⟨shape, statement, rest, hshape,
          statement_alike hl (groupsAhead_alike hrest) hstatement, ih htail, rfl⟩
      · by_cases hblank : l.isBlank
        · rw [assemble, if_pos hblank] at hb
          rw [← hl] at hblank
          rw [assemble, if_pos hblank]
          exact ih hb
        · have hcomment : l.isComment := Row.isComment_of_not hblank hitems
          obtain ⟨rest, htail, rfl⟩ := (assemble_comment hcomment).mp hb
          rw [← hl] at hcomment ⊢
          exact (assemble_comment hcomment).mpr ⟨rest, ih htail, rfl⟩

theorem groupsAhead_append {parts parts' : List Part} (h : groupsAhead parts' = []) :
    groupsAhead (parts ++ parts') = groupsAhead parts := by
  induction parts with
  | nil => exact h
  | cons part parts ih =>
    cases part with
    | nested n => rw [List.cons_append, groupsAhead, groupsAhead, ih]
    | line l => rw [List.cons_append, groupsAhead, groupsAhead, ih]

/-- Parts that wait for no group take none of what follows them. -/
theorem assemble_append {parts parts' : List Part} {claimed : Bool} {b c : Block}
    (hb : assemble claimed parts = .ok b) (hclaimed : claimed → groupsAhead parts ≠ [])
    (hc : assemble false parts' = .ok c) : assemble claimed (parts ++ parts') = .ok (b ++ c) := by
  have hnone : groupsAhead parts' = [] := by simpa using groupsAhead_of_assemble hc
  induction parts generalizing claimed b with
  | nil =>
    cases hb
    cases claimed with
    | false => exact hc
    | true => exact absurd rfl (hclaimed rfl)
  | cons part parts ih =>
    cases part with
    | nested n =>
      rw [assemble] at hb
      split at hb
      · rename_i htaken
        rw [List.cons_append, assemble, if_pos htaken]
        exact ih hb (by simp)
      · cases hb
    | line l =>
      by_cases hitems : l.isSubstantial
      · obtain ⟨shape, statement, rest, hshape, hstatement, hrest, rfl⟩ :=
          (assemble_substantial hitems).mp hb
        have hahead : groupsAhead (parts ++ parts') = groupsAhead parts := groupsAhead_append hnone
        -- A line that claims a group has found it before the parts end.
        have hfound : shape.claims → groupsAhead parts ≠ [] := by
          intro hclaims
          obtain ⟨nested, -, hnested⟩ := statement_eq_ok hstatement
          obtain ⟨n, hn, -⟩ := hnested hclaims
          exact List.ne_nil_of_mem hn
        rw [← hahead] at hstatement
        exact (assemble_substantial hitems).mpr
          ⟨shape, statement, rest ++ c, hshape, hstatement, ih hrest hfound, rfl⟩
      · rw [groupsAhead, if_neg hitems] at hclaimed
        by_cases hblank : l.isBlank
        · rw [assemble, if_pos hblank] at hb
          rw [List.cons_append, assemble, if_pos hblank]
          exact ih hb hclaimed
        · have hcomment : l.isComment := Row.isComment_of_not hblank hitems
          obtain ⟨rest, hrest, rfl⟩ := (assemble_comment hcomment).mp hb
          exact (assemble_comment hcomment).mpr ⟨rest ++ c, ih hrest hclaimed, rfl⟩

end Part

namespace Outline

variable {f : Line → Line}

theorem parts_mapLines (hf : ∀ l, (f l).toRow = l.toRow) {o : Outline}
    (h : ∀ g, .group g ∈ o → ∀ b, Outline.block g = .ok b → (mapLines f g).block = .ok b) :
    List.Forall₂ Part.Alike (Outline.parts o) (Outline.parts (o.mapLines f)) := by
  induction o with
  | nil => exact .nil
  | cons e es ih =>
    have hrest := ih fun g hg => h g (List.mem_cons_of_mem _ hg)
    cases e with
    | line l => exact .cons (.line (hf l)) hrest
    | group g => exact .cons (.nested (h g (List.mem_cons_self ..))) hrest

/-- The block that an outline spells does not depend on how its lines are numbered. -/
theorem block_mapLines (hf : ∀ l, (f l).toRow = l.toRow) {o : Outline} {b : Block}
    (h : o.block = .ok b) : (o.mapLines f).block = .ok b := by
  induction o using group_induction generalizing b with
  | h o ih => exact Part.assemble_alike (parts_mapLines hf fun g hg _ hb => ih g hg hb) h

end Outline

/-- Outlines that spell blocks spell both one after the other. -/
theorem Outline.block_append {o p : Outline} {b c : Block} (hb : o.block = .ok b)
    (hc : p.block = .ok c) : Outline.block (o ++ p) = .ok (b ++ c) := by
  rw [Outline.block, Outline.parts_append]
  exact Part.assemble_append hb (by simp) hc

/-! Lines and the blocks they spell. -/

namespace Line

/-- Grouped and assembled, the lines give the block. -/
def Spell (ls : List Line) (b : Block) : Prop :=
  ∃ o, Outline.ofLines ls = .ok o ∧ Outline.block o = .ok b

theorem spell_filled_iff {ls : List Line} {b : Block} :
    Spell (ls.filter (!·.isBlank)) b ↔ Spell ls b := by
  rw [Spell, ← filterMap_filled?, Outline.ofLines_filled]
  constructor
  · rintro ⟨_, hgroup, hblock⟩
    obtain ⟨o, ho, rfl⟩ := Except.map_eq_ok_iff.mp hgroup
    rw [Outline.block_filled (Outline.ofLines_eq_ok ho).2] at hblock
    exact ⟨o, ho, hblock⟩
  · rintro ⟨o, ho, hblock⟩
    refine ⟨_, Except.map_eq_ok_iff.mpr ⟨o, ho, rfl⟩, ?_⟩
    rwa [Outline.block_filled (Outline.ofLines_eq_ok ho).2]

theorem Spell.shift {ls : List Line} {b : Block} (h : Spell ls b) (k : Nat) :
    Spell (ls.map (Line.shift k)) b := by
  obtain ⟨o, ho, hblock⟩ := h
  exact ⟨_, Outline.ofLines_map (keepsPlace_shift k) ho,
    Outline.block_mapLines (f := Line.shift k) (fun _ => rfl) hblock⟩

/-- Blank lines between the pieces may become part of a group of the first, so the pieces are put
together without them. -/
theorem Spell.append {ls ms : List Line} {b c : Block} (hb : Spell ls b) (hc : Spell ms c)
    (hfirst : ∀ l ∈ ms.find? (!·.isBlank), l.indent ≤ 1) : Spell (ls ++ ms) (b ++ c) := by
  obtain ⟨o, ho, hblock⟩ := spell_filled_iff.mpr hb
  obtain ⟨p, hp, hblock'⟩ := spell_filled_iff.mpr hc
  have hmargin : ∀ l ∈ (ms.filter (!·.isBlank)).head?, l.AtMargin := by
    intro l hl
    rw [List.head?_filter] at hl
    exact ⟨by simpa using List.find?_some hl, hfirst l hl⟩
  apply spell_filled_iff.mp
  rw [List.filter_append]
  exact ⟨o ++ p, Outline.ofLines_append ho hp hmargin, Outline.block_append hblock hblock'⟩

end Line

theorem Block.parse_eq_ok_iff {source : String} {b : Block} :
    Block.parse source = .ok b ↔ ∃ ls, Line.readAll source = .ok ls ∧ Line.Spell ls b := by
  simp only [Block.parse, Outline.read, Except.bind_eq_ok_iff, Except.mapError_eq_ok_iff,
    Line.Spell]
  constructor
  · rintro ⟨o, ⟨ls, hls, ho⟩, hb⟩
    exact ⟨ls, hls, o, ho, hb⟩
  · rintro ⟨ls, hls, o, ho, hb⟩
    exact ⟨o, ⟨ls, hls, ho⟩, hb⟩

/-- Reading in pieces is reading at once. If a source ends with its last line, and the first line of
another that is not blank is indented by less than a level, then the two together are read as the
statements of the one and then those of the other. -/
theorem Block.parse_in_pieces {s₁ s₂ : String} {b₁ b₂ : Block} (hend : EndsLine s₁)
    (h₁ : Block.parse s₁ = .ok b₁) (h₂ : Block.parse s₂ = .ok b₂)
    (hfirst : ∀ ls, Line.readAll s₂ = .ok ls → ∀ l ∈ ls.find? (!·.isBlank), l.indent ≤ 1) :
    Block.parse (s₁ ++ s₂) = .ok (b₁ ++ b₂) := by
  obtain ⟨ls, hls, hspell₁⟩ := Block.parse_eq_ok_iff.mp h₁
  obtain ⟨ms, hms, hspell₂⟩ := Block.parse_eq_ok_iff.mp h₂
  obtain ⟨k, hread⟩ := Line.readAll_append hend hls hms
  refine Block.parse_eq_ok_iff.mpr ⟨_, hread, hspell₁.append (hspell₂.shift k) ?_⟩
  intro l hl
  rw [List.find?_map] at hl
  obtain ⟨m, hm, rfl⟩ := Option.map_eq_some_iff.mp hl
  exact hfirst ms hms m hm

/-- Two groups are open where the first piece ends. The blank lines and the comment of the second
come before anything closes them. -/
theorem Block.openGroups_in_pieces :
    Block.parse "f >>\n  x :\n    y --c\n" =
        .ok [.method "f"
          [.expression [.identifier "x", .block [.expression [.identifier "y"] (some "c")]] none]
          none] ∧
      Block.parse "\n      \n --d\nz" =
        .ok [.expression [] (some "d"), .expression [.identifier "z"] none] ∧
      Block.parse ("f >>\n  x :\n    y --c\n" ++ "\n      \n --d\nz") =
        .ok [.method "f"
            [.expression [.identifier "x", .block [.expression [.identifier "y"] (some "c")]] none]
            none,
          .expression [] (some "d"), .expression [.identifier "z"] none] := by
  have hopen : Block.parse "f >>\n  x :\n    y --c\n" =
      .ok [.method "f"
        [.expression [.identifier "x", .block [.expression [.identifier "y"] (some "c")]] none]
        none] := by decide +kernel
  have hnext : Block.parse "\n      \n --d\nz" =
      .ok [.expression [] (some "d"), .expression [.identifier "z"] none] := by decide +kernel
  have hlines : Line.readAll "\n      \n --d\nz" =
      .ok [⟨⟨0, [], none⟩, 1⟩, ⟨⟨6, [], none⟩, 2⟩, ⟨⟨1, [], some "d"⟩, 3⟩,
        ⟨⟨0, [.atom (.identifier "z")], none⟩, 4⟩] := by decide +kernel
  refine ⟨hopen, hnext, Block.parse_in_pieces (.inr (by decide +kernel)) hopen hnext ?_⟩
  intro ls hls
  obtain rfl := Except.ok.inj (hlines.symm.trans hls)
  decide

end Stacklet
