import Stacklet.Source
import Stacklet.Proofs.Blanks
import Stacklet.Proofs.Lines

/-!
Outlines read back from their text. Grouping looks at the kind of each line and at its indent only,
so lines that differ in their comments or numbers are grouped alike. A line is read back from its
own text. The text of an outline has its lines in their order, and each is read back where it stood.
-/

namespace Stacklet

open Text

/-- Lines are replaced by lines of the same kind and indent. -/
structure Line.KeepsPlace (f : Line → Line) : Prop where
  isBlank : ∀ l, (f l).isBlank = l.isBlank
  isComment : ∀ l, (f l).isComment = l.isComment
  indent : ∀ l, (f l).indent = l.indent

/-- Replaces every line, at every depth. -/
def Outline.mapLines (f : Line → Line) (o : Outline) : Outline := Outline.filterMap (some ∘ f) o

namespace Outline

variable {f : Line → Line}

open Groups

theorem Groups.add_map (hf : Line.KeepsPlace f) {g g' : Groups} {l : Line}
    (h : g.add l = .ok g') :
    (g.filterMap (some ∘ f)).add (f l) = .ok (g'.filterMap (some ∘ f)) := by
  have hl : (some ∘ f) l = some (f l) := rfl
  unfold add at h ⊢
  rw [hf.isBlank, hf.isComment, hf.indent, depth_filterMap]
  split at h
  · cases h
    rw [filterMap_push_some hl, if_pos ‹_›]
  · rw [if_neg ‹_›]
    split at h
    · cases h
      rw [filterMap_place hl, if_pos ‹_›]
    · rw [if_neg ‹_›]
      split at h
      · cases h
      · rw [if_neg ‹_›]
        split at h
        · cases h
        · cases h
          rw [filterMap_place hl, if_neg ‹_›]

theorem foldlM_map (hf : Line.KeepsPlace f) {ls : List Line} {g g' : Groups}
    (h : ls.foldlM Groups.add g = .ok g') :
    (ls.map f).foldlM Groups.add (g.filterMap (some ∘ f)) = .ok (g'.filterMap (some ∘ f)) := by
  induction ls generalizing g with
  | nil =>
    cases h
    rfl
  | cons l ls ih =>
    rw [List.foldlM_cons] at h
    obtain ⟨g₁, hadd, hrest⟩ := Except.bind_eq_ok_iff.mp h
    rw [List.map_cons, List.foldlM_cons, add_map hf hadd]
    exact ih hrest

/-- Lines that keep their places are grouped as before. -/
theorem ofLines_map (hf : Line.KeepsPlace f) {ls : List Line} {o : Outline}
    (h : Outline.ofLines ls = .ok o) : Outline.ofLines (ls.map f) = .ok (o.mapLines f) := by
  obtain ⟨g, hfold, rfl⟩ := Except.map_eq_ok_iff.mp h
  have hmapped := foldlM_map hf hfold
  apply Except.map_eq_ok_iff.mpr
  exact ⟨_, hmapped, finish_filterMap⟩

theorem lines_mapLines (o : Outline) : Outline.lines (o.mapLines f) = (Outline.lines o).map f := by
  rw [mapLines, Outline.lines_filterMap, List.filterMap_eq_map]

end Outline

mutual

theorem Entry.filterMap_some_eq_self {f : Line → Line} :
    (e : Entry) → (∀ l ∈ e.lines, f l = l) → e.filterMap (some ∘ f) = some e
  | .line l, h => by
    have hl := h l (by simp [Entry.lines])
    simp [Entry.filterMap, hl]
  | .group entries, h => by
    rw [Entry.filterMap, Outline.filterMap_some_eq_self entries h]

theorem Outline.filterMap_some_eq_self {f : Line → Line} :
    (es : List Entry) → (∀ l ∈ Outline.lines es, f l = l) → Outline.filterMap (some ∘ f) es = es
  | [], _ => rfl
  | e :: es, h => by
    rw [Outline.lines, List.forall_mem_append] at h
    rw [Outline.filterMap, Entry.filterMap_some_eq_self e h.1,
      Outline.filterMap_some_eq_self es h.2]
    rfl

end

theorem Outline.mapLines_eq_self_iff {f : Line → Line} {o : Outline} :
    o.mapLines f = o ↔ ∀ l ∈ Outline.lines o, f l = l := by
  constructor
  · intro h
    have hlines := congrArg Outline.lines h
    rw [lines_mapLines] at hlines
    exact List.map_inj_left.mp (hlines.trans (List.map_id _).symm)
  · exact filterMap_some_eq_self o

/-! Comments. -/

namespace Line

def mapComment (f : String → String) (l : Line) : Line := { l with toRow := l.toRow.mapComment f }

theorem keepsPlace_mapComment (f : String → String) : KeepsPlace (mapComment f) where
  isBlank l := by simp [mapComment, Row.mapComment, Row.isBlank]
  isComment l := by simp [mapComment, Row.mapComment, Row.isComment]
  indent _ := rfl

theorem mapComment_eq_self_iff {f : String → String} {l : Line} :
    l.mapComment f = l ↔ ∀ text ∈ l.comment, f text = text := by
  obtain ⟨⟨indent, items, comment⟩, number⟩ := l
  cases comment <;> simp [mapComment, Row.mapComment]

/-! Numbers. -/

/-- A line may be read with any number. -/
theorem read_renumber {number : Nat} {text : String} {l : Line} (h : read number text = .ok l)
    (other : Nat) : read other text = .ok { l with number := other } := by
  unfold read at h ⊢
  split at h
  · cases h
  · rw [if_neg ‹_›]
    simp only at h ⊢
    split at h
    · cases h
      rfl
    · cases h

theorem number_of_read {number : Nat} {text : String} {l : Line} (h : read number text = .ok l) :
    l.number = number := by
  have hsame := h.symm.trans (read_renumber h number)
  exact congrArg Line.number (Except.ok.inj hsame)

theorem numbers_of_readFrom {number : Nat} {texts : List String} {ls : List Line}
    (h : readFrom number texts = .ok ls) : ls.map Line.number = List.range' number ls.length := by
  induction texts generalizing number ls with
  | nil =>
    cases h
    rfl
  | cons text texts ih =>
    rw [readFrom, Except.bind_eq_ok_iff] at h
    obtain ⟨l, hl, h⟩ := h
    obtain ⟨rest, hrest, h⟩ := Except.bind_eq_ok_iff.mp h
    cases h
    rw [List.map_cons, List.length_cons, List.range'_succ, ih hrest, number_of_read hl]

theorem eq_of_rows_of_numbers {ls ms : List Line}
    (hrows : ls.map Line.toRow = ms.map Line.toRow)
    (hnumbers : ls.map Line.number = ms.map Line.number) : ls = ms := by
  induction ls generalizing ms with
  | nil => exact (List.map_eq_nil_iff.mp hrows.symm).symm
  | cons l ls ih =>
    obtain ⟨m, rest, rfl, hrow, hrest⟩ := List.map_eq_cons_iff.mp hrows.symm
    obtain ⟨hnumber, hnumbers⟩ := List.cons.inj hnumbers
    have hfirst : l = m := congrArg₂ Line.mk hrow.symm hnumber
    rw [hfirst, ih hrest.symm hnumbers]

/-! Lines read back. -/

/-- A line that has been read from any text is read again from its own: no items that stand next to
each other there are taken for one, and none for the start of the comment. -/
theorem rendered_line_reads_back {number : Nat} {text : String} {l : Line}
    (h : read number text = .ok l) : read number l.render = .ok l := by
  obtain ⟨hvalid, -⟩ := read_eq_ok h
  have hback := read_render hvalid number
  rw [hback, ← number_of_read h]

/-- Words that end like the start of a comment or of a marker, and a negative number before a
comment of two physical lines. -/
def crowded : Line :=
  ⟨⟨2, [.atom (.identifier "a-"), .atom (.identifier "b>"), .marker .assign,
    .atom (.number ⟨.int32, -3, by decide⟩)], some "\n-- c\r"⟩, 4⟩

theorem crowded_reads_back :
    read 4 "  \u00a0a-\u3000b>=0_3-\r--\n-- c\r" = .ok crowded ∧
      crowded.render = "  a- b> = 3- --\n-- c\r" ∧
      read 4 "  a- b> = 3- --\n-- c\r" = .ok crowded := by
  have hread : read 4 "  \u00a0a-\u3000b>=0_3-\r--\n-- c\r" = .ok crowded := by decide +kernel
  have hrender : crowded.render = "  a- b> = 3- --\n-- c\r" := by decide +kernel
  refine ⟨hread, hrender, ?_⟩
  rw [← hrender]
  exact rendered_line_reads_back hread

/-- The lines of a source are read back from their text, their comments without one carriage return
at the end. -/
theorem readAll_render {source : String} {ls : List Line} (h : readAll source = .ok ls) :
    readAll (String.join (ls.map (·.render ++ "\n"))) = .ok (ls.map (mapComment chomp)) := by
  have hvalid : ∀ r ∈ ls.map Line.toRow, r.Valid :=
    List.forall_mem_map.mpr fun l hl => (readAll_eq_ok h l hl).1
  have hcomment : ∀ r ∈ ls.map Line.toRow, Comment.OneLine r.comment :=
    List.forall_mem_map.mpr fun l hl => (readAll_eq_ok h l hl).2
  obtain ⟨ls', hread, hrows⟩ := readAll_join hvalid hcomment
  have hlength : ls'.length = ls.length := by simpa using congrArg List.length hrows
  have hsame : ls' = ls.map (mapComment chomp) := by
    apply eq_of_rows_of_numbers
    · rw [hrows, List.map_map, List.map_map]
      rfl
    · rw [numbers_of_readFrom hread, hlength, ← numbers_of_readFrom h, List.map_map]
      rfl
  rw [List.map_map] at hread
  rw [← hsame]
  exact hread

end Line

/-- An outline that was read is read again from its text, with all numbers and indents, and with one
carriage return less at the end of each comment that ends in one. So it is read unchanged if and
only if no comment does. -/
theorem Outline.rendered_reads_back {source : String} {o : Outline}
    (h : Outline.read source = .ok o) :
    Outline.read o.render = .ok (o.mapLines (Line.mapComment chomp)) ∧
      (Outline.read o.render = .ok o ↔
        ∀ l ∈ Outline.lines o, ∀ text ∈ l.comment, text.toList.getLast? ≠ some '\r') := by
  obtain ⟨ls, hlines, hgroup⟩ := Except.bind_eq_ok_iff.mp h
  rw [Except.mapError_eq_ok_iff] at hlines hgroup
  have hkept : Outline.lines o = ls := (ofLines_eq_ok hgroup).1
  have hread : Outline.read o.render = .ok (o.mapLines (Line.mapComment chomp)) := by
    apply Except.bind_eq_ok_iff.mpr
    refine ⟨ls.map (Line.mapComment chomp), ?_, ?_⟩
    · rw [Outline.render, hkept, Line.readAll_render hlines]
      rfl
    · rw [ofLines_map (Line.keepsPlace_mapComment chomp) hgroup]
      rfl
  refine ⟨hread, ?_⟩
  rw [hread, Except.ok.injEq, mapLines_eq_self_iff]
  simp only [Line.mapComment_eq_self_iff, chomp_eq_self_iff]

namespace Outline

/-- Comments that end in a carriage return, a comment and blank lines with odd indents, and a line
with items in a group. -/
def unevenly : Outline :=
  [.line ⟨⟨0, [.atom (.identifier "f"), .marker .method], some "a\r"⟩, 1⟩,
    .line ⟨⟨1, [], none⟩, 2⟩,
    .line ⟨⟨3, [], some "b"⟩, 3⟩,
    .group [.line ⟨⟨2, [.atom (.identifier "x"), .marker .assign,
        .atom (.number ⟨.uint8, 31, by decide⟩)], none⟩, 4⟩,
      .line ⟨⟨5, [], none⟩, 5⟩],
    .line ⟨⟨0, [], some "c\r"⟩, 6⟩]

theorem unevenly_reads_back :
    Outline.read "f>>--a\r\r\n \n   --b\n  x\u00a0= 0x1-F\n     \n\u3000--c\r" = .ok unevenly ∧
      Outline.read (Outline.render unevenly) =
        .ok (mapLines (Line.mapComment chomp) unevenly) ∧
      Outline.read (Outline.render unevenly) ≠ .ok unevenly := by
  have hread : Outline.read
      "f>>--a\r\r\n \n   --b\n  x\u00a0= 0x1-F\n     \n\u3000--c\r" = .ok unevenly := by
    decide +kernel
  obtain ⟨hback, hsame⟩ := Outline.rendered_reads_back hread
  refine ⟨hread, hback, ?_⟩
  intro h
  have hmem : ⟨⟨0, [], some "c\r"⟩, 6⟩ ∈ Outline.lines unevenly := by decide
  exact hsame.mp h _ hmem "c\r" rfl (by decide)

end Outline

end Stacklet
