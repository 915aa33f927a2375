import Stacklet.Source
import Stacklet.Proofs.Grouping

/-!
Outlines with lines replaced or left out. Blank lines may be left out before grouping or after it,
and the outline without them spells the same block, or fails to with the same error.
-/

namespace Stacklet

mutual

def Entry.filterMap (f : Line → Option Line) : Entry → Option Entry
  | .line l => (f l).map .line
  | .group entries => some (.group (Outline.filterMap f entries))

/-- Replaces lines or leaves them out, at every depth. Groups stay, even if nothing is left in
them. -/
def Outline.filterMap (f : Line → Option Line) : List Entry → List Entry
  | [] => []
  | e :: entries => (e.filterMap f).toList ++ Outline.filterMap f entries

end

variable {f : Line → Option Line}

mutual

theorem Entry.lines_filterMap : (e : Entry) →
    Outline.lines (e.filterMap f).toList = e.lines.filterMap f
  | .line l => by
    cases hl : f l with
    | none => simp [Entry.filterMap, Entry.lines, Outline.lines, hl]
    | some l' => simp [Entry.filterMap, Entry.lines, Outline.lines, hl]
  | .group entries => by
    rw [Entry.filterMap, Option.toList_some, Outline.lines, Entry.lines, Entry.lines,
      Outline.lines_filterMap entries, Outline.lines, List.append_nil]

theorem Outline.lines_filterMap : (es : List Entry) →
    Outline.lines (Outline.filterMap f es) = (Outline.lines es).filterMap f
  | [] => rfl
  | e :: es => by
    rw [Outline.filterMap, Outline.lines_append, Entry.lines_filterMap e,
      Outline.lines_filterMap es, Outline.lines, List.filterMap_append]

end

theorem Outline.filterMap_append (es fs : List Entry) :
    Outline.filterMap f (es ++ fs) = Outline.filterMap f es ++ Outline.filterMap f fs := by
  induction es with
  | nil => rfl
  | cons e es ih => rw [List.cons_append, Outline.filterMap, Outline.filterMap, ih,
      List.append_assoc]

theorem Outline.filterMap_reverse (es : List Entry) :
    Outline.filterMap f es.reverse = (Outline.filterMap f es).reverse := by
  induction es with
  | nil => rfl
  | cons e es ih =>
    have hsingle : Outline.filterMap f [e] = (e.filterMap f).toList := by
      rw [Outline.filterMap, Outline.filterMap, List.append_nil]
    have hreverse : (e.filterMap f).toList.reverse = (e.filterMap f).toList := by
      cases e.filterMap f <;> rfl
    rw [List.reverse_cons, Outline.filterMap_append, ih, hsingle, Outline.filterMap,
      List.reverse_append, hreverse]

/-! Grouping. -/

namespace Outline.Groups

def filterMap (f : Line → Option Line) (g : Groups) : Groups :=
  ⟨Outline.filterMap f g.inner, g.outer.map (Outline.filterMap f)⟩

variable {g : Groups} {l l' : Line}

@[simp] theorem depth_filterMap : (g.filterMap f).depth = g.depth := by
  simp [filterMap, depth]

theorem filterMap_push_none (hl : f l = none) : (g.push (.line l)).filterMap f = g.filterMap f := by
  simp [filterMap, push, Outline.filterMap, Entry.filterMap, hl]

theorem filterMap_push_some (hl : f l = some l') :
    (g.push (.line l)).filterMap f = (g.filterMap f).push (.line l') := by
  simp [filterMap, push, Outline.filterMap, Entry.filterMap, hl]

theorem filterMap_close : g.close.filterMap f = (g.filterMap f).close := by
  obtain ⟨inner, outer⟩ := g
  cases outer with
  | nil => rfl
  | cons parent outer =>
    simp [close, filterMap, Outline.filterMap, Entry.filterMap, Outline.filterMap_reverse]

theorem filterMap_closeMany (n : Nat) :
    (closeMany n g).filterMap f = closeMany n (g.filterMap f) := by
  induction n generalizing g with
  | zero => rfl
  | succ n ih => rw [closeMany, ih, filterMap_close, closeMany]

theorem filterMap_place (hl : f l = some l') (level : Nat) :
    (g.place level l).filterMap f = (g.filterMap f).place level l' := by
  unfold place
  rw [depth_filterMap]
  split
  · simp [filterMap, Outline.filterMap, Entry.filterMap, hl]
  · rw [filterMap_push_some hl, filterMap_closeMany]

theorem finish_filterMap : (g.filterMap f).finish = Outline.filterMap f g.finish := by
  rw [finish, finish, depth_filterMap, ← filterMap_closeMany, Outline.filterMap_reverse]
  rfl

end Outline.Groups

/-- Nothing if the line is blank. -/
def Line.filled? (l : Line) : Option Line := if l.isBlank then none else some l

theorem Line.filterMap_filled? (ls : List Line) :
    ls.filterMap filled? = ls.filter (!·.isBlank) := by
  induction ls with
  | nil => rfl
  | cons l ls ih =>
    by_cases h : l.isBlank
    · have hl : l.filled? = none := if_pos h
      rw [List.filterMap_cons_none hl, List.filter_cons_of_neg (by simp [h]), ih]
    · have hl : l.filled? = some l := if_neg h
      rw [List.filterMap_cons_some hl, List.filter_cons_of_pos (by simp [h]), ih]

namespace Outline

open Groups

theorem Groups.add_blank {g : Groups} {l : Line} (h : l.isBlank) :
    g.add l = .ok (g.push (.line l)) := by
  rw [add, if_pos h]

theorem Groups.map_add {g : Groups} {l : Line} (h : ¬ l.isBlank) :
    (g.add l).map (Groups.filterMap Line.filled?) = (g.filterMap Line.filled?).add l := by
  have hl : l.filled? = some l := if_neg h
  unfold add
  rw [depth_filterMap, if_neg h, if_neg h]
  split
  · rw [Except.map, filterMap_place hl]
  · split
    · rfl
    · split
      · rfl
      · rw [Except.map, filterMap_place hl]

theorem Groups.map_foldlM {ls : List Line} {g : Groups} :
    (ls.foldlM Groups.add g).map (Groups.filterMap Line.filled?) =
      (ls.filterMap Line.filled?).foldlM Groups.add (g.filterMap Line.filled?) := by
  induction ls generalizing g with
  | nil => rfl
  | cons l ls ih =>
    rw [List.foldlM_cons]
    by_cases hblank : l.isBlank
    · have hl : l.filled? = none := if_pos hblank
      rw [add_blank hblank, List.filterMap_cons_none hl]
      show (ls.foldlM Groups.add (g.push (.line l))).map _ = _
      rw [ih, filterMap_push_none hl]
    · have hl : l.filled? = some l := if_neg hblank
      rw [List.filterMap_cons_some hl, List.foldlM_cons, ← map_add hblank]
      cases g.add l with
      | error e => rfl
      | ok g₁ => exact ih

/-- Blank lines do not affect how the other lines are grouped. -/
theorem ofLines_filled (ls : List Line) :
    Outline.ofLines (ls.filterMap Line.filled?) =
      (Outline.ofLines ls).map (Outline.filterMap Line.filled?) := by
  have hfold : (ls.filterMap Line.filled?).foldlM Groups.add ⟨[], []⟩ =
      (ls.foldlM Groups.add ⟨[], []⟩).map (Groups.filterMap Line.filled?) :=
    (map_foldlM (g := ⟨[], []⟩)).symm
  rw [Outline.ofLines, Outline.ofLines, hfold]
  cases ls.foldlM Groups.add ⟨[], []⟩ with
  | error e => rfl
  | ok g => exact congrArg Except.ok finish_filterMap

end Outline

/-! Assembling. -/

namespace Part

def isBlank : Part → Bool
  | .line l => l.isBlank
  | .nested _ => false

theorem groupsAhead_filter (parts : List Part) :
    groupsAhead (parts.filter (!·.isBlank)) = groupsAhead parts := by
  induction parts with
  | nil => rfl
  | cons part parts ih =>
    cases part with
    | nested n =>
      rw [List.filter_cons_of_pos (by rfl), groupsAhead, groupsAhead, ih]
    | line l =>
      by_cases hblank : l.isBlank
      · have hitems : ¬ l.isSubstantial := fun h => by
          rw [Row.isBlank_of_isSubstantial h] at hblank
          cases hblank
        rw [List.filter_cons_of_neg (by simp [isBlank, hblank]), ih, groupsAhead, if_neg hitems]
      · rw [List.filter_cons_of_pos (by simp [isBlank, hblank]), groupsAhead, groupsAhead, ih]

theorem assemble_filter (claimed : Bool) (parts : List Part) :
    assemble claimed (parts.filter (!·.isBlank)) = assemble claimed parts := by
  induction parts generalizing claimed with
  | nil => rfl
  | cons part parts ih =>
    cases part with
    | nested n => rw [List.filter_cons_of_pos (by rfl), assemble, assemble, ih]
    | line l =>
      by_cases hblank : l.isBlank
      · rw [List.filter_cons_of_neg (by simp [isBlank, hblank]), ih, assemble, if_pos hblank]
      · rw [List.filter_cons_of_pos (by simp [isBlank, hblank]), assemble, assemble,
          groupsAhead_filter, ih]
        simp only [ih]

end Part

mutual

theorem Entry.parts_filled : (e : Entry) → e.Headed → (rest : List Entry) →
    Outline.parts ((e.filterMap Line.filled?).toList ++ rest) =
      [e.part].filter (!·.isBlank) ++ Outline.parts rest
  | .line l, _, _ => by
    by_cases hblank : l.isBlank
    · simp [Entry.filterMap, Line.filled?, hblank, Entry.part, Part.isBlank]
    · simp [Entry.filterMap, Line.filled?, hblank, Outline.parts, Entry.part, Part.isBlank]
  | .group entries, ⟨hstarts, hheaded⟩, _ => by
    -- A group starts with a line that has items, so its first line stays.
    have hfirst : Outline.firstLine (Outline.filterMap Line.filled? entries) =
        Outline.firstLine entries := by
      obtain ⟨l, rest, rfl, hitems⟩ := hstarts
      have hl : l.filled? = some l := if_neg (by simp [Row.isBlank_of_isSubstantial hitems])
      simp [Outline.filterMap, Entry.filterMap, hl, Outline.firstLine]
    have hblock := Part.assemble_filter false (Outline.parts entries)
    rw [← Outline.parts_filled entries hheaded] at hblock
    simp [Entry.filterMap, Outline.parts, Entry.part, Part.isBlank, hfirst, hblock]

theorem Outline.parts_filled : (es : List Entry) → Outline.Headed es →
    Outline.parts (Outline.filterMap Line.filled? es) =
      (Outline.parts es).filter (!·.isBlank)
  | [], _ => rfl
  | e :: es, ⟨he, hes⟩ => by
    rw [Outline.filterMap, Entry.parts_filled e he, Outline.parts_filled es hes, Outline.parts,
      ← List.filter_append, List.singleton_append]

end

/-- Blank lines do not affect the block that an outline spells. -/
theorem Outline.block_filled {o : Outline} (h : Outline.Headed o) :
    Outline.block (Outline.filterMap Line.filled? o) = o.block := by
  rw [Outline.block, Outline.parts_filled o h, Part.assemble_filter, Outline.block]

/-! Lines and the blocks they spell. -/

/-- Groups and assembles lines. -/
def Block.ofLines (ls : List Line) : Except ParseError Block := do
  let outline ← (Outline.ofLines ls).mapError .indent
  outline.block.mapError .syntaxError

theorem Block.parse_eq_bind (source : String) :
    Block.parse source = (Line.readAll source).mapError .line >>= Block.ofLines := by
  rw [Block.parse, Outline.read]
  cases Line.readAll source with
  | error e => rfl
  | ok ls => rfl

/-- Blank lines do not matter. Without them, lines give the same block or the same error. -/
theorem Block.ofLines_ignores_blank_lines (ls : List Line) :
    Block.ofLines (ls.filter (!·.isBlank)) = Block.ofLines ls := by
  rw [Block.ofLines, ← Line.filterMap_filled?, Outline.ofLines_filled, Block.ofLines]
  cases hgroup : Outline.ofLines ls with
  | error e => rfl
  | ok o =>
    have hheaded : Outline.Headed o := (Outline.ofLines_eq_ok hgroup).2
    exact congrArg (Except.mapError ParseError.syntaxError) (Outline.block_filled hheaded)

end Stacklet
