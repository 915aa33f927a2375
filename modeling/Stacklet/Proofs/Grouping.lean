import Stacklet.Outline
import Stacklet.Proofs.Lexing

/-!
Grouping lines. Grouping keeps every line in its place, and a nested group starts with a line that
has items. Lines indented as their levels ask for are grouped as their nesting says.
-/

namespace Stacklet

theorem Row.isBlank_of_isSubstantial {r : Row} (h : r.isSubstantial) : r.isBlank = false := by
  have hempty : r.items.isEmpty = false := by simpa [Row.isSubstantial] using h
  simp [Row.isBlank, hempty]

theorem Row.isComment_of_isSubstantial {r : Row} (h : r.isSubstantial) : r.isComment = false := by
  have hempty : r.items.isEmpty = false := by simpa [Row.isSubstantial] using h
  simp [Row.isComment, hempty]

theorem Row.isComment_iff {r : Row} : r.isComment ↔ r.items = [] ∧ r.comment.isSome := by
  simp [Row.isComment]

theorem Row.isBlank_of_isComment {r : Row} (h : r.isComment) : r.isBlank = false := by
  simp [Row.isBlank, (Row.isComment_iff.mp h).2]

/-- Every row is one of three kinds. -/
theorem Row.isSubstantial_of_not {r : Row} (hblank : ¬ r.isBlank) (hcomment : ¬ r.isComment) :
    r.isSubstantial := by
  unfold Row.isBlank at hblank
  unfold Row.isComment at hcomment
  unfold Row.isSubstantial
  cases hi : r.items.isEmpty with
  | false => rfl
  | true =>
    cases hc : r.comment with
    | none => simp [hi, hc] at hblank
    | some text => simp [hi, hc] at hcomment

theorem Row.isComment_of_not {r : Row} (hblank : ¬ r.isBlank) (hitems : ¬ r.isSubstantial) :
    r.isComment := by
  by_contra hcomment
  exact hitems (Row.isSubstantial_of_not hblank hcomment)

namespace Outline

theorem lines_append (es fs : List Entry) :
    Outline.lines (es ++ fs) = Outline.lines es ++ Outline.lines fs := by
  induction es with
  | nil => rfl
  | cons e es ih => rw [List.cons_append, Outline.lines, Outline.lines, ih, List.append_assoc]

/-- Whether a group starts with a line that has items. -/
def Starts (es : List Entry) : Prop := ∃ l rest, es = .line l :: rest ∧ l.isSubstantial

theorem Starts.append {es : List Entry} (h : Starts es) (fs : List Entry) : Starts (es ++ fs) := by
  obtain ⟨l, rest, rfl, hl⟩ := h
  exact ⟨l, rest ++ fs, rfl, hl⟩

end Outline

mutual

/-- All groups in the entry, itself included, start with a line that has items. -/
def Entry.Headed : Entry → Prop
  | .line _ => True
  | .group entries => Outline.Starts entries ∧ Outline.Headed entries

def Outline.Headed : List Entry → Prop
  | [] => True
  | e :: entries => e.Headed ∧ Outline.Headed entries

end

mutual

/-- Lines with items are indented as the level asks for at which they stand. -/
def Entry.Indented (level : Nat) : Entry → Prop
  | .line l => l.isSubstantial → l.indent = 2 * level
  | .group entries => Outline.Indented (level + 1) entries

def Outline.Indented (level : Nat) : List Entry → Prop
  | [] => True
  | e :: entries => e.Indented level ∧ Outline.Indented level entries

end

theorem Outline.indented_iff {level : Nat} {es : List Entry} :
    Outline.Indented level es ↔ ∀ e ∈ es, e.Indented level := by
  induction es with
  | nil => simp [Outline.Indented]
  | cons e es ih => simp [Outline.Indented, ih]

theorem Outline.headed_iff {es : List Entry} : Outline.Headed es ↔ ∀ e ∈ es, e.Headed := by
  induction es with
  | nil => simp [Outline.Headed]
  | cons e es ih => simp [Outline.Headed, ih]

namespace Outline.Groups

/-! Closing groups. -/

/-- Closes the groups above a level. -/
def closeTo (g : Groups) (level : Nat) : Groups := closeMany (g.depth - level) g

theorem depth_close (g : Groups) : g.close.depth = g.depth - 1 := by
  unfold close
  split
  · rename_i h
    simp [depth, h]
  · rename_i h
    simp [depth, h]

theorem depth_closeMany (n : Nat) (g : Groups) : (closeMany n g).depth = g.depth - n := by
  induction n generalizing g with
  | zero => rfl
  | succ n ih =>
    rw [closeMany, ih, depth_close]
    omega

theorem closeMany_succ (n : Nat) (g : Groups) : closeMany (n + 1) g = (closeMany n g).close := by
  induction n generalizing g with
  | zero => rfl
  | succ n ih => rw [closeMany, ih, closeMany]

theorem depth_closeTo {g : Groups} {level : Nat} (h : level ≤ g.depth) :
    (g.closeTo level).depth = level := by
  rw [closeTo, depth_closeMany]
  omega

theorem closeTo_eq_self {g : Groups} {level : Nat} (h : g.depth = level) : g.closeTo level = g := by
  rw [closeTo, h, Nat.sub_self]
  rfl

theorem closeTo_eq_close {g : Groups} {level : Nat} (h : level + 1 ≤ g.depth) :
    g.closeTo level = (g.closeTo (level + 1)).close := by
  have hcount : g.depth - level = g.depth - (level + 1) + 1 := by omega
  rw [closeTo, hcount, closeMany_succ]
  rfl

@[simp] theorem depth_push (g : Groups) (e : Entry) : (g.push e).depth = g.depth := rfl

/-- What every operation on the groups keeps is kept by closing many of them. -/
theorem closeMany_induction {P : Groups → Prop} (hclose : ∀ g, P g → P g.close) (n : Nat)
    {g : Groups} (h : P g) : P (closeMany n g) := by
  induction n generalizing g with
  | zero => exact h
  | succ n ih => exact ih (hclose g h)

/-! Adding a line. -/

theorem place_of_le {g : Groups} {level : Nat} (h : level ≤ g.depth) (l : Line) :
    g.place level l = (g.closeTo level).push (.line l) := by
  rw [place, if_neg (by omega)]
  rfl

theorem place_of_lt {g : Groups} {level : Nat} (h : g.depth < level) (l : Line) :
    g.place level l = ⟨[.line l], g.inner :: g.outer⟩ := by
  rw [place, if_pos h]

/-- A line stays with the innermost group, closes groups, or opens one if it has items. A line with
items is put at the level that its indent says. -/
theorem add_cases {g g' : Groups} {l : Line} (h : g.add l = .ok g') :
    (∃ level ≤ g.depth, (l.isSubstantial → l.indent = 2 * level) ∧
        g' = (g.closeTo level).push (.line l)) ∨
      l.isSubstantial ∧ l.indent = 2 * (g.depth + 1) ∧ g' = ⟨[.line l], g.inner :: g.outer⟩ := by
  unfold add at h
  split at h
  · rename_i hblank
    cases h
    refine .inl ⟨g.depth, Nat.le_refl _, fun hitems => ?_, by rw [closeTo_eq_self rfl]⟩
    rw [Row.isBlank_of_isSubstantial hitems] at hblank
    cases hblank
  · rename_i hblank
    split at h
    -- A comment is placed no deeper than the groups that are open.
    · rename_i hcomment
      cases h
      refine .inl ⟨_, Nat.min_le_left _ _, fun hitems => ?_, place_of_le (Nat.min_le_left _ _) l⟩
      rw [Row.isComment_of_isSubstantial hitems] at hcomment
      cases hcomment
    · rename_i hcomment
      have hitems : l.isSubstantial := Row.isSubstantial_of_not hblank hcomment
      split at h
      · cases h
      · rename_i heven
        split at h
        · cases h
        · cases h
          by_cases hdepth : g.depth < l.indent / 2
          · exact .inr ⟨hitems, by omega, place_of_lt hdepth l⟩
          · have hle : l.indent / 2 ≤ g.depth := Nat.not_lt.mp hdepth
            exact .inl ⟨_, hle, fun _ => by omega, place_of_le hle l⟩

theorem add_eq_push {g : Groups} {l : Line} {level : Nat} (hblank : l.isBlank = false)
    (hindent : l.indent = 2 * level) (hlevel : level ≤ g.depth) :
    g.add l = .ok ((g.closeTo level).push (.line l)) := by
  have hhalf : l.indent / 2 = level := by omega
  unfold add
  rw [if_neg (by simp [hblank]), hhalf, Nat.min_eq_right hlevel, place_of_le hlevel]
  split
  · rfl
  · rw [if_neg (by omega), if_neg (by omega)]

theorem add_eq_open {g : Groups} {l : Line} (hitems : l.isSubstantial)
    (hindent : l.indent = 2 * (g.depth + 1)) :
    g.add l = .ok ⟨[.line l], g.inner :: g.outer⟩ := by
  have hhalf : l.indent / 2 = g.depth + 1 := by omega
  unfold add
  rw [if_neg (by simp [Row.isBlank_of_isSubstantial hitems]),
    if_neg (by simp [Row.isComment_of_isSubstantial hitems]), if_neg (by omega),
    if_neg (by omega), hhalf, place_of_lt (Nat.lt_succ_self _)]

/-! What every run keeps. -/

/-- The lines of the open groups, in order. -/
def lines (g : Groups) : List Line :=
  (g.outer.reverse.flatMap fun es => Outline.lines es.reverse) ++ Outline.lines g.inner.reverse

theorem lines_push (g : Groups) (e : Entry) : (g.push e).lines = g.lines ++ e.lines := by
  simp [lines, push, Outline.lines_append, Outline.lines]

theorem lines_close (g : Groups) : g.close.lines = g.lines := by
  unfold close
  split
  · rfl
  · rename_i parent outer h
    simp [lines, h, Outline.lines_append, Outline.lines, Entry.lines]

theorem lines_closeMany (n : Nat) (g : Groups) : (closeMany n g).lines = g.lines :=
  closeMany_induction (P := fun g' => g'.lines = g.lines)
    (fun g' hg' => (lines_close g').trans hg') n rfl

theorem lines_add {g g' : Groups} {l : Line} (h : g.add l = .ok g') :
    g'.lines = g.lines ++ [l] := by
  rcases add_cases h with ⟨level, -, -, rfl⟩ | ⟨-, -, rfl⟩
  · rw [lines_push, closeTo, lines_closeMany]
    rfl
  · simp [lines, Outline.lines, Entry.lines]

/-- Every group is headed, and so will be the open ones above the root. -/
def HeadedFrom (inner : List Entry) : List (List Entry) → Prop
  | [] => ∀ e ∈ inner, e.Headed
  | parent :: outer => (∀ e ∈ inner, e.Headed) ∧ Starts inner.reverse ∧ HeadedFrom parent outer

def Headed (g : Groups) : Prop := HeadedFrom g.inner g.outer

theorem HeadedFrom.inner {inner : List Entry} {outer : List (List Entry)}
    (h : HeadedFrom inner outer) : ∀ e ∈ inner, e.Headed := by
  cases outer with
  | nil => exact h
  | cons parent outer => exact h.1

theorem HeadedFrom.cons {inner : List Entry} {outer : List (List Entry)} {e : Entry}
    (h : HeadedFrom inner outer) (he : e.Headed) : HeadedFrom (e :: inner) outer := by
  have hinner : ∀ d ∈ e :: inner, d.Headed := by
    intro d hd
    rcases List.mem_cons.mp hd with rfl | hd
    · exact he
    · exact h.inner d hd
  cases outer with
  | nil => exact hinner
  | cons parent outer =>
    obtain ⟨-, hstarts, hparent⟩ := h
    -- The new entry comes last, so the group starts as it did.
    refine ⟨hinner, ?_, hparent⟩
    rw [List.reverse_cons]
    exact hstarts.append [e]

theorem Headed.close {g : Groups} (h : g.Headed) : g.close.Headed := by
  obtain ⟨inner, outer⟩ := g
  cases outer with
  | nil => exact h
  | cons parent outer =>
    obtain ⟨hinner, hstarts, hparent⟩ := h
    refine HeadedFrom.cons hparent ⟨hstarts, ?_⟩
    rw [Outline.headed_iff]
    intro e he
    exact hinner e (List.mem_reverse.mp he)

theorem Headed.add {g g' : Groups} {l : Line} (h : g.Headed) (hadd : g.add l = .ok g') :
    g'.Headed := by
  rcases add_cases hadd with ⟨level, -, -, rfl⟩ | ⟨hitems, -, rfl⟩
  · exact HeadedFrom.cons (closeMany_induction (P := Headed) (fun _ => Headed.close) _ h) trivial
  · refine ⟨?_, ⟨l, [], rfl, hitems⟩, h⟩
    intro e he
    obtain rfl := List.mem_singleton.mp he
    trivial

/-- Every open group has its lines at its level. -/
def IndentedFrom (inner : List Entry) : List (List Entry) → Prop
  | [] => ∀ e ∈ inner, e.Indented 0
  | parent :: outer =>
    (∀ e ∈ inner, e.Indented (outer.length + 1)) ∧ IndentedFrom parent outer

def Indented (g : Groups) : Prop := IndentedFrom g.inner g.outer

theorem IndentedFrom.inner {inner : List Entry} {outer : List (List Entry)}
    (h : IndentedFrom inner outer) : ∀ e ∈ inner, e.Indented outer.length := by
  cases outer with
  | nil => exact h
  | cons parent outer => exact h.1

theorem IndentedFrom.cons {inner : List Entry} {outer : List (List Entry)} {e : Entry}
    (h : IndentedFrom inner outer) (he : e.Indented outer.length) :
    IndentedFrom (e :: inner) outer := by
  have hinner : ∀ d ∈ e :: inner, d.Indented outer.length :=
    List.forall_mem_cons.mpr ⟨he, h.inner⟩
  cases outer with
  | nil => exact hinner
  | cons parent outer => exact ⟨hinner, h.2⟩

theorem Indented.close {g : Groups} (h : g.Indented) : g.close.Indented := by
  obtain ⟨inner, outer⟩ := g
  cases outer with
  | nil => exact h
  | cons parent outer =>
    obtain ⟨hinner, hparent⟩ := h
    refine IndentedFrom.cons hparent (Outline.indented_iff.mpr ?_)
    intro e he
    exact hinner e (List.mem_reverse.mp he)

theorem Indented.add {g g' : Groups} {l : Line} (h : g.Indented) (hadd : g.add l = .ok g') :
    g'.Indented := by
  rcases add_cases hadd with ⟨level, hlevel, hindent, rfl⟩ | ⟨-, hindent, rfl⟩
  · have hclosed : (g.closeTo level).Indented :=
      closeMany_induction (P := Indented) (fun _ => Indented.close) _ h
    have hdepth : (g.closeTo level).outer.length = level := depth_closeTo hlevel
    have hline : Entry.Indented (g.closeTo level).outer.length (.line l) := by
      rw [hdepth]
      exact hindent
    exact IndentedFrom.cons hclosed hline
  · refine ⟨?_, h⟩
    intro e he
    obtain rfl := List.mem_singleton.mp he
    exact fun _ => hindent

end Outline.Groups

namespace Outline

open Groups

theorem foldlM_add {ls : List Line} {g g' : Groups} (h : ls.foldlM Groups.add g = .ok g') :
    g'.lines = g.lines ++ ls ∧ (g.Headed → g'.Headed) := by
  induction ls generalizing g with
  | nil =>
    cases h
    simp
  | cons l ls ih =>
    rw [List.foldlM_cons] at h
    obtain ⟨g₁, hadd, hrest⟩ := Except.bind_eq_ok_iff.mp h
    obtain ⟨hlines, hheaded⟩ := ih hrest
    constructor
    · rw [hlines, lines_add hadd, List.append_assoc, List.singleton_append]
    · exact fun hg => hheaded (hg.add hadd)

/-- Grouping neither loses nor moves a line, and nested groups start with a line with items. -/
theorem ofLines_eq_ok {ls : List Line} {o : Outline} (h : Outline.ofLines ls = .ok o) :
    Outline.lines o = ls ∧ Outline.Headed o := by
  obtain ⟨g, hfold, rfl⟩ := Except.map_eq_ok_iff.mp h
  obtain ⟨hlines, hheaded⟩ := foldlM_add hfold
  have hclosed : (closeMany g.depth g).outer = [] := by
    rw [← List.length_eq_zero_iff]
    show (closeMany g.depth g).depth = 0
    rw [depth_closeMany, Nat.sub_self]
  constructor
  · have hkept := lines_closeMany g.depth g
    rw [hlines, Groups.lines, hclosed] at hkept
    simpa [Groups.lines, Outline.lines, finish] using hkept
  · have hstart : Groups.Headed ⟨[], []⟩ := by
      intro e he
      simp at he
    have hkept := closeMany_induction (P := Groups.Headed) (fun _ => Headed.close) g.depth
      (hheaded hstart)
    rw [Outline.headed_iff]
    intro e he
    exact HeadedFrom.inner hkept e (List.mem_reverse.mp he)

theorem Groups.Indented.foldlM {ls : List Line} {g g' : Groups} (hg : g.Indented)
    (h : ls.foldlM Groups.add g = .ok g') : g'.Indented := by
  induction ls generalizing g with
  | nil =>
    cases h
    exact hg
  | cons l ls ih =>
    rw [List.foldlM_cons] at h
    obtain ⟨g₁, hadd, hrest⟩ := Except.bind_eq_ok_iff.mp h
    exact ih (hg.add hadd) hrest

/-- Lines with items stand at the level that their indent says. -/
theorem indented_of_ofLines {ls : List Line} {o : Outline} (h : Outline.ofLines ls = .ok o) :
    Outline.Indented 0 o := by
  obtain ⟨g, hadd, rfl⟩ := Except.map_eq_ok_iff.mp h
  have hstart : Groups.Indented ⟨[], []⟩ := by
    intro e he
    simp at he
  have hclosed : (closeMany g.depth g).Indented :=
    closeMany_induction (P := Groups.Indented) (fun _ => Indented.close) _ (hstart.foldlM hadd)
  have hdepth : (closeMany g.depth g).outer.length = 0 := by
    show (closeMany g.depth g).depth = 0
    rw [depth_closeMany, Nat.sub_self]
  have hinner := hclosed.inner
  rw [hdepth] at hinner
  rw [Outline.indented_iff]
  intro e he
  exact hinner e (List.mem_reverse.mp he)

/-! Lines that are indented as their levels ask for. -/

def Groups.pushAll (g : Groups) (es : List Entry) : Groups :=
  { g with inner := es.reverse ++ g.inner }

/-- Whatever is open at the level, the lines add the entries to it. -/
def Takes (level : Nat) (ls : List Line) (es : List Entry) : Prop :=
  ∀ g : Groups, level ≤ g.depth → ∃ g', ls.foldlM Groups.add g = .ok g' ∧ level ≤ g'.depth ∧
    g'.closeTo level = (g.closeTo level).pushAll es

theorem Takes.nil (level : Nat) : Takes level [] [] := fun g hg => ⟨g, rfl, hg, rfl⟩

theorem Takes.append {level : Nat} {ls ms : List Line} {es fs : List Entry}
    (hls : Takes level ls es) (hms : Takes level ms fs) : Takes level (ls ++ ms) (es ++ fs) := by
  intro g hg
  obtain ⟨g₁, hfold₁, hg₁, hclose₁⟩ := hls g hg
  obtain ⟨g₂, hfold₂, hg₂, hclose₂⟩ := hms g₁ hg₁
  refine ⟨g₂, ?_, hg₂, ?_⟩
  · rw [List.foldlM_append, hfold₁]
    exact hfold₂
  · rw [hclose₂, hclose₁]
    simp [Groups.pushAll]

theorem Takes.line {level : Nat} {l : Line} (hblank : l.isBlank = false)
    (hindent : l.indent = 2 * level) : Takes level [l] [.line l] := by
  intro g hg
  have hdepth : ((g.closeTo level).push (.line l)).depth = level := by
    rw [depth_push, depth_closeTo hg]
  refine ⟨(g.closeTo level).push (.line l), ?_, Nat.le_of_eq hdepth.symm, ?_⟩
  · rw [List.foldlM_cons, add_eq_push hblank hindent hg]
    rfl
  · rw [closeTo_eq_self hdepth]
    rfl

/-- Lines one level deeper than the one before them become a group after it. -/
theorem Takes.nested {level : Nat} {header first : Line} {ls : List Line} {es : List Entry}
    (hblank : header.isBlank = false) (hindent : header.indent = 2 * level)
    (hitems : first.isSubstantial) (hfirst : first.indent = 2 * (level + 1))
    (hls : Takes (level + 1) (first :: ls) es) :
    Takes level (header :: first :: ls) [.line header, .group es] := by
  intro g hg
  have hadd : g.add header = .ok ((g.closeTo level).push (.line header)) :=
    add_eq_push hblank hindent hg
  -- Opening the group with its first line is the same as adding that line to an empty open group.
  let base := (g.closeTo level).push (.line header)
  let opened : Groups := ⟨[], base.inner :: base.outer⟩
  have hbase : base.depth = level := by rw [depth_push, depth_closeTo hg]
  have hopened : opened.depth = level + 1 := by rw [← hbase]; rfl
  have hsame : base.add first = opened.add first := by
    rw [add_eq_open hitems (by rw [hbase, hfirst]),
      add_eq_push (Row.isBlank_of_isSubstantial hitems) hfirst (by rw [hopened]),
      closeTo_eq_self hopened]
    rfl
  obtain ⟨g', hfold, hdepth, hclose⟩ := hls opened (by rw [hopened])
  refine ⟨g', ?_, by omega, ?_⟩
  · rw [List.foldlM_cons, hadd]
    show (first :: ls).foldlM Groups.add base = .ok g'
    rw [List.foldlM_cons, hsame, ← List.foldlM_cons]
    exact hfold
  · rw [closeTo_eq_close hdepth, hclose, closeTo_eq_self hopened]
    simp [Groups.pushAll, Groups.close, opened, base, Groups.push]

theorem Takes.ofLines {ls : List Line} {es : List Entry} (h : Takes 0 ls es) :
    Outline.ofLines ls = .ok es := by
  obtain ⟨g, hfold, -, hclose⟩ := h ⟨[], []⟩ (Nat.zero_le _)
  have hfinish : g.finish = es := by
    show (g.closeTo 0).inner.reverse = es
    rw [hclose]
    simp [Groups.pushAll, closeTo, Groups.depth, closeMany]
  rw [Outline.ofLines, hfold]
  exact congrArg Except.ok hfinish

end Outline

end Stacklet
