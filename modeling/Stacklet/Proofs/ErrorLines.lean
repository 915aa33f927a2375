import Stacklet.Proofs.Depth
import Stacklet.Proofs.Regrouping
import Stacklet.Proofs.Truncation

/-!
The lines that errors name. Reading and grouping fail at the first line that cannot be read or
placed. Building looks ahead, and what it reports it may know from later lines only; still, the
lines before the one it names can all be built, up to a group that is missing because it comes
later.
-/

namespace Stacklet

/-! Reading. -/

namespace Line

theorem line_of_read_eq_error {number : Nat} {text : String} {e : LineError}
    (h : read number text = .error e) : e.line = number := by
  unfold read at h
  split at h
  · cases h
    rfl
  · simp only at h
    split at h
    · cases h
    · cases h
      rfl

/-- Reading stops at the first text that is no line. -/
theorem readFrom_eq_error {number : Nat} {texts : List String} {e : LineError}
    (h : readFrom number texts = .error e) :
    ∃ before text after, texts = before ++ text :: after ∧
      (∃ ls, readFrom number before = .ok ls) ∧ read (number + before.length) text = .error e := by
  induction texts generalizing number with
  | nil => cases h
  | cons text texts ih =>
    rw [readFrom, Except.bind_eq_error_iff] at h
    rcases h with hread | ⟨l, hl, h⟩
    · exact ⟨[], text, texts, rfl, ⟨[], rfl⟩, hread⟩
    · rw [Except.bind_eq_error_iff] at h
      rcases h with hrest | ⟨rest, -, h⟩
      · obtain ⟨before, other, after, rfl, ⟨ls, hls⟩, hother⟩ := ih hrest
        refine ⟨text :: before, other, after, rfl, ⟨l :: ls, ?_⟩, ?_⟩
        · rw [readFrom, hl, hls]
          rfl
        · rw [List.length_cons, ← Nat.add_assoc, Nat.add_right_comm]
          exact hother
      · cases h

theorem length_of_readFrom {number : Nat} {texts : List String} {ls : List Line}
    (h : readFrom number texts = .ok ls) : ls.length = texts.length := by
  induction texts generalizing number ls with
  | nil =>
    cases h
    rfl
  | cons text texts ih =>
    rw [readFrom, Except.bind_eq_ok_iff] at h
    obtain ⟨l, -, h⟩ := h
    obtain ⟨rest, hrest, h⟩ := Except.bind_eq_ok_iff.mp h
    cases h
    rw [List.length_cons, ih hrest, List.length_cons]

/-- A line is numbered by how many lines come before it. -/
theorem number_of_readAll {source : String} {before after : List Line} {l : Line}
    (h : readAll source = .ok (before ++ l :: after)) : l.number = before.length + 1 := by
  have hnumbers := congrArg (·[before.length]?) (numbers_of_readFrom h)
  simp at hnumbers
  omega

end Line

/-! Grouping. -/

/-- The number of the line that an error names. -/
def IndentError.line : IndentError → Nat
  | .odd line _ | .unexpected line _ _ => line

theorem Line.line_indentError (d : Nat) (l : Line) : (l.indentError d).line = l.number := by
  unfold Line.indentError
  split
  · rfl
  · rfl

/-- Grouping stops at the first line that has no place. -/
theorem Outline.ofLines_eq_error {ls : List Line} {e : IndentError}
    (h : Outline.ofLines ls = .error e) :
    ∃ before l after, ls = before ++ l :: after ∧ l.isSubstantial ∧ e.line = l.number ∧
      (∃ o, Outline.ofLines before = .ok o) ∧ Outline.ofLines (before ++ [l]) = .error e := by
  have hbad : ¬ Line.WellIndented 0 ls := by
    intro hwell
    obtain ⟨o, ho, -⟩ := exists_ofLines hwell
    rw [ho] at h
    cases h
  obtain ⟨before, l, after, rfl, hbefore, hl⟩ := exists_first_misindented hbad
  rw [ofLines_of_misindented hbefore hl] at h
  cases h
  obtain ⟨o, ho, -⟩ := exists_ofLines hbefore
  exact ⟨before, l, after, rfl, hl.1, Line.line_indentError _ l, ⟨o, ho⟩,
    ofLines_of_misindented hbefore hl⟩

/-! Building. -/

theorem Block.ofLines_of_outline {ls : List Line} {o : Outline} (h : Outline.ofLines ls = .ok o) :
    Block.ofLines ls = o.block.mapError .syntaxError := by
  rw [Block.ofLines, h]
  rfl

namespace Outline

/-- An error is always at a line with items. -/
theorem names_of_block_eq_error {ls : List Line} {o : Outline} {e : SyntaxError}
    (ho : Outline.ofLines ls = .ok o) (he : o.block = .error e) : Names o e := by
  have hheaded := (ofLines_eq_ok ho).2
  rcases foretoldByCuts hheaded (indented_of_ofLines ho) o hheaded (.refl o) e he with
    ⟨e', he', hnames⟩ | ⟨-, hoff⟩
  · rw [he] at he'
    cases he'
    exact hnames
  · exact absurd hoff.length_lt (Nat.lt_irrefl _)

end Outline

/-- If an outline fails at a line that is not among the first ones, then these spell a block, or
they end where the group of a line should begin. -/
theorem Block.ofLines_before_error {first rest : List Line} {o : Outline} {e : SyntaxError}
    (ho : Outline.ofLines (first ++ rest) = .ok o) (he : o.block = .error e)
    (hlater : ∀ l ∈ first, l.number ≠ e.line) :
    (∃ b, Block.ofLines first = .ok b) ∨
      ∃ number, Block.ofLines first = .error (.syntaxError ⟨number, .missingBlock⟩) ∧
        Line.CutOff first (first ++ rest) number := by
  obtain ⟨p, hp, hcut⟩ := Outline.exists_cut_of_ofLines ho
  obtain ⟨hlines, hheaded⟩ := Outline.ofLines_eq_ok hp
  obtain ⟨hlines', hheaded'⟩ := Outline.ofLines_eq_ok ho
  rw [Block.ofLines_of_outline hp]
  cases hblock : p.block with
  | ok b => exact .inl ⟨b, rfl⟩
  | error e₁ =>
    rcases Outline.foretoldByCuts hheaded' (Outline.indented_of_ofLines ho) p hheaded hcut e₁
      hblock with ⟨e', he', l, hl, -, hnumber⟩ | ⟨hfault, hoff⟩
    · rw [he] at he'
      cases he'
      rw [hlines] at hl
      exact absurd hnumber (hlater l hl)
    · obtain ⟨number, fault⟩ := e₁
      obtain rfl : fault = .missingBlock := hfault
      rw [hlines, hlines'] at hoff
      exact .inr ⟨number, rfl, hoff⟩

/-! Sources. -/

namespace ParseError

def lineNumber : ParseError → Nat
  | .line e => e.line
  | .indent e => e.line
  | .syntaxError e => e.line

/-- What an error tells about the line that it names and the lines before it. -/
def Locates (source : String) : ParseError → Prop
  | .line e => ∃ before text after, Text.lines source = before ++ text :: after ∧
      e.line = before.length + 1 ∧ (∃ ls, Line.readFrom 1 before = .ok ls) ∧
      Line.read e.line text = .error e
  | .indent e => ∃ before l after, Line.readAll source = .ok (before ++ l :: after) ∧
      e.line = before.length + 1 ∧ l.isSubstantial ∧ (∃ o, Outline.ofLines before = .ok o) ∧
      Outline.ofLines (before ++ [l]) = .error e
  | .syntaxError e => ∃ before l after, Line.readAll source = .ok (before ++ l :: after) ∧
      e.line = before.length + 1 ∧ l.isSubstantial ∧
      (∃ o, Outline.ofLines (before ++ l :: after) = .ok o) ∧
      ∀ first, first <+: before → (∃ b, Block.ofLines first = .ok b) ∨
        ∃ number, Block.ofLines first = .error (.syntaxError ⟨number, .missingBlock⟩) ∧
          Line.CutOff first (before ++ l :: after) number

variable {source : String}

theorem locates_line {e : LineError} (h : Line.readAll source = .error e) :
    Locates source (.line e) := by
  obtain ⟨before, text, after, hlines, hbefore, htext⟩ := Line.readFrom_eq_error h
  have hline := Line.line_of_read_eq_error htext
  refine ⟨before, text, after, hlines, hline.trans (Nat.add_comm ..), hbefore, ?_⟩
  rw [hline]
  exact htext

theorem locates_indent {ls : List Line} {e : IndentError} (hread : Line.readAll source = .ok ls)
    (h : Outline.ofLines ls = .error e) : Locates source (.indent e) := by
  obtain ⟨before, l, after, rfl, hitems, hline, hbefore, hl⟩ := Outline.ofLines_eq_error h
  exact ⟨before, l, after, hread, hline.trans (Line.number_of_readAll hread), hitems, hbefore, hl⟩

theorem locates_syntaxError {ls : List Line} {o : Outline} {e : SyntaxError}
    (hread : Line.readAll source = .ok ls) (ho : Outline.ofLines ls = .ok o)
    (h : o.block = .error e) : Locates source (.syntaxError e) := by
  obtain ⟨l, hl, hitems, hnumber⟩ := Outline.names_of_block_eq_error ho h
  rw [(Outline.ofLines_eq_ok ho).1] at hl
  obtain ⟨before, after, rfl⟩ := List.append_of_mem hl
  have hline : e.line = before.length + 1 := hnumber.symm.trans (Line.number_of_readAll hread)
  refine ⟨before, l, after, hread, hline, hitems, ⟨o, ho⟩, ?_⟩
  rintro first ⟨between, rfl⟩
  rw [List.append_assoc] at hread ho ⊢
  refine Block.ofLines_before_error ho h ?_
  -- The lines are numbered one by one, so none of the first has the number of the error.
  intro m hm hsame
  obtain ⟨front, back, rfl⟩ := List.append_of_mem hm
  rw [List.append_assoc, List.cons_append] at hread
  have hm := Line.number_of_readAll hread
  simp only [List.length_append, List.length_cons] at hline
  omega

theorem Locates.lineNumber_mem {e : ParseError} (h : e.Locates source) :
    1 ≤ e.lineNumber ∧ e.lineNumber ≤ (Text.lines source).length := by
  have hbounds {α : Type} {before after all : List α} {x : α} {number : Nat}
      (hall : all = before ++ x :: after) (hnumber : number = before.length + 1) :
      1 ≤ number ∧ number ≤ all.length := by
    rw [hall, List.length_append, List.length_cons]
    omega
  cases e with
  | line e =>
    obtain ⟨before, text, after, hlines, hline, -⟩ := h
    exact hbounds hlines hline
  | indent e | syntaxError e =>
    obtain ⟨before, l, after, hread, hline, -⟩ := h
    rw [← Line.length_of_readFrom hread]
    exact hbounds rfl hline

end ParseError

/-- An error names the first line at fault. It is a line of the source, and only the group of an
earlier line can be missing before it. -/
theorem Block.parse_error_names_first_fault {source : String} {e : ParseError}
    (h : Block.parse source = .error e) :
    1 ≤ e.lineNumber ∧ e.lineNumber ≤ (Text.lines source).length ∧ e.Locates source := by
  rw [← and_assoc]
  suffices hlocates : e.Locates source from ⟨hlocates.lineNumber_mem, hlocates⟩
  rw [Block.parse_eq_bind, Except.bind_eq_error_iff] at h
  rcases h with hread | ⟨ls, hread, h⟩
  · obtain ⟨e, he, rfl⟩ := Except.mapError_eq_error_iff.mp hread
    exact ParseError.locates_line he
  rw [Except.mapError_eq_ok_iff] at hread
  rw [Block.ofLines, Except.bind_eq_error_iff] at h
  rcases h with hgroup | ⟨o, ho, h⟩
  · obtain ⟨e, he, rfl⟩ := Except.mapError_eq_error_iff.mp hgroup
    exact ParseError.locates_indent hread he
  · rw [Except.mapError_eq_ok_iff] at ho
    obtain ⟨e, he, rfl⟩ := Except.mapError_eq_error_iff.mp h
    exact ParseError.locates_syntaxError hread ho he

/-- The line that takes `z` has a value before it, and a second group follows. It is at fault,
though the items of the last line are too; before it, only the group of the first line is
missing. -/
theorem Block.parse_error_before_later_fault :
    Block.parse "f >>\n--a\n  x = y :\n    z\n  --b\n    u = =\n" =
        .error (.syntaxError ⟨3, .inlineAndNestedBlock⟩) ∧
      ParseError.Locates "f >>\n--a\n  x = y :\n    z\n  --b\n    u = =\n"
        (.syntaxError ⟨3, .inlineAndNestedBlock⟩) := by
  have hparse : Block.parse "f >>\n--a\n  x = y :\n    z\n  --b\n    u = =\n" =
      .error (.syntaxError ⟨3, .inlineAndNestedBlock⟩) := by
    decide +kernel
  exact ⟨hparse, (Block.parse_error_names_first_fault hparse).2.2⟩

end Stacklet
