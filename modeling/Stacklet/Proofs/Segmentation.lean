import Stacklet.Proofs.Lexing

/-!
The parts of a line. A text is in one way made of white space, of lexemes with the white space after
each, and of a comment, where a word ends as soon as something else starts. A line is read from
these parts.
-/

namespace Stacklet

open Text

namespace Text

/-- White space, a marker or a comment starts here. -/
def Breaks (text : List Char) : Prop :=
  (∃ c ∈ text.head?, isSpace c ∨ c = ':' ∨ c = '=') ∨ ['-', '-'] <+: text ∨ ['>', '>'] <+: text

/-- No break starts at a character of the word, not even one that reaches past its end. -/
def Unbroken (word after : List Char) : Prop :=
  ∀ front rest, word = front ++ rest → rest ≠ [] → ¬ Breaks (rest ++ after)

/-- The count of the spaces that a text starts with. -/
def Indents (text : List Char) (count : Nat) : Prop :=
  ∃ rest, text = List.replicate count ' ' ++ rest ∧ rest.head? ≠ some ' '

/-- A tab stands in the white space that follows the leading spaces. -/
def TabIndented (text : List Char) : Prop :=
  ∃ count white rest, text = List.replicate count ' ' ++ (white ++ rest) ∧
    white.head? ≠ some ' ' ∧ (∀ c ∈ white, isSpace c) ∧ '\t' ∈ white

end Text

namespace Lexeme

def chars : Lexeme → List Char
  | marker m => m.render.toList
  | word text => text.toList

/-- A marker may stand before any text, but a word only where it ends. -/
def Precedes : Lexeme → List Char → Prop
  | marker _, _ => True
  | word text, after =>
    text.toList ≠ [] ∧ (after = [] ∨ Breaks after) ∧ Unbroken text.toList after

/-- A word stands for the atom that it is read as. -/
inductive Reads : Lexeme → Item → Prop where
  | marker {m : Marker} : Reads (.marker m) (.marker m)
  | word {text : String} {a : Atom} : Atom.ofWord text = .ok a → Reads (.word text) (.atom a)

/-- The first of the words that is no literal although it starts like one. -/
def FirstRefused (ls : List Lexeme) (e : LiteralError) : Prop :=
  ∃ before text after, ls = before ++ .word text :: after ∧
    (∀ l ∈ before, ∃ i, l.Reads i) ∧ Atom.ofWord text = .error e

end Lexeme

/-- White space, lexemes with the white space after each, and a comment. -/
structure Segmentation where
  lead : List Char
  parts : List (Lexeme × List Char)
  comment : Option String

namespace Segmentation

/-- The text of lexemes and a comment. -/
def tail : List (Lexeme × List Char) → Option String → List Char
  | [], none => []
  | [], some text => '-' :: '-' :: text.toList
  | (l, white) :: parts, comment => l.chars ++ (white ++ tail parts comment)

def text (s : Segmentation) : List Char := s.lead ++ tail s.parts s.comment

def lexemes (s : Segmentation) : List Lexeme := s.parts.map Prod.fst

/-- Each lexeme may stand before what follows, which starts with white space only. -/
def Fits : List (Lexeme × List Char) → Option String → Prop
  | [], _ => True
  | (l, white) :: parts, comment =>
    (∀ c ∈ white, isSpace c) ∧ l.Precedes (white ++ tail parts comment) ∧ Fits parts comment

structure Of (s : Segmentation) (text : List Char) : Prop where
  text_eq : s.text = text
  white : ∀ c ∈ s.lead, isSpace c
  fits : Fits s.parts s.comment

end Segmentation

/-! Breaks. -/

namespace Text

variable {c : Char} {word after text : List Char}

theorem breaks_of_isSpace (hc : isSpace c) : Breaks (c :: text) := .inl ⟨c, rfl, .inl hc⟩

theorem breaks_marker (m : Marker) : Breaks (m.render.toList ++ text) := by
  cases m with
  | assign => exact .inl ⟨'=', rfl, .inr (.inr rfl)⟩
  | method => exact .inr (.inr ⟨text, rfl⟩)
  | block => exact .inl ⟨':', rfl, .inr (.inl rfl)⟩

theorem breaks_comment : Breaks ('-' :: '-' :: text) := .inr (.inl ⟨text, rfl⟩)

/-- Where no break starts, there is an ordinary character that makes no marker with the next. -/
theorem not_breaks_cons_iff :
    ¬ Breaks (c :: text) ↔ Ordinary c ∧ ∀ d ∈ text.head?, Apart c d := by
  have hpair (a : Char) : [a, a] <+: c :: text ↔ ∃ d ∈ text.head?, c = a ∧ d = a := by
    cases text with
    | nil => simp
    | cons d rest => simp [List.cons_prefix_cons, eq_comm, and_comm]
  simp only [Breaks, hpair, Ordinary, Apart, List.head?_cons, Option.mem_some_iff, exists_eq_left']
  constructor
  · intro h
    refine ⟨⟨by simpa using fun hc => h (.inl (.inl hc)), fun hc => h (.inl (.inr (.inr hc))),
      fun hc => h (.inl (.inr (.inl hc)))⟩, fun d hd => ⟨?_, ?_⟩⟩
    · exact fun hdash => h (.inr (.inl ⟨d, hd, hdash⟩))
    · exact fun hgreater => h (.inr (.inr ⟨d, hd, hgreater⟩))
  · rintro ⟨⟨hspace, hassign, hblock⟩, hapart⟩ ((hc | hc | hc) | ⟨d, hd, hdash⟩ | ⟨d, hd, hgreater⟩)
    · rw [hspace] at hc
      cases hc
    · exact hblock hc
    · exact hassign hc
    · exact (hapart d hd).1 hdash
    · exact (hapart d hd).2 hgreater

theorem unbroken_nil : Unbroken [] after := by
  intro front rest heq hne
  exact absurd (List.append_eq_nil_iff.mp heq.symm).2 hne

theorem unbroken_cons_iff :
    Unbroken (c :: word) after ↔ ¬ Breaks (c :: (word ++ after)) ∧ Unbroken word after := by
  constructor
  · intro h
    refine ⟨h [] (c :: word) rfl (by simp), fun front rest heq hne => ?_⟩
    exact h (c :: front) rest (by rw [heq]; rfl) hne
  · rintro ⟨hc, hword⟩ front rest heq hne
    cases front with
    | nil =>
      rw [List.nil_append] at heq
      rw [← heq]
      exact hc
    | cons d front => exact hword front rest (List.cons.inj heq).2 hne

theorem Unbroken.concat (hword : Unbroken word (c :: after)) (hc : ¬ Breaks (c :: after)) :
    Unbroken (word ++ [c]) after := by
  induction word with
  | nil => exact unbroken_cons_iff.mpr ⟨hc, unbroken_nil⟩
  | cons d word ih =>
    obtain ⟨hd, hword⟩ := unbroken_cons_iff.mp hword
    refine unbroken_cons_iff.mpr ⟨?_, ih hword⟩
    simpa using hd

end Text

/-! Scanning segments. -/

namespace Lexeme

variable {word after text : List Char}

theorem scanFrom_unbroken (h : Unbroken text after) :
    scanFrom word (text ++ after) = scanFrom (text.reverse ++ word) after := by
  induction text generalizing word with
  | nil => rfl
  | cons c text ih =>
    obtain ⟨hc, htext⟩ := unbroken_cons_iff.mp h
    obtain ⟨hordinary, hapart⟩ := not_breaks_cons_iff.mp hc
    rw [List.cons_append, scanFrom_ordinary hordinary hapart, ih htext]
    simp

theorem scanFrom_isSpace {c : Char} (hc : isSpace c) :
    scanFrom word (c :: text) = .addWord word (scanFrom [] text) := by
  have hne {d : Char} (hd : isSpace d = false) : c ≠ d := by
    rintro rfl
    rw [hc] at hd
    cases hd
  rw [scanFrom_cons (hne (by decide)) (hne (by decide)), if_neg (hne (by decide)),
    if_neg (hne (by decide)), if_pos hc]

theorem scanFrom_white (h : ∀ c ∈ text, isSpace c) :
    scanFrom [] (text ++ after) = scanFrom [] after := by
  induction text with
  | nil => rfl
  | cons c text ih =>
    rw [List.cons_append, scanFrom_isSpace (h c (by simp)), ih fun d hd => h d (by simp [hd])]
    rfl

theorem scanFrom_marker (word : List Char) (m : Marker) (after : List Char) :
    scanFrom word (m.render.toList ++ after) =
      .addWord word (.add (.marker m) (scanFrom [] after)) := by
  cases m with
  | assign => exact scanFrom_cons (by decide) (by decide)
  | method => rfl
  | block => exact scanFrom_cons (by decide) (by decide)

/-- The word in progress ends where a break starts. -/
theorem scanFrom_breaks (h : after = [] ∨ Breaks after) :
    scanFrom word after = .addWord word (scanFrom [] after) := by
  rcases h with rfl | ⟨c, hc, hspace | rfl | rfl⟩ | ⟨rest, rfl⟩ | ⟨rest, rfl⟩
  · rfl
  · obtain ⟨rest, rfl⟩ := List.head?_eq_some_iff.mp hc
    rw [scanFrom_isSpace hspace, scanFrom_isSpace hspace]
    rfl
  · obtain ⟨rest, rfl⟩ := List.head?_eq_some_iff.mp hc
    exact (scanFrom_marker word .block rest).trans
      (congrArg _ (scanFrom_marker [] .block rest).symm)
  · obtain ⟨rest, rfl⟩ := List.head?_eq_some_iff.mp hc
    exact (scanFrom_marker word .assign rest).trans
      (congrArg _ (scanFrom_marker [] .assign rest).symm)
  · rfl
  · exact (scanFrom_marker word .method rest).trans
      (congrArg _ (scanFrom_marker [] .method rest).symm)

theorem Precedes.scanFrom_eq {l : Lexeme} (h : l.Precedes after) :
    scanFrom [] (l.chars ++ after) = .add l (scanFrom [] after) := by
  cases l with
  | marker m => exact scanFrom_marker [] m after
  | word text =>
    obtain ⟨hne, hafter, hunbroken⟩ := h
    have hword : (text.toList.reverse ++ []).isEmpty = false := by simpa using hne
    rw [chars, scanFrom_unbroken hunbroken, scanFrom_breaks hafter, Scan.addWord, hword]
    simp

end Lexeme

namespace Segmentation

theorem scanFrom_tail {parts : List (Lexeme × List Char)} {comment : Option String}
    (h : Fits parts comment) :
    Lexeme.scanFrom [] (tail parts comment) = (parts.map Prod.fst, comment) := by
  induction parts with
  | nil =>
    cases comment with
    | none => rfl
    | some text => simp [tail, Lexeme.scanFrom, Lexeme.Scan.addWord]
  | cons part parts ih =>
    obtain ⟨l, white⟩ := part
    obtain ⟨hwhite, hprecedes, hfits⟩ := h
    rw [tail, hprecedes.scanFrom_eq, Lexeme.scanFrom_white hwhite, ih hfits]
    rfl

theorem Of.scan_eq {s : Segmentation} {text : String} (h : s.Of text.toList) :
    Lexeme.scan text = (s.lexemes, s.comment) := by
  rw [Lexeme.scan, ← h.text_eq, Segmentation.text, Lexeme.scanFrom_white h.white,
    scanFrom_tail h.fits]
  rfl

/-! There is one segmentation. -/

def cons (l : Lexeme) (s : Segmentation) : Segmentation := ⟨[], (l, s.lead) :: s.parts, s.comment⟩

section

variable {s s' : Segmentation} {text : List Char}

theorem Of.cons {l : Lexeme} (h : s.Of text) (hl : l.Precedes text) :
    (s.cons l).Of (l.chars ++ text) := by
  obtain rfl := h.text_eq
  exact ⟨rfl, by simp [Segmentation.cons], h.white, hl, h.fits⟩

theorem Of.space {c : Char} (h : s.Of text) (hc : isSpace c) :
    Of { s with lead := c :: s.lead } (c :: text) := by
  obtain rfl := h.text_eq
  exact ⟨rfl, List.forall_mem_cons.mpr ⟨hc, h.white⟩, h.fits⟩

/-- A word goes in front of a text where a break starts. -/
theorem Of.exists_word {word : List Char} (h : s.Of text) (hword : Unbroken word.reverse text)
    (htext : text = [] ∨ Breaks text) : ∃ s' : Segmentation, s'.Of (word.reverse ++ text) := by
  cases word with
  | nil => exact ⟨s, h⟩
  | cons c word =>
    have hprecedes : (Lexeme.word (String.ofList (c :: word).reverse)).Precedes text := by
      refine ⟨by simp, htext, ?_⟩
      rw [String.toList_ofList]
      exact hword
    have hcons := h.cons hprecedes
    rw [Lexeme.chars, String.toList_ofList] at hcons
    exact ⟨_, hcons⟩

theorem exists_of_unbroken {word text : List Char} (h : Unbroken word.reverse text) :
    ∃ s : Segmentation, s.Of (word.reverse ++ text) := by
  fun_induction Lexeme.scanFrom word text with
  | case1 word =>
    have hend : Of ⟨[], [], none⟩ [] := ⟨rfl, by simp, trivial⟩
    exact hend.exists_word h (.inl rfl)
  | case2 word text =>
    have hcomment : Of ⟨[], [], some (String.ofList text)⟩ ('-' :: '-' :: text) :=
      ⟨by simp [Segmentation.text, tail], by simp, trivial⟩
    exact hcomment.exists_word h (.inr breaks_comment)
  | case3 word text ih =>
    obtain ⟨s, hs⟩ := ih unbroken_nil
    have hmarker := hs.cons (l := .marker .method) trivial
    exact hmarker.exists_word h (.inr (breaks_marker .method))
  | case4 word text _ _ ih =>
    obtain ⟨s, hs⟩ := ih unbroken_nil
    have hmarker := hs.cons (l := .marker .assign) trivial
    exact hmarker.exists_word h (.inr (breaks_marker .assign))
  | case5 word text _ _ _ ih =>
    obtain ⟨s, hs⟩ := ih unbroken_nil
    have hmarker := hs.cons (l := .marker .block) trivial
    exact hmarker.exists_word h (.inr (breaks_marker .block))
  | case6 word c text _ _ _ _ hspace ih =>
    obtain ⟨s, hs⟩ := ih unbroken_nil
    exact (hs.space hspace).exists_word h (.inr (breaks_of_isSpace hspace))
  | case7 word c text hminus hgreater hassign hblock hspace ih =>
    have hc : ¬ Breaks (c :: text) := by
      refine not_breaks_cons_iff.mpr ⟨⟨by simpa using hspace, hassign, hblock⟩, fun d hd => ?_⟩
      obtain ⟨rest, rfl⟩ := List.head?_eq_some_iff.mp hd
      refine ⟨?_, ?_⟩
      · rintro ⟨rfl, rfl⟩
        exact hminus rest rfl rfl
      · rintro ⟨rfl, rfl⟩
        exact hgreater rest rfl rfl
    obtain ⟨s, hs⟩ := ih (by rw [List.reverse_cons]; exact h.concat hc)
    exact ⟨s, by simpa using hs⟩

theorem exists_of (text : List Char) : ∃ s : Segmentation, s.Of text := by
  have hword : Text.Unbroken ([] : List Char).reverse text := unbroken_nil
  exact exists_of_unbroken hword

theorem head_tail {parts : List (Lexeme × List Char)} {comment : Option String}
    (h : Fits parts comment) : ∀ c ∈ (tail parts comment).head?, isSpace c = false := by
  intro c hc
  cases parts with
  | nil =>
    cases comment with
    | none => simp [tail] at hc
    | some text =>
      obtain rfl : '-' = c := by simpa [tail] using hc
      decide
  | cons part parts =>
    obtain ⟨l, white⟩ := part
    obtain ⟨-, hprecedes, -⟩ := h
    cases l with
    | marker m =>
      cases m <;> obtain rfl := Option.some.inj hc <;> decide
    | word text =>
      obtain ⟨hne, -, hunbroken⟩ := hprecedes
      obtain ⟨d, rest, hd⟩ := List.exists_cons_of_ne_nil hne
      rw [hd] at hunbroken
      obtain rfl : d = c := by simpa [tail, Lexeme.chars, hd] using hc
      exact (not_breaks_cons_iff.mp (unbroken_cons_iff.mp hunbroken).1).1.1

/-- White space between lexemes is all that there is before the next. -/
theorem white_unique {lead lead' : List Char} {parts parts' : List (Lexeme × List Char)}
    {comment : Option String} (hlexemes : parts.map Prod.fst = parts'.map Prod.fst)
    (htext : lead ++ tail parts comment = lead' ++ tail parts' comment)
    (hlead : ∀ c ∈ lead, isSpace c) (hlead' : ∀ c ∈ lead', isSpace c)
    (h : Fits parts comment) (h' : Fits parts' comment) : lead = lead' ∧ parts = parts' := by
  induction parts generalizing lead lead' parts' with
  | nil =>
    obtain rfl : parts' = [] := List.map_eq_nil_iff.mp hlexemes.symm
    exact ⟨List.append_cancel_right htext, rfl⟩
  | cons part parts ih =>
    obtain rfl : lead = lead' := by
      rw [← takeWhile_append hlead (head_tail h), htext, takeWhile_append hlead' (head_tail h')]
    obtain ⟨part', parts', rfl⟩ : ∃ part' parts'', parts' = part' :: parts'' := by
      cases parts' with
      | nil => cases hlexemes
      | cons part' parts' => exact ⟨part', parts', rfl⟩
    obtain ⟨l, white⟩ := part
    obtain ⟨l', white'⟩ := part'
    obtain ⟨hl, hls⟩ := List.cons.inj hlexemes
    obtain rfl : l = l' := hl
    obtain ⟨hwhite, -, hfits⟩ := h
    obtain ⟨hwhite', -, hfits'⟩ := h'
    have hrest := List.append_cancel_left (List.append_cancel_left htext)
    obtain ⟨rfl, rfl⟩ := ih hls hrest hwhite hwhite' hfits hfits'
    exact ⟨rfl, rfl⟩

theorem Of.unique {text : String} (h : s.Of text.toList) (h' : s'.Of text.toList) : s = s' := by
  obtain ⟨hlexemes, hcomment⟩ := Prod.mk.inj (h.scan_eq.symm.trans h'.scan_eq)
  obtain ⟨lead, parts, comment⟩ := s
  obtain ⟨lead', parts', comment'⟩ := s'
  obtain rfl : comment = comment' := hcomment
  have htext := h.text_eq.trans h'.text_eq.symm
  obtain ⟨rfl, rfl⟩ := white_unique hlexemes htext h.white h'.white h.fits h'.fits
  rfl

end

end Segmentation

/-! Indentation. -/

namespace Text

theorem head_ne_space {rest : List Char} (h : rest.head? ≠ some ' ') :
    ∀ c ∈ rest.head?, decide (c = ' ') = false := by
  intro c hc
  apply decide_eq_false
  rintro rfl
  exact h hc

theorem exists_indents (text : List Char) : Indents text (text.takeWhile (· = ' ')).length := by
  refine ⟨text.dropWhile (· = ' '), ?_, fun hspace => ?_⟩
  · have hspaces : text.takeWhile (· = ' ') =
        List.replicate (text.takeWhile (· = ' ')).length ' ' := by
      apply List.eq_replicate_of_mem
      intro c hc
      have hspace := List.mem_takeWhile_imp hc
      exact of_decide_eq_true hspace
    rw [← hspaces, List.takeWhile_append_dropWhile]
  · exact absurd (head_dropWhile _ text ' ' hspace) (by decide)

theorem indents_iff {text : List Char} {count : Nat} :
    Indents text count ↔ count = (text.takeWhile (· = ' ')).length := by
  constructor
  · rintro ⟨rest, rfl, hrest⟩
    rw [takeWhile_append (by simp) (head_ne_space hrest), List.length_replicate]
  · rintro rfl
    exact exists_indents text

theorem tabIndented_iff {text : String} : TabIndented text.toList ↔ Line.hasTabIndent text := by
  rw [Line.hasTabIndent, List.contains_iff_mem]
  constructor
  · rintro ⟨count, white, rest, htext, hwhite, hspace, htab⟩
    obtain ⟨c, white, rfl⟩ := List.exists_cons_of_ne_nil (List.ne_nil_of_mem htab)
    have hstop : (c :: white ++ rest).head? ≠ some ' ' := hwhite
    rw [htext, dropWhile_append (by simp) (head_ne_space hstop),
      List.takeWhile_append_of_pos hspace]
    exact List.mem_append_left _ htab
  · intro htab
    obtain ⟨rest, htext, hrest⟩ := exists_indents text.toList
    rw [htext, dropWhile_append (by simp) (head_ne_space hrest)] at htab
    refine ⟨(text.toList.takeWhile (· = ' ')).length, rest.takeWhile isSpace,
      rest.dropWhile isSpace, ?_, ?_, ?_, htab⟩
    · rw [List.takeWhile_append_dropWhile]
      exact htext
    · intro hhead
      obtain ⟨white, hwhite⟩ := List.head?_eq_some_iff.mp hhead
      have hsplit : rest.takeWhile isSpace ++ rest.dropWhile isSpace = rest :=
        List.takeWhile_append_dropWhile
      rw [hwhite] at hsplit
      exact hrest (by rw [← hsplit]; rfl)
    · intro c hc
      exact List.mem_takeWhile_imp hc

end Text

/-! Reading a line. -/

namespace Lexeme

theorem item_eq_ok_iff {l : Lexeme} {i : Item} : l.item = .ok i ↔ l.Reads i := by
  constructor
  · intro h
    cases l with
    | marker m =>
      cases h
      exact .marker
    | word text =>
      obtain ⟨a, ha, rfl⟩ := Except.map_eq_ok_iff.mp h
      exact .word ha
  · intro h
    cases h with
    | marker => rfl
    | word ha => exact Except.map_eq_ok_iff.mpr ⟨_, ha, rfl⟩

theorem mapM_item_eq_error_iff {ls : List Lexeme} {e : LiteralError} :
    ls.mapM item = .error e ↔ FirstRefused ls e := by
  rw [Except.mapM_eq_error_iff]
  constructor
  · rintro ⟨before, l, after, rfl, hbefore, hl⟩
    cases l with
    | marker m => cases hl
    | word text =>
      refine ⟨before, text, after, rfl, fun l hl => ?_, Except.map_eq_error_iff.mp hl⟩
      obtain ⟨i, hi⟩ := hbefore l hl
      exact ⟨i, item_eq_ok_iff.mp hi⟩
  · rintro ⟨before, text, after, rfl, hbefore, htext⟩
    refine ⟨before, .word text, after, rfl, fun l hl => ?_, Except.map_eq_error_iff.mpr htext⟩
    obtain ⟨i, hi⟩ := hbefore l hl
    exact ⟨i, item_eq_ok_iff.mpr hi⟩

end Lexeme

namespace Line

variable {number : Nat} {text : String} {s : Segmentation} {l : Line}

theorem read_of_tabIndented (h : TabIndented text.toList) :
    read number text = .error ⟨number, .tabIndent⟩ := by
  rw [read, if_pos (tabIndented_iff.mp h)]

theorem read_eq (hs : s.Of text.toList) (htab : ¬ TabIndented text.toList) :
    read number text =
      match s.lexemes.mapM Lexeme.item with
      | .ok items =>
        .ok ⟨⟨(text.toList.takeWhile (· = ' ')).length, items, s.comment⟩, number⟩
      | .error e => .error ⟨number, .literal e⟩ := by
  have htab : ¬ hasTabIndent text := fun h => htab (tabIndented_iff.mpr h)
  rewrite [read, if_neg htab, hs.scan_eq]
  rfl

theorem read_eq_ok_iff (hs : s.Of text.toList) (htab : ¬ TabIndented text.toList) :
    read number text = .ok l ↔
      l.number = number ∧ Indents text.toList l.indent ∧
        List.Forall₂ Lexeme.Reads s.lexemes l.items ∧ l.comment = s.comment := by
  have hitems : s.lexemes.mapM Lexeme.item = .ok l.items ↔
      List.Forall₂ Lexeme.Reads s.lexemes l.items := by
    simp only [Except.mapM_eq_ok_iff, Lexeme.item_eq_ok_iff]
  rw [read_eq hs htab, ← hitems, indents_iff]
  constructor
  · intro h
    split at h
    · rename_i items heq
      cases h
      exact ⟨rfl, rfl, heq, rfl⟩
    · cases h
  · rintro ⟨rfl, hindent, heq, hcomment⟩
    rw [heq, ← hindent, ← hcomment]

theorem read_eq_error_iff (hs : s.Of text.toList) (htab : ¬ TabIndented text.toList)
    {e : LineError} :
    read number text = .error e ↔
      ∃ e', e = ⟨number, .literal e'⟩ ∧ Lexeme.FirstRefused s.lexemes e' := by
  simp only [read_eq hs htab, ← Lexeme.mapM_item_eq_error_iff]
  constructor
  · intro h
    split at h
    · cases h
    · rename_i e' heq
      cases h
      exact ⟨e', rfl, heq⟩
  · rintro ⟨e', rfl, heq⟩
    rw [heq]

/-- A line is read from the one segmentation of its text. It has the leading spaces as its indent,
the items that the lexemes stand for, in order, and the comment as it is; or the first word that is
no literal is reported, or a tab in the indentation, before anything else. -/
theorem read_follows_segmentation (number : Nat) (text : String) :
    (∃! s : Segmentation, s.Of text.toList) ∧
    (read number text = .error ⟨number, .tabIndent⟩ ↔ TabIndented text.toList) ∧
    ∀ s : Segmentation, s.Of text.toList → ¬ TabIndented text.toList →
      (∀ e, read number text = .error e ↔
        ∃ e', e = ⟨number, .literal e'⟩ ∧ Lexeme.FirstRefused s.lexemes e') ∧
      ∀ l, read number text = .ok l ↔
        l.number = number ∧ Indents text.toList l.indent ∧
          List.Forall₂ Lexeme.Reads s.lexemes l.items ∧ l.comment = s.comment := by
  obtain ⟨s, hs⟩ := Segmentation.exists_of text.toList
  refine ⟨⟨s, hs, fun s' hs' => hs'.unique hs⟩, ⟨fun h => ?_, read_of_tabIndented⟩,
    fun s hs htab => ⟨fun e => read_eq_error_iff hs htab, fun l => read_eq_ok_iff hs htab⟩⟩
  by_contra htab
  obtain ⟨e, he, -⟩ := (read_eq_error_iff hs htab).mp h
  cases he

/-- A marker and a comment start at the first place where they can. -/
theorem read_follows_leftmost : ∃ s : Segmentation,
    s.Of "  a>>>b 5b---c".toList ∧ ¬ TabIndented "  a>>>b 5b---c".toList ∧
    s.lexemes = [.word "a", .marker .method, .word ">b", .word "5b"] ∧ s.comment = some "-c" ∧
    read 7 "  a>>>b 5b---c" = .ok ⟨⟨2, [.atom (.identifier "a"), .marker .method,
      .atom (.identifier ">b"), .atom (.number (.ofByte 5))], some "-c"⟩, 7⟩ := by
  obtain ⟨⟨s, hs, -⟩, -, hread⟩ := read_follows_segmentation 7 "  a>>>b 5b---c"
  have hscan : Lexeme.scan "  a>>>b 5b---c" =
      ([.word "a", .marker .method, .word ">b", .word "5b"], some "-c") := by decide +kernel
  have htab : ¬ TabIndented "  a>>>b 5b---c".toList := by
    rw [tabIndented_iff, Bool.not_eq_true]
    decide +kernel
  obtain ⟨hlexemes, hcomment⟩ := Prod.mk.inj (hs.scan_eq.symm.trans hscan)
  refine ⟨s, hs, htab, hlexemes, hcomment, ((hread s hs htab).2 _).mpr ⟨rfl, ?_, ?_, hcomment.symm⟩⟩
  · exact indents_iff.mpr (by decide +kernel)
  · rw [hlexemes]
    refine .cons (.word ?_) (.cons .marker (.cons (.word ?_) (.cons (.word ?_) .nil)))
    all_goals decide +kernel

end Line

end Stacklet
