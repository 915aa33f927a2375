import Mathlib.Data.List.Chain
import Mathlib.Data.List.Forall2
import Stacklet.Line.Lexeme
import Stacklet.Proofs.Numeral

/-!
Reading rows. The words of a line are exactly the plain texts: no white space, no marker and no
start of a comment in them. A row of plain words is read back from its canonical text, and every
row that is read consists of plain words.
-/

namespace Except

variable {ε ε' α β : Type}

theorem bind_eq_ok_iff {x : Except ε α} {f : α → Except ε β} {b : β} :
    x >>= f = .ok b ↔ ∃ a, x = .ok a ∧ f a = .ok b := by
  cases x with
  | error e => simp [bind, Except.bind]
  | ok a => simp [bind, Except.bind]

theorem bind_eq_error_iff {x : Except ε α} {f : α → Except ε β} {e : ε} :
    x >>= f = .error e ↔ x = .error e ∨ ∃ a, x = .ok a ∧ f a = .error e := by
  cases x with
  | error e' => simp [bind, Except.bind]
  | ok a => simp [bind, Except.bind]

theorem map_eq_ok_iff {x : Except ε α} {f : α → β} {b : β} :
    x.map f = .ok b ↔ ∃ a, x = .ok a ∧ f a = b := by
  cases x with
  | error e => simp [Except.map]
  | ok a => simp [Except.map]

theorem map_eq_error_iff {x : Except ε α} {f : α → β} {e : ε} :
    x.map f = .error e ↔ x = .error e := by
  cases x with
  | error e' => simp [Except.map]
  | ok a => simp [Except.map]

theorem mapError_eq_ok_iff {x : Except ε α} {f : ε → ε'} {a : α} :
    x.mapError f = .ok a ↔ x = .ok a := by
  cases x with
  | error e => simp [Except.mapError]
  | ok a => simp [Except.mapError]

theorem mapError_eq_error_iff {x : Except ε α} {f : ε → ε'} {e' : ε'} :
    x.mapError f = .error e' ↔ ∃ e, x = .error e ∧ f e = e' := by
  cases x with
  | error e => simp [Except.mapError]
  | ok a => simp [Except.mapError]

theorem mapM_eq_ok_iff {f : α → Except ε β} {xs : List α} {ys : List β} :
    xs.mapM f = .ok ys ↔ List.Forall₂ (fun x y => f x = .ok y) xs ys := by
  induction xs generalizing ys with
  | nil => simp [pure, Except.pure, eq_comm]
  | cons x xs ih =>
    rw [List.mapM_cons, bind_eq_ok_iff, List.forall₂_cons_left_iff]
    simp only [bind_eq_ok_iff, ih]
    constructor
    · rintro ⟨y, hy, rest, hrest, heq⟩
      exact ⟨y, rest, hy, hrest, (Except.ok.inj heq).symm⟩
    · rintro ⟨y, rest, hy, hrest, rfl⟩
      exact ⟨y, hy, rest, hrest, rfl⟩

theorem mapM_cons_eq_error_iff {f : α → Except ε β} {x : α} {xs : List α} {e : ε} :
    (x :: xs).mapM f = .error e ↔
      f x = .error e ∨ (∃ b, f x = .ok b) ∧ xs.mapM f = .error e := by
  rw [List.mapM_cons]
  cases f x with
  | error e' => simp [bind, Except.bind]
  | ok b => cases xs.mapM f <;> simp [bind, Except.bind, pure, Except.pure]

/-- It is the first failure that counts. -/
theorem mapM_eq_error_iff {f : α → Except ε β} {xs : List α} {e : ε} :
    xs.mapM f = .error e ↔ ∃ before x after, xs = before ++ x :: after ∧
      (∀ y ∈ before, ∃ b, f y = .ok b) ∧ f x = .error e := by
  induction xs with
  | nil => simp [pure, Except.pure]
  | cons x xs ih =>
    rw [mapM_cons_eq_error_iff, ih]
    constructor
    · rintro (hx | ⟨hx, before, y, after, rfl, hbefore, hy⟩)
      · exact ⟨[], x, xs, rfl, by simp, hx⟩
      · exact ⟨x :: before, y, after, rfl, List.forall_mem_cons.mpr ⟨hx, hbefore⟩, hy⟩
    · rintro ⟨before, y, after, heq, hbefore, hy⟩
      cases before with
      | nil =>
        obtain ⟨rfl, rfl⟩ := List.cons.inj heq
        exact .inl hy
      | cons z before =>
        obtain ⟨rfl, rfl⟩ := List.cons.inj heq
        obtain ⟨hx, hbefore⟩ := List.forall_mem_cons.mp hbefore
        exact .inr ⟨hx, before, y, after, rfl, hbefore, hy⟩

theorem exists_of_mem_mapM {f : α → Except ε β} {xs : List α} {ys : List β}
    (h : xs.mapM f = .ok ys) {y : β} (hy : y ∈ ys) : ∃ x ∈ xs, f x = .ok y := by
  induction mapM_eq_ok_iff.mp h with
  | nil => simp at hy
  | cons hxy hrest ih =>
    rcases List.mem_cons.mp hy with rfl | hy
    · exact ⟨_, by simp, hxy⟩
    · obtain ⟨x, hx, hxy⟩ := ih (mapM_eq_ok_iff.mpr hrest) hy
      exact ⟨x, by simp [hx], hxy⟩

end Except

namespace Stacklet

namespace Text

section While

variable {p : Char → Bool} {front rest : List Char}

theorem takeWhile_append (hfront : ∀ c ∈ front, p c) (hrest : ∀ c ∈ rest.head?, p c = false) :
    (front ++ rest).takeWhile p = front := by
  have hnil : rest.takeWhile p = [] := by
    cases rest with
    | nil => rfl
    | cons c rest => exact List.takeWhile_cons_of_neg (by simp [hrest c rfl])
  rw [List.takeWhile_append_of_pos hfront, hnil, List.append_nil]

theorem dropWhile_append (hfront : ∀ c ∈ front, p c) (hrest : ∀ c ∈ rest.head?, p c = false) :
    (front ++ rest).dropWhile p = rest := by
  have hsplit : (front ++ rest).takeWhile p ++ (front ++ rest).dropWhile p = front ++ rest :=
    List.takeWhile_append_dropWhile
  rw [takeWhile_append hfront hrest] at hsplit
  exact List.append_cancel_left hsplit

theorem head_dropWhile (p : Char → Bool) (text : List Char) :
    ∀ c ∈ (text.dropWhile p).head?, p c = false := by
  intro c hc
  have hnot := List.head?_dropWhile_not p text
  rw [Option.mem_def.mp hc] at hnot
  exact hnot

end While

theorem toList_intercalate_space (first : String) (texts : List String) :
    (" ".intercalate (first :: texts)).toList =
      first.toList ++ texts.flatMap fun text => ' ' :: text.toList := by
  induction texts generalizing first with
  | nil => simp
  | cons text texts ih =>
    have hspace : " ".toList = [' '] := rfl
    rw [String.intercalate_cons_cons, String.toList_append, String.toList_append, ih text, hspace]
    simp

/-- A character that neither ends a word nor is a marker by itself. -/
def Ordinary (c : Char) : Prop := isSpace c = false ∧ c ≠ '=' ∧ c ≠ ':'

/-- Two neighbours that are neither `--` nor `>>`. -/
def Apart (a b : Char) : Prop := ¬ (a = '-' ∧ b = '-') ∧ ¬ (a = '>' ∧ b = '>')

structure Plain (cs : List Char) : Prop where
  ordinary : ∀ c ∈ cs, Ordinary c
  apart : cs.IsChain Apart

theorem ordinary_of_isAlphanum {c : Char} (hc : c.isAlphanum) : Ordinary c := by
  refine ⟨?_, ?_, ?_⟩
  · by_contra hspace
    have hmem : c ∈ spaces := by simpa [isSpace] using hspace
    have hall : spaces.all fun d => !d.isAlphanum := by decide
    have hnot := List.all_eq_true.mp hall c hmem
    rw [hc] at hnot
    exact absurd hnot (by decide)
  all_goals
    rintro rfl
    exact absurd hc (by decide)

theorem apart_of_isAlphanum {a b : Char} (ha : a.isAlphanum) : Apart a b := by
  constructor
  all_goals
    rintro ⟨rfl, -⟩
    exact absurd ha (by decide)

theorem Plain.nil : Plain [] := ⟨by simp, List.isChain_nil⟩

theorem Plain.head {c : Char} {cs : List Char} (h : Plain (c :: cs)) : Ordinary c :=
  h.ordinary c (by simp)

theorem Plain.tail {c : Char} {cs : List Char} (h : Plain (c :: cs)) : Plain cs :=
  ⟨fun d hd => h.ordinary d (by simp [hd]), h.apart.tail⟩

theorem Plain.concat {cs : List Char} {c : Char} (h : Plain cs) (hc : Ordinary c)
    (hjoin : ∀ a ∈ cs.getLast?, Apart a c) : Plain (cs ++ [c]) := by
  constructor
  · intro d hd
    rcases List.mem_append.mp hd with hd | hd
    · exact h.ordinary d hd
    · rw [List.mem_singleton.mp hd]
      exact hc
  · rw [List.isChain_append]
    refine ⟨h.apart, List.isChain_singleton c, ?_⟩
    intro a ha b hb
    obtain rfl : c = b := by simpa using hb
    exact hjoin a ha

end Text

open Text

/-! Names and items. -/

/-- What an identifier can be. -/
structure Atom.IsName (name : String) : Prop where
  ne_nil : name.toList ≠ []
  plain : Plain name.toList
  not_digit : name.toList.head?.any Char.isDigit = false

def Atom.Valid : Atom → Prop
  | .number _ => True
  | .identifier name => IsName name

def Item.Valid : Item → Prop
  | .atom a => a.Valid
  | .marker _ => True

def Row.Valid (r : Row) : Prop := ∀ i ∈ r.items, i.Valid

/-- What an item is before its word is read. -/
def Item.lexeme : Item → Lexeme
  | .atom a => .word a.render
  | .marker m => .marker m

theorem Number.isAlphanum_of_mem_unsigned {n : Number} {c : Char} (hc : c ∈ n.unsigned) :
    c.isAlphanum := by
  rcases List.mem_append.mp hc with hd | hs
  · simp [Char.isAlphanum, isDigit_of_mem_digits hd]
  · have hall (t : NumberType) : t.suffix.toList.all Char.isAlphanum := by
      obtain ⟨width, signed⟩ := t
      cases width <;> cases signed <;> decide
    exact List.all_eq_true.mp (hall n.type) c hs

theorem Number.plain_unsigned (n : Number) : Plain n.unsigned := by
  constructor
  · intro c hc
    exact ordinary_of_isAlphanum (isAlphanum_of_mem_unsigned hc)
  · apply List.Pairwise.isChain
    rw [List.pairwise_iff_forall_sublist]
    intro a b hab
    exact apart_of_isAlphanum (isAlphanum_of_mem_unsigned (hab.subset (by simp)))

theorem Number.plain_render (n : Number) : Plain n.render.toList := by
  rw [toList_render]
  split
  · apply n.plain_unsigned.concat ⟨by decide, by decide, by decide⟩
    intro a ha
    exact apart_of_isAlphanum (isAlphanum_of_mem_unsigned (List.mem_of_getLast? ha))
  · rw [List.append_nil]
    exact n.plain_unsigned

theorem Number.render_ne_nil (n : Number) : n.render.toList ≠ [] := by
  rw [toList_render]
  intro h
  exact n.unsigned_ne_nil (List.append_eq_nil_iff.mp h).1

theorem Atom.Valid.plain {a : Atom} (h : a.Valid) : Plain a.render.toList := by
  cases a with
  | number n => exact n.plain_render
  | identifier name => exact IsName.plain h

theorem Atom.Valid.ne_nil {a : Atom} (h : a.Valid) : a.render.toList ≠ [] := by
  cases a with
  | number n => exact n.render_ne_nil
  | identifier name => exact IsName.ne_nil h

theorem Atom.ofWord_render_of_valid {a : Atom} (h : a.Valid) : Atom.ofWord a.render = .ok a := by
  cases a with
  | number n => exact ofWord_render n
  | identifier name =>
    have hdigit : name.toList.head?.any Char.isDigit = false := h.not_digit
    simp [ofWord, render, hdigit]

theorem Item.Valid.ne_nil {i : Item} (h : i.Valid) : i.render.toList ≠ [] := by
  cases i with
  | atom a => exact Atom.Valid.ne_nil h
  | marker m => cases m <;> decide

theorem Item.Valid.isSpace_eq_false {i : Item} (h : i.Valid) {c : Char}
    (hc : c ∈ i.render.toList) : isSpace c = false := by
  cases i with
  | atom a => exact ((Atom.Valid.plain h).ordinary c hc).1
  | marker m =>
    have hall : m.render.toList.all fun d => !isSpace d := by cases m <;> decide
    simpa using List.all_eq_true.mp hall c hc

theorem Item.Valid.item_lexeme {i : Item} (h : i.Valid) : i.lexeme.item = .ok i := by
  cases i with
  | atom a => rw [Item.lexeme, Lexeme.item, Atom.ofWord_render_of_valid h]; rfl
  | marker m => rfl

/-! Scanning the canonical text of a row. -/

namespace Lexeme

theorem scanFrom_ordinary {c : Char} {word rest : List Char} (hc : Ordinary c)
    (hjoin : ∀ d ∈ rest.head?, Apart c d) :
    scanFrom word (c :: rest) = scanFrom (c :: word) rest := by
  obtain ⟨hspace, hassign, hblock⟩ := hc
  rw [scanFrom]
  · simp [hspace, hassign, hblock]
  · rintro text rfl rfl
    exact (hjoin '-' rfl).1 ⟨rfl, rfl⟩
  · rintro text rfl rfl
    exact (hjoin '>' rfl).2 ⟨rfl, rfl⟩

/-- A character that starts no longer marker is looked at by itself. -/
theorem scanFrom_cons {c : Char} {word rest : List Char} (hminus : c ≠ '-') (hgreater : c ≠ '>') :
    scanFrom word (c :: rest) =
      if c = '=' then .addWord word (.add (.marker .assign) (scanFrom [] rest))
      else if c = ':' then .addWord word (.add (.marker .block) (scanFrom [] rest))
      else if isSpace c then .addWord word (scanFrom [] rest)
      else scanFrom (c :: word) rest := by
  rw [scanFrom]
  · intro text h
    exact absurd h hminus
  · intro text h
    exact absurd h hgreater

theorem scanFrom_space (word rest : List Char) :
    scanFrom word (' ' :: rest) = .addWord word (scanFrom [] rest) :=
  scanFrom_cons (by decide) (by decide)

/-- What may follow an item on its line: nothing, or a space. -/
def Ends (rest : List Char) : Prop := ∀ d ∈ rest.head?, d = ' '

theorem scanFrom_plain {cs word rest : List Char} (h : Plain cs) (hrest : Ends rest) :
    scanFrom word (cs ++ rest) = scanFrom (cs.reverse ++ word) rest := by
  induction cs generalizing word with
  | nil => rfl
  | cons c cs ih =>
    -- What follows `c` makes no marker with it, within the word or at its end.
    have hjoin : ∀ d ∈ (cs ++ rest).head?, Apart c d := by
      cases cs with
      | nil =>
        intro d hd
        obtain rfl := hrest d hd
        exact ⟨fun h => absurd h.2 (by decide), fun h => absurd h.2 (by decide)⟩
      | cons b cs =>
        intro d hd
        obtain rfl : b = d := by simpa using hd
        exact (List.isChain_cons_cons.mp h.apart).1
    rw [List.cons_append, scanFrom_ordinary h.head hjoin, ih h.tail]
    simp

theorem scanFrom_ends {word rest : List Char} (hrest : Ends rest) :
    scanFrom word rest = .addWord word (scanFrom [] rest) := by
  cases rest with
  | nil => rfl
  | cons d rest =>
    obtain rfl := hrest d rfl
    rw [scanFrom_space, scanFrom_space]
    rfl

theorem scanFrom_item {i : Item} {rest : List Char} (hi : i.Valid) (hrest : Ends rest) :
    scanFrom [] (i.render.toList ++ rest) = .add i.lexeme (scanFrom [] rest) := by
  cases i with
  | atom a =>
    have hword : (a.render.toList.reverse ++ []).isEmpty = false := by
      simpa using Atom.Valid.ne_nil hi
    rw [Item.render, scanFrom_plain (Atom.Valid.plain hi) hrest, scanFrom_ends hrest,
      Scan.addWord, hword]
    simp [Item.lexeme]
  | marker m =>
    cases m with
    | assign => exact scanFrom_cons (by decide) (by decide)
    | method => rfl
    | block => exact scanFrom_cons (by decide) (by decide)

end Lexeme

namespace Row

/-- The text after the first item: further items and the comment, each after a space. -/
def spaced : List Item → Option String → List Char
  | [], none => []
  | [], some text => ' ' :: '-' :: '-' :: text.toList
  | i :: items, comment => ' ' :: (i.render.toList ++ spaced items comment)

theorem ends_spaced (items : List Item) (comment : Option String) :
    Lexeme.Ends (spaced items comment) := by
  intro d hd
  cases items with
  | nil =>
    cases comment with
    | none => simp [spaced] at hd
    | some text => simpa [spaced, eq_comm] using hd
  | cons i items => simpa [spaced, eq_comm] using hd

theorem scanFrom_spaced {items : List Item} (h : ∀ i ∈ items, i.Valid) (comment : Option String) :
    Lexeme.scanFrom [] (spaced items comment) = (items.map Item.lexeme, comment) := by
  induction items with
  | nil =>
    cases comment with
    | none => rfl
    | some text => simp [spaced, Lexeme.scanFrom_space, Lexeme.scanFrom, Lexeme.Scan.addWord]
  | cons i items ih =>
    rw [spaced, Lexeme.scanFrom_space, Lexeme.scanFrom_item (h i (by simp)) (ends_spaced _ _),
      ih fun j hj => h j (by simp [hj])]
    rfl

/-- The text after the indent. -/
def body : List Item → Option String → List Char
  | [], none => []
  | [], some text => '-' :: '-' :: text.toList
  | i :: items, comment => i.render.toList ++ spaced items comment

theorem spaced_eq (items : List Item) (comment : Option String) :
    spaced items comment =
      (items.flatMap fun i => ' ' :: i.render.toList) ++ spaced [] comment := by
  induction items with
  | nil => rfl
  | cons i items ih => simp [spaced, ih]

theorem toList_render (r : Row) :
    r.render.toList = List.replicate r.indent ' ' ++ body r.items r.comment := by
  obtain ⟨indent, items, comment⟩ := r
  cases items with
  | nil => cases comment <;> simp [render, body]
  | cons i items =>
    rw [body, spaced_eq, render, String.toList_append, String.toList_append, List.map_cons,
      toList_intercalate_space, List.flatMap_map]
    cases comment <;> simp [spaced]

theorem head_body {items : List Item} (h : ∀ i ∈ items, i.Valid) (comment : Option String) :
    ∀ c ∈ (body items comment).head?, isSpace c = false := by
  intro c hc
  cases items with
  | nil =>
    cases comment with
    | none => simp [body] at hc
    | some text =>
      obtain rfl : '-' = c := by simpa [body] using hc
      decide
  | cons i items =>
    obtain ⟨d, cs, hd⟩ := List.exists_cons_of_ne_nil (h i (by simp)).ne_nil
    obtain rfl : d = c := by simpa [body, hd] using hc
    exact (h i (by simp)).isSpace_eq_false (by simp [hd])

theorem scanFrom_body {items : List Item} (h : ∀ i ∈ items, i.Valid) (comment : Option String) :
    Lexeme.scanFrom [] (body items comment) = (items.map Item.lexeme, comment) := by
  cases items with
  | nil =>
    cases comment with
    | none => rfl
    | some text => simp [body, Lexeme.scanFrom, Lexeme.Scan.addWord]
  | cons i items =>
    rw [body, Lexeme.scanFrom_item (h i (by simp)) (ends_spaced _ _),
      scanFrom_spaced fun j hj => h j (by simp [hj])]
    rfl

theorem scan_render {r : Row} (h : r.Valid) :
    Lexeme.scan r.render = (r.items.map Item.lexeme, r.comment) := by
  have hindent (n : Nat) (rest : List Char) :
      Lexeme.scanFrom [] (List.replicate n ' ' ++ rest) = Lexeme.scanFrom [] rest := by
    induction n with
    | zero => rfl
    | succ n ih =>
      rw [List.replicate_succ, List.cons_append, Lexeme.scanFrom_space, ih]
      rfl
  rw [Lexeme.scan, toList_render, hindent, scanFrom_body h]

theorem ne_space_of_mem_head_body {items : List Item} (h : ∀ i ∈ items, i.Valid)
    (comment : Option String) : ∀ c ∈ (body items comment).head?, decide (c = ' ') = false := by
  intro c hc
  have hspace := head_body h comment c hc
  apply decide_eq_false
  rintro rfl
  exact absurd hspace (by decide)

theorem takeWhile_render {r : Row} (h : r.Valid) :
    r.render.toList.takeWhile (· = ' ') = List.replicate r.indent ' ' := by
  rw [toList_render]
  exact takeWhile_append (by simp) (ne_space_of_mem_head_body h r.comment)

theorem hasTabIndent_render {r : Row} (h : r.Valid) : Line.hasTabIndent r.render = false := by
  have hdrop : r.render.toList.dropWhile (· = ' ') = body r.items r.comment := by
    rw [toList_render]
    exact dropWhile_append (by simp) (ne_space_of_mem_head_body h r.comment)
  rw [Line.hasTabIndent, hdrop]
  cases hb : body r.items r.comment with
  | nil => rfl
  | cons c cs =>
    have hc := head_body h r.comment c (by simp [hb])
    simp [hc]

end Row

theorem mapM_item_lexeme {items : List Item} (h : ∀ i ∈ items, i.Valid) :
    (items.map Item.lexeme).mapM Lexeme.item = .ok items := by
  rw [Except.mapM_eq_ok_iff, List.forall₂_map_left_iff, List.forall₂_same]
  intro i hi
  exact (h i hi).item_lexeme

/-- A row of valid items is read back from its text, whatever its comment. -/
theorem Line.read_render {r : Row} (h : r.Valid) (number : Nat) :
    Line.read number r.render = .ok ⟨r, number⟩ := by
  simp only [read, Row.hasTabIndent_render h, Row.scan_render h, mapM_item_lexeme h,
    Row.takeWhile_render h, List.length_replicate]
  rfl

theorem Line.readFrom_render {rows : List Row} (h : ∀ r ∈ rows, r.Valid) (number : Nat) :
    ∃ ls, Line.readFrom number (rows.map Row.render) = .ok ls ∧ ls.map Line.toRow = rows := by
  induction rows generalizing number with
  | nil => exact ⟨[], rfl, rfl⟩
  | cons r rows ih =>
    obtain ⟨ls, hls, hrows⟩ := ih (fun q hq => h q (by simp [hq])) (number + 1)
    refine ⟨⟨r, number⟩ :: ls, ?_, by rw [List.map_cons, hrows]⟩
    rw [List.map_cons, readFrom, read_render (h r (by simp)), hls]
    rfl

/-! What is read from any text. -/

def Lexeme.Valid : Lexeme → Prop
  | .marker _ => True
  | .word text => text.toList ≠ [] ∧ Plain text.toList

theorem Lexeme.mem_addWord {word : List Char} {scan : Scan} {l : Lexeme}
    (hword : Plain word.reverse) (hl : l ∈ (Scan.addWord word scan).1) : l.Valid ∨ l ∈ scan.1 := by
  unfold Scan.addWord at hl
  split at hl
  · exact .inr hl
  · rename_i hempty
    rcases List.mem_cons.mp hl with rfl | hl
    · left
      refine ⟨?_, ?_⟩
      · simpa using hempty
      · rwa [String.toList_ofList]
    · exact .inr hl

theorem Lexeme.mem_addMarker {word : List Char} {scan : Scan} {m : Marker} {l : Lexeme}
    (hword : Plain word.reverse) (hl : l ∈ (Scan.addWord word (.add (.marker m) scan)).1) :
    l.Valid ∨ l ∈ scan.1 := by
  rcases mem_addWord hword hl with hl | hl
  · exact .inl hl
  · rcases List.mem_cons.mp hl with rfl | hl
    · exact .inl trivial
    · exact .inr hl

/-- The word in progress is plain, and it stays so with the next character. -/
theorem Lexeme.valid_of_mem_scanFrom {word text : List Char} (hword : Plain word.reverse)
    (hjoin : ∀ a ∈ word.head?, ∀ b ∈ text.head?, Apart a b) :
    ∀ l ∈ (scanFrom word text).1, l.Valid := by
  have hstart (text : List Char) : ∀ a ∈ ([] : List Char).head?, ∀ b ∈ text.head?, Apart a b := by
    simp
  intro l hl
  fun_induction scanFrom word text with
  | case1 word =>
    rcases mem_addWord hword hl with hl | hl
    · exact hl
    · simp at hl
  | case2 word text =>
    rcases mem_addWord hword hl with hl | hl
    · exact hl
    · simp at hl
  | case3 word text ih =>
    rcases mem_addMarker hword hl with hl | hl
    · exact hl
    · exact ih Plain.nil (hstart text) hl
  | case4 word text _ _ ih =>
    rcases mem_addMarker hword hl with hl | hl
    · exact hl
    · exact ih Plain.nil (hstart text) hl
  | case5 word text _ _ _ ih =>
    rcases mem_addMarker hword hl with hl | hl
    · exact hl
    · exact ih Plain.nil (hstart text) hl
  | case6 word c text _ _ _ _ hspace ih =>
    rcases mem_addWord hword hl with hl | hl
    · exact hl
    · exact ih Plain.nil (hstart text) hl
  | case7 word c text hminus hgreater hassign hblock hspace ih =>
    apply ih _ _ hl
    · rw [List.reverse_cons]
      apply hword.concat ⟨by simpa using hspace, hassign, hblock⟩
      intro a ha
      exact hjoin a (by simpa using ha) c rfl
    · intro a ha b hb
      obtain rfl : c = a := by simpa using ha
      obtain ⟨rest, rfl⟩ := List.head?_eq_some_iff.mp hb
      -- Had `c` made a marker with the next character, it would not have become part of a word.
      refine ⟨?_, ?_⟩
      · rintro ⟨rfl, rfl⟩
        exact hminus rest rfl rfl
      · rintro ⟨rfl, rfl⟩
        exact hgreater rest rfl rfl

theorem Lexeme.valid_of_mem_scan {text : String} {l : Lexeme} (hl : l ∈ (scan text).1) :
    l.Valid := by
  have hplain : Plain ([] : List Char).reverse := Plain.nil
  exact valid_of_mem_scanFrom hplain (by simp) l hl

theorem Lexeme.mem_of_mem_comment {word text : List Char} {comment : String} {c : Char}
    (hcomment : (scanFrom word text).2 = some comment) (hc : c ∈ comment.toList) : c ∈ text := by
  have haddWord (word : List Char) (scan : Scan) : (Scan.addWord word scan).2 = scan.2 := by
    unfold Scan.addWord
    split <;> rfl
  fun_induction scanFrom word text with
  | case1 word => simp [haddWord] at hcomment
  | case2 word text =>
    obtain rfl : String.ofList text = comment := by simpa [haddWord] using hcomment
    simp_all
  | case3 word text ih | case4 word text _ _ ih | case5 word text _ _ _ ih =>
    rw [haddWord] at hcomment
    simp [ih hcomment]
  | case6 word c text _ _ _ _ _ ih =>
    rw [haddWord] at hcomment
    simp [ih hcomment]
  | case7 word c text _ _ _ _ _ ih => simp [ih hcomment]

theorem Lexeme.Valid.item {l : Lexeme} {i : Item} (h : l.Valid) (hi : l.item = .ok i) :
    i.Valid := by
  cases l with
  | marker m =>
    cases hi
    trivial
  | word text =>
    rw [Lexeme.item, Atom.ofWord, Except.map_eq_ok_iff] at hi
    obtain ⟨a, ha, rfl⟩ := hi
    split at ha
    · obtain ⟨n, -, rfl⟩ := Except.map_eq_ok_iff.mp ha
      trivial
    · rename_i hdigit
      cases ha
      exact ⟨h.1, h.2, by simpa using hdigit⟩

/-- A line that is read has valid items, and its comment is part of the text. -/
theorem Line.read_eq_ok {number : Nat} {text : String} {l : Line}
    (h : Line.read number text = .ok l) :
    l.Valid ∧ ∀ comment ∈ l.comment, ∀ c ∈ comment.toList, c ∈ text.toList := by
  unfold Line.read at h
  split at h
  · cases h
  · simp only at h
    split at h
    · rename_i items hitems
      cases h
      constructor
      · intro i hi
        obtain ⟨l, hl, heq⟩ := Except.exists_of_mem_mapM hitems hi
        exact (Lexeme.valid_of_mem_scan hl).item heq
      · intro comment hcomment c hc
        exact Lexeme.mem_of_mem_comment hcomment hc
    · cases h

end Stacklet
