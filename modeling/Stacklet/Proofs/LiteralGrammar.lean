import Mathlib.Data.Int.ModEq
import Mathlib.Data.List.TakeWhile
import Mathlib.Data.Nat.Digits.Defs
import Mathlib.Tactic.NormNum
import Stacklet.Proofs.Lexing

/-!
The grammar of number literals, and what they denote: a sign at the end, digits with separators,
and letters that choose the type. A word is read as a number exactly if the grammar has it denote
one, and each way in which it can fail to do so has its own error.
-/

namespace Stacklet

theorem Width.size_eq (w : Width) : w.size = 2 ^ w.bits := by
  cases w <;> rfl

theorem Width.bits_le (w : Width) : w.bits ≤ 64 := by
  cases w <;> decide

namespace NumberType

/-- The values of a type, as its width in bits gives them. -/
def InRange (t : NumberType) (v : Int) : Prop :=
  if t.signed then -2 ^ (t.width.bits - 1) ≤ v ∧ v < 2 ^ (t.width.bits - 1)
  else 0 ≤ v ∧ v < 2 ^ t.width.bits

theorem inRange_iff (t : NumberType) (v : Int) : t.InRange v ↔ t.Holds v := by
  obtain ⟨width, signed⟩ := t
  cases width <;> cases signed <;>
    simp only [InRange, Holds, least, bound, Width.bits, Width.size, if_true, Bool.false_eq_true,
      if_false] <;> norm_num

/-- A pattern stands for the one value of the type that it is congruent to. -/
theorem ofPattern_eq_iff {t : NumberType} {pattern : Nat} (h : pattern < t.width.size) (v : Int) :
    t.ofPattern pattern = v ↔ t.InRange v ∧ v ≡ pattern [ZMOD 2 ^ t.width.bits] := by
  rw [inRange_iff]
  obtain ⟨width, signed⟩ := t
  cases width <;> cases signed <;>
    simp only [Holds, least, bound, ofPattern, Width.bits, Width.size, if_true,
      Bool.false_eq_true, if_false, Int.ModEq, Int.bmod] at h ⊢ <;> norm_num at h ⊢ <;> omega

end NumberType

namespace Literal

/-! The grammar. -/

/-- A digit counts as its place among these. -/
def hexDigits : List Char :=
  ['0', '1', '2', '3', '4', '5', '6', '7', '8', '9', 'A', 'B', 'C', 'D', 'E', 'F']

def separators : List Char := ['_', '-']

def decimalChars : List Char := hexDigits.take 10 ++ separators

def hexChars : List Char := hexDigits ++ separators

def digitsIn (text : List Char) : List Char := text.filter (· ∉ separators)

/-- The number that digits spell, the last one for the units. -/
def spelled (base : Nat) (text : List Char) : Nat :=
  Nat.ofDigits base ((digitsIn text).map hexDigits.idxOf).reverse

/-- A word is the body of a literal and its sign, if it has one. -/
inductive HasSign : (word body : List Char) → (negative : Bool) → Prop where
  | minus {body : List Char} : HasSign (body ++ ['-']) body true
  | plus {body : List Char} : HasSign (body ++ ['+']) body false
  | none {word : List Char} : word.getLast? ≠ some '-' → word.getLast? ≠ some '+' →
      HasSign word word false

/-- The front is the longest part at the start of a text with such characters only. -/
structure Divides (chars text front rest : List Char) : Prop where
  eq_append : text = front ++ rest
  mem_chars : ∀ c ∈ front, c ∈ chars
  not_mem_chars : ∀ c ∈ rest.head?, c ∉ chars

/-- The parts of a decimal literal. -/
def Decimal (word : List Char) (negative : Bool) (digits letters : List Char) : Prop :=
  ∃ body, HasSign word body negative ∧ ¬ ['0', 'x'] <+: body ∧
    Divides decimalChars body digits letters

/-- The parts of a hexadecimal literal, up to where its digits end. -/
def Hexadecimal (word : List Char) (negative : Bool) (digits tail : List Char) : Prop :=
  ∃ body, HasSign word ('0' :: 'x' :: body) negative ∧ Divides hexChars body digits tail

def signLetters : Option Bool → List Char
  | none => []
  | some true => ['i']
  | some false => ['u']

def widthLetters : Option Width → List Char
  | none => []
  | some .byte => ['b']
  | some .half => ['h']
  | some .word => ['w']
  | some .double => ['d']

/-- The letters for a sign and a width, each of which may be left open. -/
def letters (sign : Option Bool) (width : Option Width) : List Char :=
  signLetters sign ++ widthLetters width

/-- The letters of a hexadecimal literal stand after an `x`, or it ends with its digits. -/
inductive SetsOff : List Char → Option Bool → Option Width → Prop where
  | nothing : SetsOff [] none none
  | letters {sign : Option Bool} {width : Option Width} :
      SetsOff ('x' :: letters sign width) sign width

/-- The type that a sign and a width choose, where the kind of literal decides what is open; but
with a width of one byte alone, it is unsigned. -/
def chosen (sign : Option Bool) (width : Option Width) (signed : Bool) (w : Width) : NumberType :=
  ⟨width.getD w, sign.getD (signed && width ≠ some .byte)⟩

/-- The narrowest width with so many bits, or the greatest if none has. -/
structure Narrowest (count : Nat) (w : Width) : Prop where
  enough : count ≤ w.bits ∨ w = .double
  least : ∀ w' : Width, count ≤ w'.bits → w.bits ≤ w'.bits

def withSign (negative : Bool) (v : Int) : Int := if negative then -v else v

/-- The type of a hexadecimal literal, which is as wide as its digits need if that is open. -/
inductive HexType (digits : List Char) (sign : Option Bool) (width : Option Width) :
    NumberType → Prop where
  | mk {w : Width} : Narrowest (4 * (digitsIn digits).length) w →
      HexType digits sign width (chosen sign width false w)

/-- The digits of a hexadecimal literal are a bit pattern of its type, which stands for `u`. -/
inductive StandsFor (word : List Char) (negative : Bool) (t : NumberType) (u : Int) : Prop where
  | mk {digits tail : List Char} {sign : Option Bool} {width : Option Width} :
      Hexadecimal word negative digits tail → SetsOff tail sign width → digitsIn digits ≠ [] →
      HexType digits sign width t → spelled 16 digits < 2 ^ t.width.bits →
      t.InRange u → u ≡ spelled 16 digits [ZMOD 2 ^ t.width.bits] →
        StandsFor word negative t u

/-- The number that a word denotes. -/
inductive Denotes (word : List Char) : NumberType → Int → Prop where
  | decimal {negative : Bool} {digits : List Char} {sign : Option Bool} {width : Option Width}
      {t : NumberType} {v : Int} :
      Decimal word negative digits (letters sign width) → t = chosen sign width true .word →
      v = withSign negative (spelled 10 digits) → t.InRange v →
        Denotes word t v
  | hexadecimal {negative : Bool} {t : NumberType} {u v : Int} :
      StandsFor word negative t u → v = withSign negative u → t.InRange v → Denotes word t v

/-- Why a word denotes no number. -/
inductive Refused (word : String) : LiteralError → Prop where
  | decimalLetters {negative : Bool} {digits rest : List Char} :
      Decimal word.toList negative digits rest → (∀ sign width, rest ≠ letters sign width) →
        Refused word (.unrecognizedSuffix word (String.ofList rest))
  | decimalOverflow {negative : Bool} {digits : List Char} {sign : Option Bool}
      {width : Option Width} {t : NumberType} :
      Decimal word.toList negative digits (letters sign width) → t = chosen sign width true .word →
      ¬ t.InRange (withSign negative (spelled 10 digits)) →
        Refused word (.overflow word t)
  | hexTail {negative : Bool} {digits tail : List Char} :
      Hexadecimal word.toList negative digits tail → tail ≠ [] → tail.head? ≠ some 'x' →
        Refused word (.malformedDigits word)
  | hexLetters {negative : Bool} {digits rest : List Char} :
      Hexadecimal word.toList negative digits ('x' :: rest) →
      (∀ sign width, rest ≠ letters sign width) →
        Refused word (.unrecognizedSuffix word (String.ofList rest))
  | noDigits {negative : Bool} {digits tail : List Char} {sign : Option Bool}
      {width : Option Width} :
      Hexadecimal word.toList negative digits tail → SetsOff tail sign width →
      digitsIn digits = [] →
        Refused word (.malformedDigits word)
  /-- A pattern that fits no type at all is reported for the widest. -/
  | tooLong {negative : Bool} {digits tail : List Char} {sign : Option Bool}
      {width : Option Width} :
      Hexadecimal word.toList negative digits tail → SetsOff tail sign width →
      2 ^ 64 ≤ spelled 16 digits →
        Refused word (.overflow word ⟨.double, sign.getD false⟩)
  | hexOverflow {negative : Bool} {digits tail : List Char} {sign : Option Bool}
      {width : Option Width} {t : NumberType} :
      Hexadecimal word.toList negative digits tail → SetsOff tail sign width →
      digitsIn digits ≠ [] → spelled 16 digits < 2 ^ 64 → HexType digits sign width t →
      2 ^ t.width.bits ≤ spelled 16 digits →
        Refused word (.overflow word t)
  | noOpposite {t : NumberType} {u : Int} :
      StandsFor word.toList true t u → ¬ t.InRange (-u) → Refused word (.overflow word t)

/-! Characters and digits. -/

theorem isSeparator_iff (c : Char) : isSeparator c ↔ c ∈ separators := by
  simp [isSeparator, separators, or_comm]

theorem isDigit_iff (c : Char) : c.isDigit ↔ c ∈ hexDigits.take 10 := by
  have hrange : c.isDigit ↔ 48 ≤ c.toNat ∧ c.toNat ≤ 57 := by
    simp [Char.isDigit, UInt32.le_iff_toNat_le]
  rw [hrange]
  simp only [hexDigits, List.take_succ_cons, List.take_zero, List.mem_cons, List.not_mem_nil,
    or_false, ← Char.toNat_inj, Char.reduceToNat]
  omega

theorem isHexDigit_iff (c : Char) : isHexDigit c ↔ c ∈ hexDigits := by
  have hrange : ('A' ≤ c && c ≤ 'F') ↔ 65 ≤ c.toNat ∧ c.toNat ≤ 70 := by
    simp [Char.le_def, UInt32.le_iff_toNat_le]
  rw [isHexDigit, Bool.or_eq_true, isDigit_iff, hrange]
  simp only [hexDigits, List.take_succ_cons, List.take_zero, List.mem_cons, List.not_mem_nil,
    or_false, ← Char.toNat_inj, Char.reduceToNat]
  omega

theorem isDecimalPart_iff (c : Char) : isDecimalPart c ↔ c ∈ decimalChars := by
  rw [isDecimalPart, Bool.or_eq_true, isDigit_iff, isSeparator_iff, decimalChars, List.mem_append]

theorem isHexPart_iff (c : Char) : isHexPart c ↔ c ∈ hexChars := by
  rw [isHexPart, Bool.or_eq_true, isHexDigit_iff, isSeparator_iff, hexChars, List.mem_append]

theorem decimalChars_subset : decimalChars ⊆ hexChars := by
  intro c hc
  rcases List.mem_append.mp hc with hdigit | hseparator
  · exact List.mem_append_left _ (List.mem_of_mem_take hdigit)
  · exact List.mem_append_right _ hseparator

theorem dropSeparators_eq (text : List Char) : dropSeparators text = digitsIn text := by
  apply List.filter_congr
  intro c _
  rw [Bool.eq_iff_iff, Bool.not_eq_true', Bool.eq_false_iff, Ne, isSeparator_iff, decide_eq_true_eq]

theorem digitValue_eq : ∀ c ∈ hexDigits, digitValue c = hexDigits.idxOf c := by
  have hmap : hexDigits.map digitValue = hexDigits.map hexDigits.idxOf := by decide
  exact List.map_inj_left.mp hmap

theorem valueOf_eq {base : Nat} {text : List Char} (h : ∀ c ∈ text, c ∈ hexChars) :
    valueOf base (digitsIn text) = spelled base text := by
  have hdigits : (digitsIn text).map digitValue = (digitsIn text).map hexDigits.idxOf := by
    apply List.map_congr_left
    intro c hc
    obtain ⟨hmem, hseparator⟩ := List.mem_filter.mp hc
    have hdigit := List.mem_append.mp (h c hmem)
    exact digitValue_eq c (hdigit.resolve_right (of_decide_eq_true hseparator))
  rw [spelled, ← hdigits, Nat.ofDigits_eq_foldr, List.foldr_reverse,
    List.foldl_map, valueOf]
  congr 1
  funext value c
  exact Nat.add_comm _ _

/-! Dividing a word. -/

theorem HasSign.unsign_eq {word body : List Char} {negative : Bool}
    (h : HasSign word body negative) : unsign word = (body, negative) := by
  cases h with
  | minus => simp [unsign]
  | plus => simp [unsign]
  | none hminus hplus =>
    unfold unsign
    split
    · contradiction
    · contradiction
    · rfl

theorem exists_hasSign (word : List Char) : ∃ body negative, HasSign word body negative := by
  by_cases hminus : word.getLast? = some '-'
  · obtain ⟨body, rfl⟩ := List.getLast?_eq_some_iff.mp hminus
    exact ⟨body, true, .minus⟩
  · by_cases hplus : word.getLast? = some '+'
    · obtain ⟨body, rfl⟩ := List.getLast?_eq_some_iff.mp hplus
      exact ⟨body, false, .plus⟩
    · exact ⟨word, false, .none hminus hplus⟩

section Divides

variable {chars text front rest : List Char} {p : Char → Bool}

theorem Divides.takeWhile_eq (h : Divides chars text front rest) (hp : ∀ c, p c ↔ c ∈ chars) :
    text.takeWhile p = front := by
  rw [h.eq_append]
  exact Text.takeWhile_append (fun c hc => (hp c).mpr (h.mem_chars c hc)) fun c hc =>
    Bool.eq_false_iff.mpr fun hpc => h.not_mem_chars c hc ((hp c).mp hpc)

theorem Divides.dropWhile_eq (h : Divides chars text front rest) (hp : ∀ c, p c ↔ c ∈ chars) :
    text.dropWhile p = rest := by
  rw [h.eq_append]
  exact Text.dropWhile_append (fun c hc => (hp c).mpr (h.mem_chars c hc)) fun c hc =>
    Bool.eq_false_iff.mpr fun hpc => h.not_mem_chars c hc ((hp c).mp hpc)

theorem exists_divides (chars text : List Char) : ∃ front rest, Divides chars text front rest := by
  refine ⟨text.takeWhile (· ∈ chars), text.dropWhile (· ∈ chars), ?_, ?_, ?_⟩
  · exact List.takeWhile_append_dropWhile.symm
  · intro c hc
    have hmem := List.mem_takeWhile_imp hc
    exact of_decide_eq_true hmem
  · intro c hc
    exact of_decide_eq_false (Text.head_dropWhile _ text c hc)

end Divides

theorem decimal_or_hexadecimal (word : List Char) :
    (∃ negative digits letters, Decimal word negative digits letters) ∨
      ∃ negative digits tail, Hexadecimal word negative digits tail := by
  obtain ⟨body, negative, hsign⟩ := exists_hasSign word
  by_cases hmark : ['0', 'x'] <+: body
  · obtain ⟨body, rfl⟩ := hmark
    obtain ⟨digits, tail, hdivides⟩ := exists_divides hexChars body
    exact .inr ⟨negative, digits, tail, body, hsign, hdivides⟩
  · obtain ⟨digits, letters, hdivides⟩ := exists_divides decimalChars body
    exact .inl ⟨negative, digits, letters, body, hsign, hmark, hdivides⟩

/-! Letters and types. -/

/-- What is read from letters chooses the type that the letters stand for. -/
def Suffix.Chooses (s : Suffix) (sign : Option Bool) (width : Option Width) : Prop :=
  ∀ signed w, (⟨s.width.getD w, s.signed.getD signed⟩ : NumberType) = chosen sign width signed w

theorem width?_eq_some_iff {rest : List Char} {width : Option Width} :
    width? rest = some width ↔ rest = widthLetters width := by
  constructor
  · intro h
    unfold width? at h
    split at h <;> cases h <;> rfl
  · rintro rfl
    cases width with
    | none => rfl
    | some w => cases w <;> rfl

theorem exists_suffix?_letters (sign : Option Bool) (width : Option Width) :
    ∃ s, suffix? (letters sign width) = some s ∧ s.Chooses sign width := by
  cases sign with
  | some signed =>
    refine ⟨⟨some signed, width⟩, ?_, fun _ _ => rfl⟩
    cases signed with
    | true => exact Option.map_eq_some_iff.mpr ⟨width, width?_eq_some_iff.mpr rfl, rfl⟩
    | false => exact Option.map_eq_some_iff.mpr ⟨width, width?_eq_some_iff.mpr rfl, rfl⟩
  | none =>
    cases width with
    | none => exact ⟨⟨none, none⟩, rfl, fun signed w => by simp [chosen]⟩
    | some w =>
      cases w with
      | byte => exact ⟨⟨some false, some .byte⟩, rfl, fun signed w => by simp [chosen]⟩
      | half => exact ⟨⟨none, some .half⟩, rfl, fun signed w => by simp [chosen]⟩
      | word => exact ⟨⟨none, some .word⟩, rfl, fun signed w => by simp [chosen]⟩
      | double => exact ⟨⟨none, some .double⟩, rfl, fun signed w => by simp [chosen]⟩

theorem exists_letters {rest : List Char} {s : Suffix} (h : suffix? rest = some s) :
    ∃ sign width, rest = letters sign width := by
  unfold suffix? at h
  split at h
  · obtain ⟨width, hwidth, -⟩ := Option.map_eq_some_iff.mp h
    exact ⟨some true, width, by rw [width?_eq_some_iff.mp hwidth]; rfl⟩
  · obtain ⟨width, hwidth, -⟩ := Option.map_eq_some_iff.mp h
    exact ⟨some false, width, by rw [width?_eq_some_iff.mp hwidth]; rfl⟩
  · exact ⟨none, some .byte, rfl⟩
  · obtain ⟨width, hwidth, -⟩ := Option.map_eq_some_iff.mp h
    exact ⟨none, width, width?_eq_some_iff.mp hwidth⟩

theorem exists_suffix (word : String) (sign : Option Bool) (width : Option Width) :
    ∃ s, suffix word (letters sign width) = .ok s ∧ s.Chooses sign width := by
  obtain ⟨s, hs, hchooses⟩ := exists_suffix?_letters sign width
  exact ⟨s, by rw [suffix, hs], hchooses⟩

theorem suffix_eq_error (word : String) {rest : List Char}
    (h : ∀ sign width, rest ≠ letters sign width) :
    suffix word rest = .error (.unrecognizedSuffix word (String.ofList rest)) := by
  cases hs : suffix? rest with
  | none => rw [suffix, hs]
  | some s =>
    obtain ⟨sign, width, hrest⟩ := exists_letters hs
    exact absurd hrest (h sign width)

theorem hexSuffix_eq_error (word : String) {tail : List Char} (hne : tail ≠ [])
    (hx : tail.head? ≠ some 'x') : hexSuffix word tail = .error (.malformedDigits word) := by
  unfold hexSuffix
  split
  · contradiction
  · exact absurd rfl hx
  · rfl

theorem SetsOff.exists_suffix {tail : List Char} {sign : Option Bool} {width : Option Width}
    (h : SetsOff tail sign width) (word : String) :
    ∃ s, hexSuffix word tail = .ok s ∧ s.Chooses sign width := by
  cases h with
  | nothing => exact ⟨⟨none, none⟩, rfl, fun signed w => by simp [chosen]⟩
  | letters => exact Literal.exists_suffix word sign width

theorem narrowest_holding (count : Nat) : Narrowest count (.holding count) := by
  constructor
  · unfold Width.holding
    split_ifs <;> simp only [Width.bits, or_false, or_true] <;> assumption
  · intro w' hw'
    unfold Width.holding
    split_ifs <;> cases w' <;> simp only [Width.bits] at hw' ⊢ <;> omega

theorem Narrowest.bits_le {count : Nat} {w w' : Width} (h : Narrowest count w)
    (h' : Narrowest count w') : w.bits ≤ w'.bits := by
  rcases h'.enough with henough | rfl
  · exact h.least w' henough
  · cases w <;> decide

theorem Narrowest.eq_holding {count : Nat} {w : Width} (h : Narrowest count w) :
    w = .holding count := by
  have hbits : w.bits = (Width.holding count).bits :=
    Nat.le_antisymm (h.bits_le (narrowest_holding count)) ((narrowest_holding count).bits_le h)
  have hinjective {w w' : Width} (h : w.bits = w'.bits) : w = w' := by
    cases w <;> cases w' <;> first | rfl | exact absurd h (by decide)
  exact hinjective hbits

/-! Fitting. -/

theorem fitting_of_inRange (word : String) {t : NumberType} {v : Int} (h : t.InRange v) :
    fitting word t (Number.ofInt? t v) = .ok ⟨t, v, (t.inRange_iff v).mp h⟩ := by
  rw [Number.ofInt?, dif_pos]
  rfl

theorem fitting_of_not_inRange (word : String) {t : NumberType} {v : Int} (h : ¬ t.InRange v) :
    fitting word t (Number.ofInt? t v) = .error (.overflow word t) := by
  rw [Number.ofInt?, dif_neg fun hv => h ((t.inRange_iff v).mpr hv)]
  rfl

theorem ofBits?_eq_some {t : NumberType} {pattern : Nat} {u : Int}
    (hlt : pattern < 2 ^ t.width.bits) (hu : t.InRange u)
    (hmod : u ≡ pattern [ZMOD 2 ^ t.width.bits]) :
    Number.ofBits? t pattern = Number.ofInt? t u := by
  rw [← Width.size_eq] at hlt
  rw [Number.ofBits?, if_pos hlt, (NumberType.ofPattern_eq_iff hlt u).mpr ⟨hu, hmod⟩]

theorem ofBits?_eq_none {t : NumberType} {pattern : Nat} (hle : 2 ^ t.width.bits ≤ pattern) :
    Number.ofBits? t pattern = none := by
  rw [← Width.size_eq] at hle
  rw [Number.ofBits?, if_neg (Nat.not_lt.mpr hle)]

theorem exists_modEq {t : NumberType} {pattern : Nat} (hlt : pattern < 2 ^ t.width.bits) :
    ∃ u, t.InRange u ∧ u ≡ pattern [ZMOD 2 ^ t.width.bits] := by
  rw [← Width.size_eq] at hlt
  exact ⟨t.ofPattern pattern, (NumberType.ofPattern_eq_iff hlt _).mp rfl⟩

/-! Reading a word. -/

section Read

variable {word : String} {negative : Bool} {digits rest : List Char} {s : Suffix}
  {sign : Option Bool} {width : Option Width} {e : LiteralError}

theorem Decimal.read_eq (h : Decimal word.toList negative digits rest) :
    ∃ body, read word = decimal word body negative ∧
      body.takeWhile isDecimalPart = digits ∧ body.dropWhile isDecimalPart = rest ∧
      valueOf 10 (dropSeparators digits) = spelled 10 digits := by
  obtain ⟨body, hsign, hmark, hdivides⟩ := h
  refine ⟨body, ?_, hdivides.takeWhile_eq isDecimalPart_iff,
    hdivides.dropWhile_eq isDecimalPart_iff, ?_⟩
  · unfold read
    rw [hsign.unsign_eq]
    split
    · rename_i hbody
      obtain ⟨rfl, rfl⟩ := Prod.mk.inj hbody
      exact absurd ⟨_, rfl⟩ hmark
    · rename_i hbody
      obtain ⟨rfl, rfl⟩ := Prod.mk.inj hbody
      rfl
  · rw [dropSeparators_eq]
    exact valueOf_eq fun c hc => decimalChars_subset (hdivides.mem_chars c hc)

theorem Decimal.read_of_error (h : Decimal word.toList negative digits rest)
    (hs : suffix word rest = .error e) : read word = .error e := by
  obtain ⟨body, hread, -, hrest, -⟩ := h.read_eq
  rw [hread, decimal, hrest, hs]
  rfl

theorem Decimal.read_of_ok (h : Decimal word.toList negative digits rest)
    (hs : suffix word rest = .ok s) (hchooses : s.Chooses sign width) :
    read word = fitting word (chosen sign width true .word)
      (Number.ofInt? (chosen sign width true .word) (withSign negative (spelled 10 digits))) := by
  obtain ⟨body, hread, hdigits, hrest, hvalue⟩ := h.read_eq
  rw [hread, decimal, hrest, hs, hdigits, ← hchooses]
  simp only [hvalue]
  rfl

theorem Hexadecimal.read_eq (h : Hexadecimal word.toList negative digits rest) :
    ∃ body, read word = hexadecimal word body negative ∧
      body.takeWhile isHexPart = digits ∧ body.dropWhile isHexPart = rest ∧
      valueOf 16 (digitsIn digits) = spelled 16 digits := by
  obtain ⟨body, hsign, hdivides⟩ := h
  refine ⟨body, ?_, hdivides.takeWhile_eq isHexPart_iff, hdivides.dropWhile_eq isHexPart_iff,
    valueOf_eq hdivides.mem_chars⟩
  unfold read
  rw [hsign.unsign_eq]
  rfl

theorem Hexadecimal.read_of_error (h : Hexadecimal word.toList negative digits rest)
    (hs : hexSuffix word rest = .error e) : read word = .error e := by
  obtain ⟨body, hread, -, hrest, -⟩ := h.read_eq
  rw [hread, hexadecimal, hrest, hs]
  rfl

theorem Hexadecimal.read_of_ok {t : NumberType} (h : Hexadecimal word.toList negative digits rest)
    (hs : hexSuffix word rest = .ok s) (hchooses : s.Chooses sign width)
    (ht : HexType digits sign width t) :
    read word =
      if digitsIn digits = [] then .error (.malformedDigits word)
      else if 2 ^ 64 ≤ spelled 16 digits then .error (.overflow word ⟨.double, t.signed⟩)
      else
        fitting word t (Number.ofBits? t (spelled 16 digits)) >>= fun n =>
          if negative then fitting word t n.neg? else .ok n := by
  obtain ⟨body, hread, hdigits, hrest, hvalue⟩ := h.read_eq
  obtain ⟨hw⟩ := ht
  obtain rfl := hw.eq_holding
  rw [hread, hexadecimal, hrest, hs, hdigits, ← hchooses]
  simp only [dropSeparators_eq, hvalue, List.isEmpty_iff]
  rfl

end Read

theorem exists_hexType (digits : List Char) (sign : Option Bool) (width : Option Width) :
    ∃ t, HexType digits sign width t :=
  ⟨_, .mk (narrowest_holding _)⟩

theorem HexType.signed_eq {digits : List Char} {sign : Option Bool} {width : Option Width}
    {t : NumberType} (h : HexType digits sign width t) : t.signed = sign.getD false := by
  obtain ⟨-⟩ := h
  simp [chosen]

theorem spelled_of_digitsIn_eq_nil {base : Nat} {text : List Char} (h : digitsIn text = []) :
    spelled base text = 0 := by
  simp [spelled, h]

theorem StandsFor.read_eq {word : String} {negative : Bool} {t : NumberType} {u : Int}
    (h : StandsFor word.toList negative t u) :
    ∃ hu, read word =
      if negative then fitting word t (Number.ofInt? t (-u)) else .ok ⟨t, u, hu⟩ := by
  obtain ⟨hparts, htail, hdigits, ht, hlt, hu, hmod⟩ := h
  obtain ⟨s, hs, hchooses⟩ := htail.exists_suffix word
  have hshort := hlt.trans_le (Nat.pow_le_pow_right Nat.two_pos t.width.bits_le)
  rw [hparts.read_of_ok hs hchooses ht, if_neg hdigits, if_neg (Nat.not_le.mpr hshort),
    ofBits?_eq_some hlt hu hmod, fitting_of_inRange word hu]
  exact ⟨_, rfl⟩

theorem Denotes.read_eq {word : String} {t : NumberType} {v : Int}
    (h : Denotes word.toList t v) : ∃ hv, read word = .ok ⟨t, v, hv⟩ := by
  cases h with
  | @decimal negative digits sign width _ _ hparts ht hvalue hrange =>
    subst ht hvalue
    obtain ⟨s, hs, hchooses⟩ := exists_suffix word sign width
    rw [hparts.read_of_ok hs hchooses, fitting_of_inRange word hrange]
    exact ⟨_, rfl⟩
  | @hexadecimal negative _ u _ hstands hvalue hrange =>
    subst hvalue
    obtain ⟨hu, hread⟩ := hstands.read_eq
    rw [hread]
    cases negative with
    | false => exact ⟨hu, rfl⟩
    | true => exact ⟨_, fitting_of_inRange word hrange⟩

theorem Refused.read_eq {word : String} {e : LiteralError} (h : Refused word e) :
    read word = .error e := by
  cases h with
  | decimalLetters hparts hletters =>
    exact hparts.read_of_error (suffix_eq_error word hletters)
  | @decimalOverflow negative digits sign width _ hparts ht hrange =>
    subst ht
    obtain ⟨s, hs, hchooses⟩ := exists_suffix word sign width
    rw [hparts.read_of_ok hs hchooses, fitting_of_not_inRange word hrange]
  | hexTail hparts hne hx => exact hparts.read_of_error (hexSuffix_eq_error word hne hx)
  | hexLetters hparts hletters => exact hparts.read_of_error (suffix_eq_error word hletters)
  | @noDigits negative digits tail sign width hparts htail hdigits =>
    obtain ⟨s, hs, hchooses⟩ := htail.exists_suffix word
    obtain ⟨t, ht⟩ := exists_hexType digits sign width
    rw [hparts.read_of_ok hs hchooses ht, if_pos hdigits]
  | @tooLong negative digits tail sign width hparts htail hle =>
    obtain ⟨s, hs, hchooses⟩ := htail.exists_suffix word
    obtain ⟨t, ht⟩ := exists_hexType digits sign width
    have hdigits : digitsIn digits ≠ [] := by
      intro hnil
      rw [spelled_of_digitsIn_eq_nil hnil] at hle
      exact absurd hle (by decide)
    rw [hparts.read_of_ok hs hchooses ht, if_neg hdigits, if_pos hle, ht.signed_eq]
  | hexOverflow hparts htail hdigits hlt ht hle =>
    obtain ⟨s, hs, hchooses⟩ := htail.exists_suffix word
    rw [hparts.read_of_ok hs hchooses ht, if_neg hdigits, if_neg (Nat.not_le.mpr hlt),
      ofBits?_eq_none hle]
    rfl
  | noOpposite hstands hrange =>
    obtain ⟨hu, hread⟩ := hstands.read_eq
    rw [hread]
    exact fitting_of_not_inRange word hrange

section Total

variable {word : String} {negative : Bool} {digits rest : List Char}

theorem Decimal.denotes_or_refused (h : Decimal word.toList negative digits rest) :
    (∃ t v, Denotes word.toList t v) ∨ ∃ e, Refused word e := by
  by_cases hletters : ∃ sign width, rest = letters sign width
  · obtain ⟨sign, width, rfl⟩ := hletters
    by_cases hrange :
        (chosen sign width true .word).InRange (withSign negative (spelled 10 digits))
    · exact .inl ⟨_, _, .decimal h rfl rfl hrange⟩
    · exact .inr ⟨_, .decimalOverflow h rfl hrange⟩
  · exact .inr ⟨_, .decimalLetters h fun sign width heq => hletters ⟨sign, width, heq⟩⟩

theorem Hexadecimal.denotes_or_refused_of_setsOff {sign : Option Bool} {width : Option Width}
    (h : Hexadecimal word.toList negative digits rest) (hrest : SetsOff rest sign width) :
    (∃ t v, Denotes word.toList t v) ∨ ∃ e, Refused word e := by
  obtain ⟨t, ht⟩ := exists_hexType digits sign width
  by_cases hdigits : digitsIn digits = []
  · exact .inr ⟨_, .noDigits h hrest hdigits⟩
  by_cases hlong : 2 ^ 64 ≤ spelled 16 digits
  · exact .inr ⟨_, .tooLong h hrest hlong⟩
  by_cases hlt : spelled 16 digits < 2 ^ t.width.bits
  · obtain ⟨u, hu, hmod⟩ := exists_modEq hlt
    have hstands := StandsFor.mk h hrest hdigits ht hlt hu hmod
    by_cases hrange : t.InRange (withSign negative u)
    · exact .inl ⟨t, _, .hexadecimal hstands rfl hrange⟩
    -- Without a minus the value is the one that the pattern stands for.
    · cases negative with
      | false => exact absurd hu hrange
      | true => exact .inr ⟨_, .noOpposite hstands hrange⟩
  · exact .inr ⟨_, .hexOverflow h hrest hdigits (Nat.not_le.mp hlong) ht (Nat.not_lt.mp hlt)⟩

theorem Hexadecimal.denotes_or_refused (h : Hexadecimal word.toList negative digits rest) :
    (∃ t v, Denotes word.toList t v) ∨ ∃ e, Refused word e := by
  by_cases hrest : ∃ sign width, SetsOff rest sign width
  · obtain ⟨sign, width, hrest⟩ := hrest
    exact h.denotes_or_refused_of_setsOff hrest
  · have hne : rest ≠ [] := by
      rintro rfl
      exact hrest ⟨none, none, .nothing⟩
    by_cases hx : rest.head? = some 'x'
    · obtain ⟨letters, rfl⟩ := List.head?_eq_some_iff.mp hx
      refine .inr ⟨_, .hexLetters h ?_⟩
      rintro sign width rfl
      exact hrest ⟨sign, width, .letters⟩
    · exact .inr ⟨_, .hexTail h hne hx⟩

theorem exists_denotes_or_refused (word : String) :
    (∃ t v, Denotes word.toList t v) ∨ ∃ e, Refused word e := by
  rcases decimal_or_hexadecimal word.toList with ⟨_, _, _, h⟩ | ⟨_, _, _, h⟩
  · exact h.denotes_or_refused
  · exact h.denotes_or_refused

end Total

theorem read_eq_ok_iff {word : String} {n : Number} :
    read word = .ok n ↔ Denotes word.toList n.type n.value := by
  constructor
  · intro h
    rcases exists_denotes_or_refused word with ⟨t, v, hdenotes⟩ | ⟨e, hrefused⟩
    · obtain ⟨hv, hread⟩ := hdenotes.read_eq
      obtain rfl := Except.ok.inj (h.symm.trans hread)
      exact hdenotes
    · cases h.symm.trans hrefused.read_eq
  · intro h
    obtain ⟨hv, hread⟩ := h.read_eq
    exact hread

theorem read_eq_error_iff {word : String} {e : LiteralError} :
    read word = .error e ↔ Refused word e := by
  constructor
  · intro h
    rcases exists_denotes_or_refused word with ⟨t, v, hdenotes⟩ | ⟨e', hrefused⟩
    · obtain ⟨hv, hread⟩ := hdenotes.read_eq
      cases h.symm.trans hread
    · obtain rfl := Except.error.inj (h.symm.trans hrefused.read_eq)
      exact hrefused
  · exact Refused.read_eq

end Literal

namespace Atom

/-- A word that starts with a digit is read as the number that the grammar has it denote, and if it
denotes none, the error says why. -/
theorem ofWord_reads_literals (word : String) (hword : ∃ c ∈ word.toList.head?, c.isDigit) :
    (∀ a, ofWord word = .ok a ↔
      ∃ n, a = .number n ∧ Literal.Denotes word.toList n.type n.value) ∧
    ∀ e, ofWord word = .error e ↔ Literal.Refused word e := by
  have hread : ofWord word = (Literal.read word).map .number := by
    obtain ⟨c, hhead, hc⟩ := hword
    rw [ofWord, Option.mem_def.mp hhead, Option.any_some, if_pos hc]
  refine ⟨fun a => ?_, fun e => ?_⟩
  · rw [hread]
    constructor
    · intro h
      obtain ⟨n, hn, rfl⟩ := Except.map_eq_ok_iff.mp h
      exact ⟨n, rfl, Literal.read_eq_ok_iff.mp hn⟩
    · rintro ⟨n, rfl, hn⟩
      rw [Literal.read_eq_ok_iff.mpr hn]
      rfl
  · rw [hread, Except.map_eq_error_iff, Literal.read_eq_error_iff]

/-- The pattern of a negative number is negated, unless the type lacks the opposite. -/
theorem ofWord_reads_patterns :
    (∃ c ∈ "0x-8_1xib-".toList.head?, c.isDigit) ∧
    Literal.Denotes "0x-8_1xib-".toList .int8 127 ∧
    Literal.Refused "0x80xib-" (.overflow "0x80xib-" .int8) := by
  have hdigit : ∃ c ∈ "0x-8_1xib-".toList.head?, c.isDigit := ⟨'0', by decide +kernel, rfl⟩
  have hread : ofWord "0x-8_1xib-" = .ok (.number ⟨.int8, 127, by decide⟩) := by decide +kernel
  have hread' : ofWord "0x80xib-" = .error (.overflow "0x80xib-" .int8) := by decide +kernel
  refine ⟨hdigit, ?_, ?_⟩
  · obtain ⟨n, hn, hdenotes⟩ := ((ofWord_reads_literals _ hdigit).1 _).mp hread
    obtain rfl := Atom.number.inj hn
    exact hdenotes
  · exact ((ofWord_reads_literals _ ⟨'0', by decide +kernel, rfl⟩).2 _).mp hread'

end Atom

end Stacklet
