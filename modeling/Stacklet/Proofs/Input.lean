import Mathlib.Data.List.DropRight
import Mathlib.Data.List.SplitBy
import Stacklet.Console

/-!
Input that is text. Cutting its bytes at line feeds cuts no character, so each line of the input is
the encoding of a line of the text.
-/

namespace Stacklet

/-! Bytes of a text. -/

namespace Text

theorem byteArray_toList_loop (bs : ByteArray) (i : Nat) (taken : List UInt8) :
    ByteArray.toList.loop bs i taken = taken.reverse ++ bs.data.toList.drop i := by
  fun_induction ByteArray.toList.loop bs i taken with
  | case1 i taken h ih =>
    have hi : i < bs.data.toList.length := by simpa using h
    rw [ih, List.drop_eq_getElem_cons hi]
    simp [ByteArray.get!, h]
  | case2 i taken h =>
    rw [List.drop_eq_nil_of_le (by simpa using h), List.append_nil]

theorem toList_toByteArray (bytes : List UInt8) : bytes.toByteArray.toList = bytes := by
  rw [ByteArray.toList, byteArray_toList_loop, List.toList_data_toByteArray]
  rfl

/-- The encoding of characters one after the other. -/
def encode (cs : List Char) : List UInt8 := cs.flatMap String.utf8EncodeChar

theorem encode_append (cs ds : List Char) : encode (cs ++ ds) = encode cs ++ encode ds :=
  List.flatMap_append

theorem toUTF8_ofList (cs : List Char) : (String.ofList cs).toUTF8 = (encode cs).toByteArray := rfl

theorem toList_toUTF8 (text : String) : text.toUTF8.toList = encode text.toList := by
  rw [← toList_toByteArray (encode text.toList), ← toUTF8_ofList, String.ofList_toList]

theorem toList_toUTF8_append (s t : String) :
    (s ++ t).toUTF8.toList = s.toUTF8.toList ++ t.toUTF8.toList := by
  rw [toList_toUTF8, toList_toUTF8, toList_toUTF8, String.toList_append, encode_append]

theorem fromUTF8?_toUTF8 (text : String) : String.fromUTF8? text.toUTF8 = some text :=
  dif_pos text.isValidUTF8

theorem newline_eq_ofNat_iff {n : Nat} (h : n < 256) : (10 : UInt8) = UInt8.ofNat n ↔ n = 10 := by
  constructor
  · intro heq
    have hn := congrArg UInt8.toNat heq
    rw [UInt8.toNat_ofNat_of_lt' h] at hn
    exact hn.symm
  · rintro rfl
    rfl

theorem newline_iff {c : Char} : c = '\n' ↔ c.val.toNat = 10 := by
  constructor
  · rintro rfl
    rfl
  · intro h
    exact Char.ext (UInt32.toNat_inj.mp h)

/-- Only the line feed has the byte 10 in its encoding. -/
theorem mem_utf8EncodeChar_iff {c : Char} : (10 : UInt8) ∈ String.utf8EncodeChar c ↔ c = '\n' := by
  rw [newline_iff]
  simp only [String.utf8EncodeChar]
  split
  · rw [List.mem_singleton, newline_eq_ofNat_iff (by omega)]
  -- All bytes of a longer encoding have their highest bit set.
  · rename_i hlong
    have hhigh {n : Nat} (hn : 128 ≤ n) (hn' : n < 256) : ¬ (10 : UInt8) = UInt8.ofNat n := by
      rw [newline_eq_ofNat_iff hn']
      omega
    have hc : ¬ c.val.toNat = 10 := by omega
    split
    · simp (disch := omega) only [List.mem_cons, List.not_mem_nil, hhigh, hc, or_self]
    · split
      · simp (disch := omega) only [List.mem_cons, List.not_mem_nil, hhigh, hc, or_self]
      · simp (disch := omega) only [List.mem_cons, List.not_mem_nil, hhigh, hc, or_self]

theorem mem_encode_iff {cs : List Char} : (10 : UInt8) ∈ encode cs ↔ '\n' ∈ cs := by
  simp only [encode, List.mem_flatMap, mem_utf8EncodeChar_iff]
  simp

@[simp] theorem encode_eq_nil_iff {cs : List Char} : encode cs = [] ↔ cs = [] := by
  cases cs with
  | nil => simp [encode]
  | cons c cs => simp [encode, String.utf8EncodeChar_ne_nil]

/-! Lines of a text. -/

/-- The lines of a text, each with the line feed that ends it. The last may have none. -/
def physicalLines (cs : List Char) : List (List Char) := cs.splitBy fun c _ => c != '\n'

theorem isChain_of_not_mem {cs : List Char} (h : '\n' ∉ cs.dropLast) :
    cs.IsChain fun c _ => (c != '\n') = true := by
  induction cs with
  | nil => exact .nil
  | cons c cs ih =>
    cases cs with
    | nil => exact .singleton c
    | cons d cs =>
      rw [List.dropLast_cons_cons, List.mem_cons, not_or] at h
      exact .cons_cons (by simpa using Ne.symm h.1) (ih h.2)

theorem physicalLines_of_not_mem {cs : List Char} (hne : cs ≠ []) (h : '\n' ∉ cs) :
    physicalLines cs = [cs] :=
  List.splitBy_of_isChain hne (isChain_of_not_mem fun hmem => h (List.dropLast_subset _ hmem))

theorem physicalLines_append {cs : List Char} (h : '\n' ∉ cs) (rest : List Char) :
    physicalLines (cs ++ '\n' :: rest) = (cs ++ ['\n']) :: physicalLines rest := by
  have hfirst : physicalLines (cs ++ ['\n']) = [cs ++ ['\n']] :=
    List.splitBy_of_isChain (by simp) (isChain_of_not_mem (by rwa [List.dropLast_concat]))
  have hsplit : physicalLines ((cs ++ ['\n']) ++ rest) =
      physicalLines (cs ++ ['\n']) ++ physicalLines rest := by
    apply List.splitBy_append
    intro c hc d _
    rw [List.getLast?_concat] at hc
    cases hc
    rfl
  rw [List.append_assoc, hfirst] at hsplit
  exact hsplit

end Text

namespace Repl

theorem linesFrom_of_not_mem {bytes : List UInt8} (h : 10 ∉ bytes) (line : List UInt8) :
    linesFrom line bytes =
      if (line.reverse ++ bytes).isEmpty then [] else [line.reverse ++ bytes] := by
  induction bytes generalizing line with
  | nil => simp [linesFrom]
  | cons b bytes ih =>
    rw [List.mem_cons, not_or] at h
    rw [linesFrom, if_neg (Ne.symm h.1), ih h.2]
    simp

theorem linesFrom_append {bytes : List UInt8} (h : 10 ∉ bytes) (line rest : List UInt8) :
    linesFrom line (bytes ++ 10 :: rest) =
      (line.reverse ++ bytes ++ [10]) :: linesFrom [] rest := by
  induction bytes generalizing line with
  | nil => simp [linesFrom]
  | cons b bytes ih =>
    rw [List.mem_cons, not_or] at h
    rw [List.cons_append, linesFrom, if_neg (Ne.symm h.1), ih h.2]
    simp

open Text in
/-- The lines of an encoded text are the encodings of its lines. -/
theorem linesFrom_encode (cs : List Char) :
    linesFrom [] (encode cs) = (physicalLines cs).map encode := by
  induction hn : cs.length using Nat.strong_induction_on generalizing cs with
  | h n ih =>
    by_cases h : '\n' ∈ cs
    · obtain ⟨line, rest, rfl, hline⟩ := List.eq_append_cons_of_mem h
      have hrest : rest.length < n := by
        rw [← hn, List.length_append, List.length_cons]
        omega
      have hencode : encode (line ++ '\n' :: rest) = encode line ++ 10 :: encode rest :=
        encode_append line ('\n' :: rest)
      have hfirst : encode (line ++ ['\n']) = encode line ++ [10] := encode_append line ['\n']
      rw [hencode, linesFrom_append (mt mem_encode_iff.mp hline), ih _ hrest rest rfl,
        physicalLines_append hline, List.map_cons, hfirst]
      rfl
    · rw [linesFrom_of_not_mem (mt mem_encode_iff.mp h)]
      by_cases hnil : cs = []
      · subst hnil
        rfl
      · rw [physicalLines_of_not_mem hnil h]
        simp [hnil]

/-- What a session takes as the lines of an encoded text. -/
theorem map_linesFrom_toUTF8 (text : String) :
    (linesFrom [] text.toUTF8.toList).map List.toByteArray =
      (Text.physicalLines text.toList).map fun line => (String.ofList line).toUTF8 := by
  rw [Text.toList_toUTF8, linesFrom_encode, List.map_map]
  rfl

end Repl

end Stacklet
