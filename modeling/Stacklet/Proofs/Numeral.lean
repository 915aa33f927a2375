import Mathlib.Data.List.TakeWhile
import Stacklet.Literal

/-!
Canonical literals. A number is written as its magnitude, the letters of its type and its sign,
and reading this back gives the number.
-/

namespace Stacklet

namespace NumberType

theorem suffix?_suffix (t : NumberType) :
    ∃ s, Literal.suffix? t.suffix.toList = some s ∧
      (⟨s.width.getD .word, s.signed.getD true⟩ : NumberType) = t := by
  obtain ⟨width, signed⟩ := t
  cases width <;> cases signed <;> exact ⟨_, rfl, rfl⟩

/-- The letters are neither digits nor signs nor the mark of hexadecimal literals. -/
theorem suffix_letter (t : NumberType) :
    ∀ c ∈ t.suffix.toList, Literal.isDecimalPart c = false ∧ c ≠ '+' ∧ c ≠ 'x' := by
  have hall : t.suffix.toList.all fun c =>
      !Literal.isDecimalPart c && c != '+' && c != 'x' := by
    obtain ⟨width, signed⟩ := t
    cases width <;> cases signed <;> decide
  intro c hc
  simpa [and_assoc] using List.all_eq_true.mp hall c hc

end NumberType

namespace Number

/-- The canonical literal without its sign. -/
def unsigned (n : Number) : List Char := Nat.toDigits 10 n.value.natAbs ++ n.type.suffix.toList

theorem toList_render (n : Number) :
    n.render.toList = n.unsigned ++ if n.value < 0 then ['-'] else [] := by
  simp only [render, unsigned, String.toList_append, Nat.toList_repr]
  split <;> rfl

theorem isDigit_of_mem_digits {m : Nat} {c : Char} (hc : c ∈ Nat.toDigits 10 m) : c.isDigit :=
  Nat.isDigit_of_mem_toDigits (by decide) (by decide) hc

theorem mem_unsigned {n : Number} {c : Char} (hc : c ∈ n.unsigned) :
    c ≠ '-' ∧ c ≠ '+' ∧ c ≠ 'x' := by
  rcases List.mem_append.mp hc with hd | hs
  · have hdigit := isDigit_of_mem_digits hd
    refine ⟨?_, ?_, ?_⟩
    all_goals
      rintro rfl
      exact absurd hdigit (by decide)
  · obtain ⟨hpart, hplus, hx⟩ := n.type.suffix_letter c hs
    refine ⟨?_, hplus, hx⟩
    rintro rfl
    exact absurd hpart (by decide)

theorem unsigned_ne_nil (n : Number) : n.unsigned ≠ [] := by
  simp [unsigned, Nat.toDigits_ne_nil]

theorem unsign_render (n : Number) :
    Literal.unsign n.render.toList = (n.unsigned, decide (n.value < 0)) := by
  rw [toList_render]
  by_cases hneg : n.value < 0
  · simp [Literal.unsign, hneg]
  · have hlast := List.getLast?_eq_some_getLast n.unsigned_ne_nil
    obtain ⟨hminus, hplus, -⟩ := mem_unsigned (List.getLast_mem n.unsigned_ne_nil)
    simp only [hneg, if_false, List.append_nil, decide_false, Literal.unsign]
    split
    · rename_i h
      exact absurd (Option.some.inj (hlast.symm.trans h)) hminus
    · rename_i h
      exact absurd (Option.some.inj (hlast.symm.trans h)) hplus
    · rfl

theorem isDecimalPart_of_mem_digits {m : Nat} {c : Char} (hc : c ∈ Nat.toDigits 10 m) :
    Literal.isDecimalPart c := by
  simp [Literal.isDecimalPart, isDigit_of_mem_digits hc]

theorem takeWhile_unsigned (n : Number) :
    n.unsigned.takeWhile Literal.isDecimalPart = Nat.toDigits 10 n.value.natAbs := by
  have hletters : n.type.suffix.toList.takeWhile Literal.isDecimalPart = [] := by
    cases hs : n.type.suffix.toList with
    | nil => rfl
    | cons c letters =>
      have hc := (n.type.suffix_letter c (by simp [hs])).1
      simp [hc]
  rw [unsigned, List.takeWhile_append_of_pos fun c hc => isDecimalPart_of_mem_digits hc, hletters,
    List.append_nil]

theorem dropWhile_unsigned (n : Number) :
    n.unsigned.dropWhile Literal.isDecimalPart = n.type.suffix.toList := by
  have h : n.unsigned.takeWhile Literal.isDecimalPart ++
      n.unsigned.dropWhile Literal.isDecimalPart = n.unsigned := List.takeWhile_append_dropWhile
  rw [takeWhile_unsigned, unsigned] at h
  exact List.append_cancel_left h

theorem valueOf_toDigits (m : Nat) :
    Literal.valueOf 10 (Literal.dropSeparators (Nat.toDigits 10 m)) = m := by
  have hdigits : ∀ c ∈ Nat.toDigits 10 m, c.isDigit := fun c hc => isDigit_of_mem_digits hc
  have hdrop : Literal.dropSeparators (Nat.toDigits 10 m) = Nat.toDigits 10 m := by
    apply List.filter_eq_self.mpr
    intro c hc
    have hd := hdigits c hc
    simp only [Literal.isSeparator, Bool.not_eq_true', Bool.or_eq_false_iff,
      decide_eq_false_iff_not]
    constructor
    all_goals
      rintro rfl
      exact absurd hd (by decide)
  have hvalue (ds : List Char) (hds : ∀ c ∈ ds, c.isDigit) (init : Nat) :
      ds.foldl (fun value c => 10 * value + Literal.digitValue c) init =
        Nat.ofDigitChars 10 ds init := by
    induction ds generalizing init with
    | nil => rw [List.foldl_nil, Nat.ofDigitChars_nil]
    | cons c ds ih =>
      have hc : Literal.digitValue c = c.toNat - '0'.toNat := if_pos (hds c (by simp))
      rw [List.foldl_cons, Nat.ofDigitChars_cons, hc]
      exact ih (fun d hd => hds d (by simp [hd])) _
  rw [hdrop, Literal.valueOf, hvalue _ hdigits 0, Nat.ofDigitChars_ten_toDigits]

theorem ofMagnitude?_natAbs (n : Number) :
    ofMagnitude? n.type n.value.natAbs (decide (n.value < 0)) = some n := by
  have hvalue : (if decide (n.value < 0) then -(n.value.natAbs : Int) else n.value.natAbs) =
      n.value := by
    split
    · rename_i h
      have hneg : n.value < 0 := of_decide_eq_true h
      omega
    · rename_i h
      have hnonneg : ¬ n.value < 0 := fun hneg => h (decide_eq_true hneg)
      omega
  rw [ofMagnitude?, hvalue, ofInt?, dif_pos n.holds]

theorem read_render (n : Number) : Literal.read n.render = .ok n := by
  have hdecimal : Literal.decimal n.render n.unsigned (decide (n.value < 0)) = .ok n := by
    obtain ⟨s, hs, htype⟩ := n.type.suffix?_suffix
    have hsuffix : Literal.suffix n.render n.type.suffix.toList = .ok s := by
      simp only [Literal.suffix, hs]
    simp only [Literal.decimal, dropWhile_unsigned, takeWhile_unsigned, hsuffix, valueOf_toDigits]
    change Literal.fitting n.render ⟨s.width.getD .word, s.signed.getD true⟩
      (ofMagnitude? ⟨s.width.getD .word, s.signed.getD true⟩ _ _) = .ok n
    rw [htype, ofMagnitude?_natAbs]
    rfl
  rw [Literal.read, unsign_render]
  split
  -- Neither digits nor letters of a type have the mark of a hexadecimal literal.
  · rename_i body negative h
    have hx : 'x' ∈ n.unsigned := by rw [(Prod.mk.inj h).1]; simp
    exact absurd rfl (mem_unsigned hx).2.2
  · rename_i h
    obtain ⟨rfl, rfl⟩ := Prod.mk.inj h
    exact hdecimal

end Number

/-- Reading a canonical literal gives the number back. -/
theorem Atom.ofWord_render (n : Number) : Atom.ofWord n.render = .ok (.number n) := by
  have hne : Nat.toDigits 10 n.value.natAbs ≠ [] := Nat.toDigits_ne_nil
  obtain ⟨c, digits, hd⟩ := List.exists_cons_of_ne_nil hne
  have hhead : n.render.toList.head? = some c := by
    rw [Number.toList_render, Number.unsigned, hd]
    rfl
  have hc : c.isDigit := Number.isDigit_of_mem_digits (by rw [hd]; simp)
  rw [ofWord, hhead, Option.any_some, if_pos hc, Number.read_render]
  rfl

/-- Every number of every type is read from its canonical literal, so no two numbers share one. -/
theorem Number.canonical_literals_read_back :
    (∀ n : Number, Atom.ofWord n.render = .ok (.number n)) ∧ Function.Injective Number.render := by
  refine ⟨Atom.ofWord_render, ?_⟩
  intro m n h
  have hread : Literal.read m.render = Literal.read n.render := congrArg Literal.read h
  rw [read_render, read_render] at hread
  exact Except.ok.inj hread

end Stacklet
