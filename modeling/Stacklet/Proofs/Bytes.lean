import Stacklet.Proofs.LiteralGrammar

/-!
Patterns and bytes of numbers. A pattern that is no wider than a type stands for one number of the
type, the one that is congruent to it, and the bytes of a number spell its pattern. So a number, its
pattern and its bytes can each be had from the others.
-/

namespace Stacklet.Number

/-- The value of bytes, the most significant of which comes first. -/
def bigEndian (bytes : List UInt8) : Nat := bytes.foldl (fun value b => 256 * value + b.toNat) 0

variable {t : NumberType} {n : Number}

theorem inRange (n : Number) : n.type.InRange n.value :=
  (n.type.inRange_iff n.value).mpr n.holds

/-! Numbers of a type. -/

theorem ofInt?_eq_some_iff {v : Int} : ofInt? t v = some n ↔ n.type = t ∧ n.value = v := by
  unfold ofInt?
  split
  · constructor
    · intro h
      cases h
      exact ⟨rfl, rfl⟩
    · rintro ⟨rfl, rfl⟩
      rfl
  · rename_i hv
    constructor
    · intro h
      cases h
    · rintro ⟨rfl, rfl⟩
      exact absurd n.holds hv

theorem ofInt?_eq_none_iff {v : Int} : ofInt? t v = none ↔ ¬ t.InRange v := by
  rw [ofInt?, t.inRange_iff]
  split
  · simpa
  · simpa

/-! Patterns. -/

theorem pattern_modEq (n : Number) : n.value ≡ n.pattern [ZMOD 2 ^ n.type.width.bits] := by
  have hsize : (n.type.width.size : Int) = 2 ^ n.type.width.bits := by
    rw [Width.size_eq, Nat.cast_pow, Nat.cast_ofNat]
  have hpattern : (n.pattern : Int) = n.value % 2 ^ n.type.width.bits := by
    rw [pattern, hsize, Int.toNat_of_nonneg (Int.emod_nonneg _ (by positivity))]
  rw [hpattern]
  exact (Int.mod_modEq _ _).symm

theorem pattern_lt (n : Number) : n.pattern < 2 ^ n.type.width.bits := by
  have hpos : (0 : Int) < n.type.width.size := by
    rw [Width.size_eq]
    positivity
  have hlt := Int.emod_lt_of_pos n.value hpos
  rw [← Width.size_eq, pattern]
  omega

theorem ofBits?_eq_some_iff {bits : Nat} :
    ofBits? t bits = some n ↔
      bits < 2 ^ t.width.bits ∧ n.type = t ∧ n.value ≡ bits [ZMOD 2 ^ t.width.bits] := by
  by_cases hlt : bits < t.width.size
  · rw [ofBits?, if_pos hlt, ofInt?_eq_some_iff, ← Width.size_eq, and_iff_right hlt]
    constructor
    · rintro ⟨rfl, hvalue⟩
      exact ⟨rfl, ((NumberType.ofPattern_eq_iff hlt _).mp hvalue.symm).2⟩
    · rintro ⟨rfl, hmod⟩
      exact ⟨rfl, ((NumberType.ofPattern_eq_iff hlt _).mpr ⟨n.inRange, hmod⟩).symm⟩
  · rw [ofBits?, if_neg hlt, ← Width.size_eq]
    simp [hlt]

/-- Two patterns of one number are congruent, so they are equal if they are no wider than its
type. -/
theorem ofBits?_eq_some_iff_pattern {bits : Nat} :
    ofBits? t bits = some n ↔ n.type = t ∧ n.pattern = bits := by
  rw [ofBits?_eq_some_iff]
  constructor
  · rintro ⟨hlt, rfl, hmod⟩
    have hbits : (n.pattern : Int) ≡ bits [ZMOD 2 ^ n.type.width.bits] :=
      n.pattern_modEq.symm.trans hmod
    have hnat : n.pattern ≡ bits [MOD 2 ^ n.type.width.bits] := by
      apply Int.natCast_modEq_iff.mp
      exact_mod_cast hbits
    exact ⟨rfl, hnat.eq_of_lt_of_lt n.pattern_lt hlt⟩
  · rintro ⟨rfl, rfl⟩
    exact ⟨n.pattern_lt, rfl, n.pattern_modEq⟩

theorem isSome_ofBits?_iff {bits : Nat} : (ofBits? t bits).isSome ↔ bits < 2 ^ t.width.bits := by
  rw [Option.isSome_iff_exists]
  constructor
  · rintro ⟨n, hn⟩
    exact (ofBits?_eq_some_iff.mp hn).1
  · intro hlt
    obtain ⟨u, hu, hmod⟩ := Literal.exists_modEq hlt
    exact ⟨⟨t, u, (t.inRange_iff u).mp hu⟩, ofBits?_eq_some_iff.mpr ⟨hlt, rfl, hmod⟩⟩

/-! Bytes. -/

theorem length_lowBytes (count pattern : Nat) : (lowBytes count pattern).length = count := by
  induction count generalizing pattern with
  | zero => rfl
  | succ count ih => rw [lowBytes, List.length_cons, ih]

theorem bigEndian_lowBytes (count pattern : Nat) :
    bigEndian (lowBytes count pattern).reverse = pattern % 256 ^ count := by
  rw [bigEndian, List.foldl_reverse]
  induction count generalizing pattern with
  | zero => rw [pow_zero, Nat.mod_one]; rfl
  | succ count ih =>
    have hbyte : (UInt8.ofNat pattern).toNat = pattern % 256 := UInt8.toNat_ofNat'
    rw [lowBytes, List.foldr_cons, ih, hbyte, pow_succ', Nat.mod_mul, Nat.add_comm]

theorem bigEndian_bytesBE (n : Number) : bigEndian n.bytesBE = n.pattern := by
  have hpow (w : Width) : 256 ^ (w.bits / 8) = 2 ^ w.bits := by cases w <;> rfl
  rw [bytesBE, bytesLE, bigEndian_lowBytes, hpow, Nat.mod_eq_of_lt n.pattern_lt]

/-- A pattern stands for a number of a type if and only if it is no wider than the type; the number
is congruent to it, and the bytes of the number spell it. Every number has as many bytes as its type
is wide, in the one order or the other, and is the one that their value stands for. It has an
opposite if and only if that is in the range of the type. -/
theorem patterns_agree_with_bytes :
    (∀ (t : NumberType) (bits : Nat),
      ((ofBits? t bits).isSome ↔ bits < 2 ^ t.width.bits) ∧
      ∀ n, ofBits? t bits = some n →
        n.type = t ∧ n.value ≡ bits [ZMOD 2 ^ t.width.bits] ∧ bigEndian n.bytesBE = bits) ∧
    (∀ n : Number,
      n.bytesBE.length = n.type.width.bits / 8 ∧ n.bytesLE = n.bytesBE.reverse ∧
      ofBits? n.type (bigEndian n.bytesBE) = some n) ∧
    ∀ n : Number,
      (n.neg? = none ↔ ¬ n.type.InRange (-n.value)) ∧
      ∀ m, n.neg? = some m ↔ m.type = n.type ∧ m.value = -n.value := by
  refine ⟨fun t bits => ⟨isSome_ofBits?_iff, fun n hn => ?_⟩, fun n => ⟨?_, ?_, ?_⟩,
    fun n => ⟨ofInt?_eq_none_iff, fun m => ofInt?_eq_some_iff⟩⟩
  · obtain ⟨-, htype, hmod⟩ := ofBits?_eq_some_iff.mp hn
    obtain ⟨-, hpattern⟩ := ofBits?_eq_some_iff_pattern.mp hn
    exact ⟨htype, hmod, n.bigEndian_bytesBE.trans hpattern⟩
  · rw [bytesBE, List.length_reverse, bytesLE, length_lowBytes]
  · rw [bytesBE, List.reverse_reverse]
  · rw [bigEndian_bytesBE]
    exact ofBits?_eq_some_iff_pattern.mpr ⟨rfl, rfl⟩

/-- The least number of the widest type, which has no opposite. -/
def leastInt64 : Number := ⟨.int64, -0x8000000000000000, by decide⟩

theorem leastInt64_agrees :
    ofBits? .int64 0x8000000000000000 = some leastInt64 ∧
      leastInt64.bytesBE = [0x80, 0, 0, 0, 0, 0, 0, 0] ∧
      leastInt64.value ≡ 0x8000000000000000 [ZMOD 2 ^ 64] ∧
      bigEndian leastInt64.bytesBE = 0x8000000000000000 ∧ leastInt64.neg? = none := by
  have hbits : ofBits? .int64 0x8000000000000000 = some leastInt64 := by decide +kernel
  obtain ⟨hpatterns, -, hneg⟩ := patterns_agree_with_bytes
  obtain ⟨-, hmod, hbytes⟩ := (hpatterns .int64 0x8000000000000000).2 leastInt64 hbits
  refine ⟨hbits, by decide +kernel, hmod, hbytes, (hneg leastInt64).1.mpr ?_⟩
  rw [NumberType.inRange_iff]
  decide

end Stacklet.Number
