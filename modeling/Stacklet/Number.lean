/-!
Sized integers. A number knows its type, and its value lies in the type's range.
-/

namespace Stacklet

inductive Width where
  | byte
  | half
  | word
  | double
  deriving DecidableEq

namespace Width

def bits : Width → Nat
  | byte => 8
  | half => 16
  | word => 32
  | double => 64

/-- How many bit patterns there are. -/
def size : Width → Nat
  | byte => 0x100
  | half => 0x10000
  | word => 0x100000000
  | double => 0x10000000000000000

/-- The narrowest width with room for this many bits, `double` if there is none. -/
def holding (count : Nat) : Width :=
  if count ≤ 8 then byte
  else if count ≤ 16 then half
  else if count ≤ 32 then word
  else double

end Width

structure NumberType where
  width : Width
  signed : Bool
  deriving DecidableEq

namespace NumberType

def int8 : NumberType := ⟨.byte, true⟩
def uint8 : NumberType := ⟨.byte, false⟩
def int16 : NumberType := ⟨.half, true⟩
def uint16 : NumberType := ⟨.half, false⟩
def int32 : NumberType := ⟨.word, true⟩
def uint32 : NumberType := ⟨.word, false⟩
def int64 : NumberType := ⟨.double, true⟩
def uint64 : NumberType := ⟨.double, false⟩

/-- Half of the values of a signed type are negative. -/
def least (t : NumberType) : Int := if t.signed then -(t.width.size / 2) else 0

/-- One past the greatest value. -/
def bound (t : NumberType) : Int := t.least + t.width.size

def Holds (t : NumberType) (v : Int) : Prop := t.least ≤ v ∧ v < t.bound

instance (t : NumberType) (v : Int) : Decidable (t.Holds v) :=
  inferInstanceAs (Decidable (t.least ≤ v ∧ v < t.bound))

/-- The value a bit pattern stands for, in two's complement if signed. -/
def ofPattern (t : NumberType) (pattern : Nat) : Int :=
  if t.signed then Int.bmod pattern t.width.size else pattern

def render (t : NumberType) : String :=
  (if t.signed then "int" else "uint") ++ t.width.bits.repr

/-- The letters that select the type in a decimal literal. -/
def suffix : NumberType → String
  | ⟨.byte, true⟩ => "ib"
  | ⟨.byte, false⟩ => "b"
  | ⟨.half, true⟩ => "h"
  | ⟨.half, false⟩ => "uh"
  | ⟨.word, true⟩ => ""
  | ⟨.word, false⟩ => "uw"
  | ⟨.double, true⟩ => "d"
  | ⟨.double, false⟩ => "ud"

end NumberType

structure Number where
  type : NumberType
  value : Int
  holds : type.Holds value
  deriving DecidableEq

namespace Number

def ofInt? (t : NumberType) (v : Int) : Option Number :=
  if h : t.Holds v then some ⟨t, v, h⟩ else none

/-- Refuses a pattern with bits above the type's width. -/
def ofBits? (t : NumberType) (pattern : Nat) : Option Number :=
  if pattern < t.width.size then ofInt? t (t.ofPattern pattern) else none

def ofMagnitude? (t : NumberType) (magnitude : Nat) (negative : Bool) : Option Number :=
  ofInt? t (if negative then -magnitude else magnitude)

/-- The opposite number of the same type, if the type has it. -/
def neg? (n : Number) : Option Number := ofInt? n.type (-n.value)

/-- The bit pattern of the value, in two's complement. -/
def pattern (n : Number) : Nat := (n.value % n.type.width.size).toNat

/-- The lowest bytes of a pattern, least significant first. -/
def lowBytes : (count pattern : Nat) → List UInt8
  | 0, _ => []
  | count + 1, pattern => UInt8.ofNat pattern :: lowBytes count (pattern / 256)

def bytesLE (n : Number) : List UInt8 := lowBytes (n.type.width.bits / 8) n.pattern

def bytesBE (n : Number) : List UInt8 := n.bytesLE.reverse

/-- The canonical literal: magnitude, suffix, then the sign. -/
def render (n : Number) : String :=
  n.value.natAbs.repr ++ n.type.suffix ++ if n.value < 0 then "-" else ""

def ofByte (b : UInt8) : Number where
  type := .uint8
  value := b.toNat
  holds := ⟨Int.natCast_nonneg _, Int.ofNat_lt.mpr b.toNat_lt⟩

end Number

end Stacklet
