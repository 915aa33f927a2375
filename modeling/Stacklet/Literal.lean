import Stacklet.Number

/-!
Words. A word that starts with a digit is a number literal: digits with separators, letters that
choose the type, and a sign at the end. Any other word is an identifier.
-/

namespace Stacklet

inductive Atom where
  | number (n : Number)
  | identifier (name : String)
  deriving DecidableEq

def Atom.render : Atom → String
  | number n => n.render
  | identifier name => name

inductive LiteralError where
  | unrecognizedSuffix (literal suffix : String)
  | overflow (literal : String) (type : NumberType)
  | malformedDigits (literal : String)
  deriving DecidableEq

def LiteralError.message : LiteralError → String
  | unrecognizedSuffix literal suffix =>
    "Unrecognized suffix \"" ++ suffix ++ "\" in literal \"" ++ literal ++ "\""
  | overflow literal type => "Literal \"" ++ literal ++ "\" does not fit in " ++ type.render
  | malformedDigits literal => "Malformed digits in literal \"" ++ literal ++ "\""

namespace Literal

def isSeparator (c : Char) : Bool := c = '-' || c = '_'

/-- Hexadecimal digits are upper case, so that no suffix letter is one. -/
def isHexDigit (c : Char) : Bool := c.isDigit || 'A' ≤ c && c ≤ 'F'

def isDecimalPart (c : Char) : Bool := c.isDigit || isSeparator c

def isHexPart (c : Char) : Bool := isHexDigit c || isSeparator c

def dropSeparators (digits : List Char) : List Char := digits.filter (!isSeparator ·)

def digitValue (c : Char) : Nat :=
  if c.isDigit then c.toNat - '0'.toNat else c.toNat - 'A'.toNat + 10

def valueOf (base : Nat) (digits : List Char) : Nat :=
  digits.foldl (fun value c => base * value + digitValue c) 0

/-- What the letters of a literal say about its type. -/
structure Suffix where
  signed : Option Bool
  width : Option Width
  deriving DecidableEq

def width? : List Char → Option (Option Width)
  | [] => some none
  | ['b'] => some (some .byte)
  | ['h'] => some (some .half)
  | ['w'] => some (some .word)
  | ['d'] => some (some .double)
  | _ => none

/-- A byte is unsigned unless the letters say otherwise. -/
def suffix? : List Char → Option Suffix
  | 'i' :: letters => (width? letters).map (⟨some true, ·⟩)
  | 'u' :: letters => (width? letters).map (⟨some false, ·⟩)
  | ['b'] => some ⟨some false, some .byte⟩
  | letters => (width? letters).map (⟨none, ·⟩)

/-- The literal without its sign, and whether it is negative. -/
def unsign (literal : List Char) : List Char × Bool :=
  match literal.getLast? with
  | some '-' => (literal.dropLast, true)
  | some '+' => (literal.dropLast, false)
  | _ => (literal, false)

def suffix (literal : String) (letters : List Char) : Except LiteralError Suffix :=
  match suffix? letters with
  | some s => .ok s
  | none => .error (.unrecognizedSuffix literal (String.ofList letters))

def fitting (literal : String) (type : NumberType) : Option Number → Except LiteralError Number
  | some n => .ok n
  | none => .error (.overflow literal type)

/-- A decimal literal is an `int32` unless its letters say otherwise. -/
def decimal (literal : String) (body : List Char) (negative : Bool) :
    Except LiteralError Number := do
  let s ← suffix literal (body.dropWhile isDecimalPart)
  let type : NumberType := ⟨s.width.getD .word, s.signed.getD true⟩
  let digits := dropSeparators (body.takeWhile isDecimalPart)
  fitting literal type (Number.ofMagnitude? type (valueOf 10 digits) negative)

/-- The letters of a hexadecimal literal, set off by an `x`. -/
def hexSuffix (literal : String) : List Char → Except LiteralError Suffix
  | [] => .ok ⟨none, none⟩
  | 'x' :: letters => suffix literal letters
  | _ => .error (.malformedDigits literal)

/-- A hexadecimal literal spells a bit pattern. It is unsigned and as wide as its digits need
unless its letters say otherwise; a pattern of more than 64 bits fits no type. -/
def hexadecimal (literal : String) (body : List Char) (negative : Bool) :
    Except LiteralError Number := do
  let s ← hexSuffix literal (body.dropWhile isHexPart)
  let signed := s.signed.getD false
  let digits := dropSeparators (body.takeWhile isHexPart)
  let pattern := valueOf 16 digits
  if digits.isEmpty then .error (.malformedDigits literal)
  else if Width.double.size ≤ pattern then .error (.overflow literal ⟨.double, signed⟩)
  else
    let type : NumberType := ⟨s.width.getD (.holding (4 * digits.length)), signed⟩
    let n ← fitting literal type (Number.ofBits? type pattern)
    if negative then fitting literal type n.neg? else .ok n

def read (literal : String) : Except LiteralError Number :=
  match unsign literal.toList with
  | ('0' :: 'x' :: body, negative) => hexadecimal literal body negative
  | (body, negative) => decimal literal body negative

end Literal

def Atom.ofWord (word : String) : Except LiteralError Atom :=
  if word.toList.head?.any Char.isDigit then (Literal.read word).map .number
  else .ok (.identifier word)

end Stacklet
