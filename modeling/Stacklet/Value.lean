import Stacklet.Number

/-!
Values. Numbers, arrays, and streams, which are handles on a writer. Two streams are the same if
they share the writer, whatever their names.
-/

namespace Stacklet

structure Stream where
  name : String
  writer : Nat

inductive Value where
  | number (n : Number)
  | array (values : List Value)
  | stream (s : Stream)

inductive ValueType where
  | number (t : NumberType)
  /-- A number of any type. -/
  | integer
  | array
  /-- An array of `uint8` numbers. -/
  | bytes
  | stream
  | any
  deriving DecidableEq

def ValueType.render : ValueType → String
  | number t => t.render
  | integer => "integer"
  | array => "array"
  | bytes => "bytes"
  | stream => "stream"
  | any => "value"

namespace Value

def type : Value → ValueType
  | number n => .number n.type
  | array _ => .array
  | stream _ => .stream

mutual

def same : Value → Value → Bool
  | .number m, .number n => m = n
  | .array vs, .array ws => sameAll vs ws
  | .stream s, .stream t => s.writer = t.writer
  | _, _ => false

def sameAll : List Value → List Value → Bool
  | [], [] => true
  | v :: vs, w :: ws => v.same w && sameAll vs ws
  | _, _ => false

end

mutual

def render : Value → String
  | .number n => n.render
  | .array values => "[" ++ " ".intercalate (renderAll values) ++ "]"
  | .stream s => "<stream " ++ s.name ++ ">"

def renderAll : List Value → List String
  | [] => []
  | v :: values => v.render :: renderAll values

end

def ofBytes (bytes : List UInt8) : Value := .array (bytes.map (.number ∘ .ofByte))

def byte? : Value → Option UInt8
  | .number n => if n.type = .uint8 then some (UInt8.ofNat n.value.toNat) else none
  | _ => none

end Value

end Stacklet
