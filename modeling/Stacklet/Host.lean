import Stacklet.Text.Quoted
import Stacklet.Value
import Stacklet.Writer

/-!
Host calls: native functions with a declared signature. Each value type stands for a native type,
and arguments are read as values of it before the function runs.
-/

namespace Stacklet

inductive HostError where
  | type (position : Nat) (expected found : ValueType)
  | arity (expected found : Nat)
  | io (text : String)
  | failed (text : String)
  deriving DecidableEq

def HostError.message : HostError → String
  | type position expected found =>
    s!"Argument {position} expected " ++ expected.render ++ ", found " ++ found.render
  | arity expected found => s!"Expected {expected} arguments, found {found}"
  | io text => "IO error: " ++ text
  | failed text => text

/-- What a native function may do: fail, and write to streams. -/
abbrev HostM := ExceptT HostError (StateM Writers)

def HostM.write (s : Stream) (data : List UInt8) : HostM Unit := fun writers =>
  let (result, writers) := writers.write s.writer data
  (result.mapError .io, writers)

namespace ValueType

/-- The native type of the values of a type. -/
@[reducible]
def Carrier : ValueType → Type
  | number t => { v : Int // t.Holds v }
  | integer => Number
  | array => List Value
  | bytes => List UInt8
  | stream => Stream
  | any => Value

def read? : (t : ValueType) → Value → Option t.Carrier
  | number t, .number n => if h : n.type = t then some ⟨n.value, h ▸ n.holds⟩ else none
  | integer, .number n => some n
  | array, .array values => some values
  | bytes, .array values => values.mapM Value.byte?
  | stream, .stream s => some s
  | any, v => some v
  | _, _ => none

def value : (t : ValueType) → t.Carrier → Value
  | number t, ⟨v, h⟩ => .number ⟨t, v, h⟩
  | integer, n => .number n
  | array, values => .array values
  | bytes, data => .ofBytes data
  | stream, s => .stream s
  | any, v => v

/-- One native value for each of the types. -/
@[reducible]
def Carriers : List ValueType → Type
  | [] => Unit
  | t :: types => t.Carrier × Carriers types

/-- Reads values of which the first stands at `position`, up to the first that does not conform. -/
def readAll (position : Nat) :
    (types : List ValueType) → (values : List Value) → values.length = types.length →
      Except HostError (Carriers types)
  | [], _, _ => .ok ()
  | t :: types, v :: values, h =>
    match t.read? v with
    | none => .error (.type position t v.type)
    | some a => do
      let rest ← readAll (position + 1) types values (Nat.succ.inj h)
      return (a, rest)

def valueAll : (types : List ValueType) → Carriers types → List Value
  | [], () => []
  | t :: types, (a, rest) => t.value a :: valueAll types rest

/-- The type with its structure spelled out. -/
def describe : ValueType → String
  | number t =>
    let width :=
      match t.width with
      | .byte => "Byte"
      | .half => "Half"
      | .word => "Word"
      | .double => "Double"
    "Number(NumberType \x7b width: " ++ width ++ ", signed: " ++
      (if t.signed then "true" else "false") ++ " \x7d)"
  | integer => "Integer"
  | array => "Array"
  | bytes => "Bytes"
  | stream => "Stream"
  | any => "Any"

end ValueType

structure HostCall where
  name : String
  parameters : List ValueType
  results : List ValueType
  function : ValueType.Carriers parameters → HostM (ValueType.Carriers results)

namespace HostCall

/-- Runs the function on arguments given oldest first. Their number is checked before their
types, and the function runs only if all of them conform. -/
def invoke (c : HostCall) (arguments : List Value) : HostM (List Value) :=
  if h : arguments.length = c.parameters.length then do
    let arguments ← ExceptT.mk (pure (ValueType.readAll 0 c.parameters arguments h))
    let results ← c.function arguments
    return ValueType.valueAll c.results results
  else throw (.arity c.parameters.length arguments.length)

def signature (types : List ValueType) : String :=
  "(" ++ ", ".intercalate (types.map ValueType.render) ++ ")"

def render (c : HostCall) : String :=
  "<host call " ++ c.name ++ signature c.parameters ++ " -> " ++ signature c.results ++ ">"

/-- The call with its structure spelled out. -/
def describe (c : HostCall) : String :=
  "HostCall \x7b name: " ++ Text.quoted c.name ++
    ", parameters: " ++ Text.bracketed (c.parameters.map ValueType.describe) ++
    ", results: " ++ Text.bracketed (c.results.map ValueType.describe) ++ " \x7d"

end HostCall

end Stacklet
