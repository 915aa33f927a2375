import Stacklet.Value

/-! The stack a program works on. -/

namespace Stacklet

/-- Values, newest first. -/
structure Stack where
  values : List Value

namespace Stack

def empty : Stack := ⟨[]⟩

def isEmpty (s : Stack) : Bool := s.values.isEmpty

def size (s : Stack) : Nat := s.values.length

/-- Oldest first. -/
def toList (s : Stack) : List Value := s.values.reverse

def ofList (values : List Value) : Stack := ⟨values.reverse⟩

def push (s : Stack) (v : Value) : Stack := ⟨v :: s.values⟩

/-- Pushes values in order, so that the last one ends on top. -/
def pushAll (s : Stack) (values : List Value) : Stack := values.foldl push s

/-- Moves values from the stack in front of `taken`. -/
def take? : Nat → List Value → List Value → Option (List Value × Stack)
  | 0, taken, values => some (taken, ⟨values⟩)
  | _ + 1, _, [] => none
  | n + 1, taken, v :: values => take? n (v :: taken) values

/-- The `n` newest values, oldest first, and what is left; nothing if there are fewer. -/
def pop? (s : Stack) (n : Nat) : Option (List Value × Stack) := take? n [] s.values

def render (s : Stack) : String :=
  " ".intercalate (s.toList.map fun v => "[ " ++ v.render ++ " ]")

end Stack

end Stacklet
