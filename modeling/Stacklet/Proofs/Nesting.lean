import Mathlib.Logic.Relation
import Stacklet.Outline
import Stacklet.Program

/-!
Blocks in blocks and groups in groups. What holds of a tree whenever it holds of all that is nested
directly in it holds of every tree.
-/

namespace Stacklet

namespace Block

/-- The blocks that stand directly in a block. -/
inductive Child (b : Block) : Block → Prop where
  | value {names : List String} {value : Block} {comment : Option String} :
      .assignment names value comment ∈ b → Child b value
  | body {name : String} {body : Block} {comment : Option String} :
      .method name body comment ∈ b → Child b body
  | term {terms : List Term} {comment : Option String} {body : Block} :
      .expression terms comment ∈ b → .block body ∈ terms → Child b body

/-- A block and those that stand in it at any depth. -/
def Within : Block → Block → Prop := Relation.ReflTransGen Child

/-- A statement of the block or of one that stands in it at any depth. -/
def Has (b : Block) (s : Statement) : Prop := ∃ c, b.Within c ∧ s ∈ c

theorem Child.sizeOf_lt {b c : Block} (h : b.Child c) : sizeOf c < sizeOf b := by
  cases h with
  | value hs =>
    have hlt := List.sizeOf_lt_of_mem hs
    simp only [Statement.assignment.sizeOf_spec] at hlt
    omega
  | body hs =>
    have hlt := List.sizeOf_lt_of_mem hs
    simp only [Statement.method.sizeOf_spec] at hlt
    omega
  | term hs ht =>
    have hlt := List.sizeOf_lt_of_mem hs
    have hbody := List.sizeOf_lt_of_mem ht
    simp only [Statement.expression.sizeOf_spec] at hlt
    simp only [Term.block.sizeOf_spec] at hbody
    omega

@[elab_as_elim]
theorem child_induction {P : Block → Prop} (h : ∀ b, (∀ c, Child b c → P c) → P b) (b : Block) :
    P b :=
  h b fun c _ => child_induction h c
termination_by sizeOf b
decreasing_by exact Child.sizeOf_lt ‹_›

end Block

namespace Outline

/-- An outline and the groups nested in it at any depth. -/
def Within : Outline → Outline → Prop := Relation.ReflTransGen fun o g => .group g ∈ o

theorem sizeOf_lt_of_group_mem {o g : Outline} (h : .group g ∈ o) : sizeOf g < sizeOf o := by
  have hlt := List.sizeOf_lt_of_mem h
  simp only [Entry.group.sizeOf_spec] at hlt
  omega

@[elab_as_elim]
theorem group_induction {P : Outline → Prop} (h : ∀ o, (∀ g, .group g ∈ o → P g) → P o)
    (o : Outline) : P o :=
  h o fun g _ => group_induction h g
termination_by sizeOf o
decreasing_by exact sizeOf_lt_of_group_mem ‹_›

end Outline

end Stacklet
