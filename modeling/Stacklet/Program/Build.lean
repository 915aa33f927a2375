import Stacklet.Outline
import Stacklet.Program
import Stacklet.Program.Shape

/-!
The block an outline spells. Each line with items or a comment is a statement, and a line that ends
in a marker takes the next group as its block. Only blank lines and comments may stand between the
two; these comments follow the statement.
-/

namespace Stacklet

namespace Header

def statement (comment : Option String) (value : Block) : Header → Statement
  | assignment names => .assignment names value comment
  | method name => .method name value comment

end Header

def Term.ofAtom : Atom → Term
  | .number n => .number n
  | .identifier name => .identifier name

namespace Shape

/-- The terms after the headers, where `nested` is the block of the `:` and takes the comment. -/
def terms (s : Shape) (comment : Option String) (nested : Block) : List Term :=
  s.words.map Term.ofAtom ++
    if s.block then (comment.map Term.comment).toList ++ [.block nested] else []

/-- The statement of a line, where `nested` is the block of the group it claims, if it does. -/
def statement (s : Shape) (comment : Option String) (nested : Block) : Statement :=
  let outer := if s.block then none else comment
  match s.headers with
  | [] => .expression (s.terms comment nested) outer
  | header :: headers =>
    let innermost : Block :=
      if s.hasTail then [.expression (s.terms comment nested) none] else nested
    header.statement outer (headers.foldr (fun h value => [h.statement none value]) innermost)

end Shape

/-- A nested group: the number of its first line, and its block. -/
structure Nested where
  line : Nat
  block : Except SyntaxError Block

inductive Part where
  | line (l : Line)
  | nested (n : Nested)

namespace Part

/-- The groups ahead that only blank lines and comments separate. -/
def groupsAhead : List Part → List Nested
  | [] => []
  | .nested n :: parts => n :: groupsAhead parts
  | .line l :: parts => if l.isSubstantial then [] else groupsAhead parts

/-- The statement of a line, given the groups ahead of it. -/
def statement (l : Line) (s : Shape) (ahead : List Nested) : Except SyntaxError Statement := do
  let nested ←
    if s.claims then
      match ahead with
      | [] => .error ⟨l.number, .missingBlock⟩
      | n :: _ => n.block
    else .ok []
  let left := if s.claims then ahead.tail else ahead
  if s.hasInline && !left.isEmpty then .error ⟨l.number, .inlineAndNestedBlock⟩
  else .ok (s.statement l.comment nested)

/-- The statements of the parts, where `claimed` says whether the next group has been taken. -/
def assemble (claimed : Bool) : List Part → Except SyntaxError Block
  | [] => .ok []
  | .nested n :: parts =>
    if claimed then assemble false parts else .error ⟨n.line, .unexpectedNestedGroup⟩
  | .line l :: parts =>
    if l.isBlank then assemble claimed parts
    else if l.isComment then do
      let rest ← assemble claimed parts
      return .expression [] l.comment :: rest
    else do
      let shape ← (Shape.ofItems l.items).mapError (⟨l.number, ·⟩)
      let statement ← statement l shape (groupsAhead parts)
      let rest ← assemble shape.claims parts
      return statement :: rest

end Part

mutual

def Entry.part : Entry → Part
  | .line l => .line l
  | .group entries =>
    .nested ⟨Outline.firstLine entries, Part.assemble false (Outline.parts entries)⟩

def Outline.parts : List Entry → List Part
  | [] => []
  | e :: entries => e.part :: Outline.parts entries

end

def Outline.block (o : Outline) : Except SyntaxError Block := Part.assemble false (Outline.parts o)

end Stacklet
