import Stacklet.Line
import Stacklet.Text.Quoted

/-!
What one line says: any number of headers, each the names before a `=` or the name before a `>>`,
then words, then possibly a `:`. A line that ends in a marker takes the group nested under it.
-/

namespace Stacklet

inductive SyntaxFault where
  | missingAssignmentBinding
  | missingMethodBinding
  | multipleMethodBindings (names : List String)
  | numberInBinding (n : Number)
  | missingBlock
  | inlineAndNestedBlock
  | unexpectedNestedGroup
  | misplacedBlockMarker (found : String)
  deriving DecidableEq

def SyntaxFault.message : SyntaxFault → String
  | missingAssignmentBinding => "Missing binding before \"=\""
  | missingMethodBinding => "Missing binding before \">>\""
  | multipleMethodBindings names =>
    "Expected exactly one binding before \">>\", found " ++
      Text.bracketed (names.map Text.quoted)
  | numberInBinding n => "Cannot bind to number " ++ n.render
  | missingBlock => "Missing expected block"
  | inlineAndNestedBlock => "Value given both inline and as a nested block"
  | unexpectedNestedGroup => "Unexpected nested group"
  | misplacedBlockMarker found => "Unexpected \"" ++ found ++ "\" after \":\""

structure SyntaxError where
  line : Nat
  fault : SyntaxFault
  deriving DecidableEq

def SyntaxError.message (e : SyntaxError) : String :=
  s!"Line {e.line}: syntax error: " ++ e.fault.message

inductive Header where
  | assignment (names : List String)
  | method (name : String)
  deriving DecidableEq

namespace Header

def binding : Item → Except SyntaxFault String
  | .atom (.identifier name) => .ok name
  | .atom (.number n) => .error (.numberInBinding n)
  | .marker m => .error (.misplacedBlockMarker m.render)

def ofAssign (items : List Item) : Except SyntaxFault Header := do
  match ← items.mapM binding with
  | [] => .error .missingAssignmentBinding
  | names => .ok (.assignment names)

def ofMethod (items : List Item) : Except SyntaxFault Header := do
  match ← items.mapM binding with
  | [] => .error .missingMethodBinding
  | [name] => .ok (.method name)
  | names => .error (.multipleMethodBindings names)

end Header

structure Shape where
  headers : List Header
  words : List Atom
  /-- Whether the line ends in `:`. -/
  block : Bool
  deriving DecidableEq

namespace Shape

/-- The words after the headers, and whether a `:` follows them. -/
def tail : List Item → Except SyntaxFault Shape
  | [] => .ok ⟨[], [], false⟩
  | .atom a :: items => do
    let s ← tail items
    return { s with words := a :: s.words }
  | [.marker _] => .ok ⟨[], [], true⟩
  | .marker _ :: item :: _ => .error (.misplacedBlockMarker item.render)

/-- Reads the items that follow `before`, which is given backwards and has no header marker. -/
def ofItemsFrom (before : List Item) : List Item → Except SyntaxFault Shape
  | [] => tail before.reverse
  | .marker .assign :: items => do
    let header ← Header.ofAssign before.reverse
    let s ← ofItemsFrom [] items
    return { s with headers := header :: s.headers }
  | .marker .method :: items => do
    let header ← Header.ofMethod before.reverse
    let s ← ofItemsFrom [] items
    return { s with headers := header :: s.headers }
  | item :: items => ofItemsFrom (item :: before) items

def ofItems (items : List Item) : Except SyntaxFault Shape := ofItemsFrom [] items

/-- Whether anything stands after the headers. -/
def hasTail (s : Shape) : Bool := s.block || !s.words.isEmpty

/-- Whether the line takes the group nested under it. -/
def claims (s : Shape) : Bool := s.block || s.words.isEmpty && !s.headers.isEmpty

/-- Whether a header has its value on the line, so that no further group may follow. -/
def hasInline (s : Shape) : Bool :=
  if s.hasTail then !s.headers.isEmpty else 1 < s.headers.length

end Shape

end Stacklet
