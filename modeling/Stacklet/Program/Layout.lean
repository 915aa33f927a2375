import Stacklet.Line
import Stacklet.Program

/-!
The canonical text of programs. A value stands on the line of its header if it is a single
statement of plain words without a comment; any other block is nested under its line.
-/

namespace Stacklet

namespace Term

/-- What a term shows on its line. -/
def items : Term → List Item
  | number n => [.atom (.number n)]
  | identifier name => [.atom (.identifier name)]
  | comment _ => []
  | block _ => [.marker .block]

def isWord : Term → Bool
  | number _ | identifier _ => true
  | comment _ | block _ => false

/-- The comment on an expression's line: its last comment term, else the statement's own. -/
def lastComment (own : Option String) : List Term → Option String
  | [] => own
  | comment text :: terms => lastComment (some text) terms
  | _ :: terms => lastComment own terms

def render : Term → String
  | number n => n.render
  | identifier name => name
  | comment text => "--" ++ text
  | block body => s!"<block of {body.length}>"

end Term

mutual

/-- The items of a statement that may stand as a value on its header's line. -/
def Statement.inlineItems? : Statement → Option (List Item)
  | .expression terms none =>
    if terms.all Term.isWord then some (terms.flatMap Term.items) else none
  | .assignment names value none =>
    (Block.inlineItems? value).map fun items =>
      names.map (.atom ∘ .identifier) ++ .marker .assign :: items
  | .method name body none =>
    (Block.inlineItems? body).map fun items =>
      .atom (.identifier name) :: .marker .method :: items
  | _ => none

def Block.inlineItems? : List Statement → Option (List Item)
  | [s] => s.inlineItems?
  | _ => none

end

def Term.isBlock : Term → Bool
  | .block _ => true
  | _ => false

mutual

/-- The rows of a statement at a level; the last block among its terms is the one nested. -/
def Statement.rows (level : Nat) : Statement → List Row
  | .expression terms comment =>
    ⟨2 * level, terms.flatMap Term.items, Term.lastComment comment terms⟩ ::
      Term.nestedRows (level + 1) terms
  | .assignment names value comment =>
    let header := names.map (.atom ∘ .identifier) ++ [.marker .assign]
    match Block.inlineItems? value with
    | some items => [⟨2 * level, header ++ items, comment⟩]
    | none => ⟨2 * level, header, comment⟩ :: Block.rows (level + 1) value
  | .method name body comment =>
    let header := [.atom (.identifier name), .marker .method]
    match Block.inlineItems? body with
    | some items => [⟨2 * level, header ++ items, comment⟩]
    | none => ⟨2 * level, header, comment⟩ :: Block.rows (level + 1) body

def Term.rows (level : Nat) : Term → List Row
  | .block body => Block.rows level body
  | _ => []

def Term.nestedRows (level : Nat) : List Term → List Row
  | [] => []
  | term :: terms =>
    if terms.any Term.isBlock then Term.nestedRows level terms
    else if term.isBlock then term.rows level
    else []

def Block.rows (level : Nat) : List Statement → List Row
  | [] => []
  | s :: statements => s.rows level ++ Block.rows level statements

end

def Statement.render (s : Statement) : String := "\n".intercalate ((s.rows 0).map Row.render)

def Block.render (b : Block) : String := String.join ((Block.rows 0 b).map (·.render ++ "\n"))

end Stacklet
