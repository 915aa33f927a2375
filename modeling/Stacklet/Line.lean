import Stacklet.Literal

/-!
Lines. A row is what stands on a line: its indent, its items and its comment. A line is a row with
its number in the source.
-/

namespace Stacklet

inductive Marker where
  | assign
  | method
  | block
  deriving DecidableEq

def Marker.render : Marker → String
  | assign => "="
  | method => ">>"
  | block => ":"

inductive Item where
  | atom (a : Atom)
  | marker (m : Marker)
  deriving DecidableEq

def Item.render : Item → String
  | atom a => a.render
  | marker m => m.render

/-- A comment is the text after `--`, verbatim. -/
structure Row where
  indent : Nat
  items : List Item
  comment : Option String
  deriving DecidableEq

namespace Row

def isBlank (r : Row) : Bool := r.items.isEmpty && r.comment.isNone

def isComment (r : Row) : Bool := r.items.isEmpty && r.comment.isSome

def isSubstantial (r : Row) : Bool := !r.items.isEmpty

/-- Items stand one space apart, and so does the comment if there are any. -/
def render (r : Row) : String :=
  String.ofList (List.replicate r.indent ' ') ++ " ".intercalate (r.items.map Item.render) ++
    match r.comment with
    | none => ""
    | some text => (if r.items.isEmpty then "--" else " --") ++ text

end Row

structure Line extends Row where
  number : Nat
  deriving DecidableEq

inductive LineFault where
  | literal (e : LiteralError)
  | tabIndent
  deriving DecidableEq

def LineFault.message : LineFault → String
  | literal e => e.message
  | tabIndent => "Tab in indentation"

structure LineError where
  line : Nat
  fault : LineFault
  deriving DecidableEq

def LineError.message (e : LineError) : String := s!"Line {e.line}: " ++ e.fault.message

end Stacklet
