import Stacklet.Line

/-!
Outlines. Lines of one indentation level form a group, and a deeper group stands as an entry of its
own after the line it is nested under. A level is two spaces. Only a line with items opens a level;
a comment may close levels but opens none, and a blank line stays where it is.
-/

namespace Stacklet

inductive Entry where
  | line (l : Line)
  | group (entries : List Entry)

abbrev Outline := List Entry

mutual

def Entry.decEq : (a b : Entry) → Decidable (a = b)
  | .line l, .line m => decidable_of_iff (l = m) (by simp)
  | .group es, .group fs =>
    have := Outline.decEq es fs
    decidable_of_iff (es = fs) (by simp)
  | .line _, .group _ | .group _, .line _ => isFalse (by simp)

def Outline.decEq : (es fs : List Entry) → Decidable (es = fs)
  | [], [] => isTrue rfl
  | e :: es, f :: fs =>
    have := Entry.decEq e f
    have := Outline.decEq es fs
    decidable_of_iff (e = f ∧ es = fs) (by simp)
  | [], _ :: _ | _ :: _, [] => isFalse (by simp)

end

instance : DecidableEq Entry := Entry.decEq

inductive IndentError where
  | odd (line indent : Nat)
  | unexpected (line level opened : Nat)
  deriving DecidableEq

def IndentError.message : IndentError → String
  | odd line indent => s!"Line {line}: indent of {indent} spaces is not a multiple of two"
  | unexpected line level opened =>
    s!"Line {line}: indented to level {level} with only {opened} levels open"

namespace Outline

/-- The open groups, innermost first, each with its newest entry first. -/
structure Groups where
  inner : List Entry
  outer : List (List Entry)

namespace Groups

/-- The level of the innermost open group. -/
def depth (g : Groups) : Nat := g.outer.length

def push (g : Groups) (e : Entry) : Groups := { g with inner := e :: g.inner }

/-- Closes the innermost group, unless it is the only one. -/
def close (g : Groups) : Groups :=
  match g.outer with
  | [] => g
  | parent :: outer => ⟨.group g.inner.reverse :: parent, outer⟩

def closeMany : Nat → Groups → Groups
  | 0, g => g
  | n + 1, g => closeMany n g.close

/-- Puts a line at a level at most one above the depth. -/
def place (g : Groups) (level : Nat) (l : Line) : Groups :=
  if g.depth < level then ⟨[.line l], g.inner :: g.outer⟩
  else (closeMany (g.depth - level) g).push (.line l)

def add (g : Groups) (l : Line) : Except IndentError Groups :=
  if l.isBlank then .ok (g.push (.line l))
  else if l.isComment then .ok (g.place (min g.depth (l.indent / 2)) l)
  else if l.indent % 2 ≠ 0 then .error (.odd l.number l.indent)
  else if g.depth + 1 < l.indent / 2 then
    .error (.unexpected l.number (l.indent / 2) (g.depth + 1))
  else .ok (g.place (l.indent / 2) l)

def finish (g : Groups) : Outline := (closeMany g.depth g).inner.reverse

end Groups

def ofLines (lines : List Line) : Except IndentError Outline :=
  (lines.foldlM Groups.add ⟨[], []⟩).map Groups.finish

end Outline

mutual

/-- The lines of an entry, in order. -/
def Entry.lines : Entry → List Line
  | .line l => [l]
  | .group entries => Outline.lines entries

def Outline.lines : List Entry → List Line
  | [] => []
  | e :: entries => e.lines ++ Outline.lines entries

end

def Outline.render (o : Outline) : String :=
  String.join ((Outline.lines o).map (·.render ++ "\n"))

mutual

/-- The number of the line an entry starts with, zero if it starts with an empty group. -/
def Entry.firstLine : Entry → Nat
  | .line l => l.number
  | .group entries => Outline.firstLine entries

def Outline.firstLine : List Entry → Nat
  | [] => 0
  | e :: _ => e.firstLine

end

end Stacklet
