import Stacklet.Host
import Stacklet.Program

/-!
Scopes. A scope has bindings of its own and, unless it is a root, a parent in which names that it
does not bind are looked up. Binding a name only ever changes the scope it is bound in.
-/

namespace Stacklet

/-- Scopes are numbered in the order of their creation. -/
abbrev ScopeId := Nat

/-- A method: its body, and the scope it was defined in. -/
structure Closure where
  scope : ScopeId
  body : Block

inductive Binding where
  | value (v : Value)
  | guest (c : Closure)
  | host (c : HostCall)

def Closure.render (c : Closure) : String := s!"<guest call of {c.body.length} statements>"

def Binding.render : Binding → String
  | value v => v.render
  | guest c => c.render
  | host c => c.render

/-- Each name is bound once. -/
structure Scope where
  bindings : List (String × Binding)
  parent : Option ScopeId

namespace Scope

def get? (s : Scope) (name : String) : Option Binding := s.bindings.lookup name

def bind (s : Scope) (name : String) (b : Binding) : Scope :=
  { s with bindings := (name, b) :: s.bindings.filter (·.1 ≠ name) }

end Scope

structure Scopes where
  all : Array Scope

namespace Scopes

def empty : Scopes := ⟨#[]⟩

def add (h : Scopes) (parent : Option ScopeId) : ScopeId × Scopes :=
  (h.all.size, ⟨h.all.push ⟨[], parent⟩⟩)

/-- A new scope without a parent. -/
def root (h : Scopes) : ScopeId × Scopes := h.add none

/-- A new scope under `parent`. -/
def extend (h : Scopes) (parent : ScopeId) : ScopeId × Scopes := h.add (some parent)

def bind (h : Scopes) (e : ScopeId) (name : String) (b : Binding) : Scopes :=
  ⟨h.all.modify e (·.bind name b)⟩

/-- Binds names to values pairwise, in order. -/
def bindAll (h : Scopes) (e : ScopeId) (names : List String) (values : List Value) : Scopes :=
  (names.zip values).foldl (fun h (name, v) => h.bind e name (.value v)) h

def parent? (h : Scopes) (e : ScopeId) : Option ScopeId := h.all[e]?.bind Scope.parent

/-- Looks a name up in one scope only. -/
def local? (h : Scopes) (e : ScopeId) (name : String) : Option Binding :=
  h.all[e]?.bind (·.get? name)

/-- The binding of the nearest scope that has the name. A parent is older than its child, so the
search ends. -/
def get? (h : Scopes) (e : ScopeId) (name : String) : Option Binding :=
  match h.local? e name with
  | some b => some b
  | none =>
    match h.parent? e with
    | none => none
    | some p => if p < e then h.get? p name else none
termination_by e

/-- A scope's own bindings by name, and its parent, with `address` to show scopes by. -/
def describe (h : Scopes) (address : ScopeId → String) (e : ScopeId) : String :=
  let bindings := ((h.all[e]?.map Scope.bindings).getD []).mergeSort fun a b => a.1 ≤ b.1
  let pair := fun (name, b) =>
    "(" ++ Text.quoted name ++ ", " ++ Text.quoted (Binding.render b) ++ ")"
  let parent :=
    match h.parent? e with
    | none => "None"
    | some p => "Some(" ++ address p ++ ")"
  "Environment<" ++ address e ++ "> \x7b bindings: " ++ Text.bracketed (bindings.map pair) ++
    ", parent: " ++ parent ++ " \x7d"

end Scopes

end Stacklet
