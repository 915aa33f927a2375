import Stacklet.Program.Layout
import Stacklet.Scope
import Stacklet.Stack

/-!
The machine that runs programs. Blocks, values of assignments and method calls do not recurse:
each has a frame, and all frames share the stack.
-/

namespace Stacklet

inductive Fault where
  | unboundName (name : String)
  | stackUnderflow (needed found : Nat)
  | hostCall (name : String) (error : HostError)
  deriving DecidableEq

def Fault.message : Fault → String
  | unboundName name => "Unbound name: " ++ name
  | stackUnderflow needed found => s!"Stack underflow: needed {needed} values, found {found}"
  | hostCall name error => "Error calling " ++ name ++ ": " ++ error.message

/-- A place in a block: at which term of which statement execution goes on. For an assignment,
`term` is zero before its value has been entered. -/
structure Frame where
  block : Block
  statement : Nat
  term : Nat
  scope : ScopeId

namespace Frame

def start (block : Block) (scope : ScopeId) : Frame := ⟨block, 0, 0, scope⟩

def nextTerm (f : Frame) : Frame := { f with term := f.term + 1 }

def nextStatement (f : Frame) : Frame := { f with statement := f.statement + 1, term := 0 }

end Frame

/-- What outlasts a run: all scopes, and all writers. -/
structure World where
  scopes : Scopes
  writers : Writers

/-- Frames are listed innermost first. -/
structure Machine where
  frames : List Frame
  stack : Stack
  world : World

/-- Why a step failed and at which statement, with the machine as the failure left it. -/
structure Failure where
  fault : Fault
  statement : Statement
  machine : Machine

def Failure.message (f : Failure) : String :=
  "Error executing statement: " ++ f.statement.render ++ " - " ++ f.fault.message

namespace Machine

def start (block : Block) (stack : Stack) (scope : ScopeId) (world : World) : Machine :=
  ⟨[.start block scope], stack, world⟩

def isFinished (m : Machine) : Bool := m.frames.isEmpty

def push (m : Machine) (v : Value) : Machine := { m with stack := m.stack.push v }

/-- Starts a block in a new scope under `parent`. -/
def enter (m : Machine) (block : Block) (parent : ScopeId) : Machine :=
  match m with
  | ⟨frames, stack, ⟨scopes, writers⟩⟩ =>
    let (e, scopes) := scopes.extend parent
    ⟨.start block e :: frames, stack, ⟨scopes, writers⟩⟩

def bind (m : Machine) (e : ScopeId) (name : String) (b : Binding) : Machine :=
  match m with
  | ⟨frames, stack, ⟨scopes, writers⟩⟩ => ⟨frames, stack, ⟨scopes.bind e name b, writers⟩⟩

/-- Runs a host call on the newest values. If it fails, its arguments are gone all the same. -/
def call (m : Machine) (c : HostCall) : Except (Fault × Machine) Machine :=
  match m.stack.pop? c.parameters.length with
  | none => .error (.stackUnderflow c.parameters.length m.stack.size, m)
  | some (arguments, stack) =>
    match (c.invoke arguments).run m.world.writers with
    | (.ok results, writers) =>
      .ok { m with stack := stack.pushAll results, world.writers := writers }
    | (.error e, writers) =>
      .error (.hostCall c.name e, { m with stack, world.writers := writers })

/-- Pops one value per name and binds them, so that the last name takes the newest. -/
def assign (m : Machine) (e : ScopeId) (names : List String) : Except (Fault × Machine) Machine :=
  match m.stack.pop? names.length with
  | none => .error (.stackUnderflow names.length m.stack.size, m)
  | some (values, stack) =>
    .ok { m with stack, world.scopes := m.world.scopes.bindAll e names values }

/-- Replaces the innermost frame. -/
def resume (m : Machine) (f : Frame) : Machine := { m with frames := f :: m.frames.tail }

/-- Executes a term in the innermost frame `f`. -/
def term (m : Machine) (f : Frame) : Term → Except (Fault × Machine) Machine
  | .number n => .ok ((m.push (.number n)).resume f.nextTerm)
  | .identifier name =>
    match m.world.scopes.get? f.scope name with
    | none => .error (.unboundName name, m)
    | some (.value v) => .ok ((m.push v).resume f.nextTerm)
    | some (.guest c) => .ok ((m.resume f.nextTerm).enter c.body c.scope)
    | some (.host c) => (m.call c).map (·.resume f.nextTerm)
  | .comment _ => .ok (m.resume f.nextTerm)
  | .block body => .ok ((m.resume f.nextTerm).enter body f.scope)

/-- Executes a step of a statement in the innermost frame `f`. -/
def statement (m : Machine) (f : Frame) : Statement → Except (Fault × Machine) Machine
  | .expression terms _ =>
    match terms[f.term]? with
    | some t => m.term f t
    | none => .ok (m.resume f.nextStatement)
  | .assignment names value _ =>
    if f.term = 0 then .ok ((m.resume f.nextTerm).enter value f.scope)
    else (m.assign f.scope names).map (·.resume f.nextStatement)
  | .method name body _ =>
    .ok ((m.bind f.scope name (.guest ⟨f.scope, body⟩)).resume f.nextStatement)

/-- One step of the innermost frame; a frame at the end of its block is left. -/
def step (m : Machine) : Except Failure Machine :=
  match m.frames with
  | [] => .ok m
  | f :: frames =>
    match f.block[f.statement]? with
    | none => .ok { m with frames }
    | some s => (m.statement f s).mapError fun (fault, machine) => ⟨fault, s, machine⟩

end Machine

/-- How far a run got: to its end, with some of its steps unspent, to a failure, or to its limit. -/
inductive Run where
  | finished (m : Machine) (unspent : Nat)
  | failed (f : Failure)
  | running (m : Machine)

/-- Runs the machine for at most `limit` steps. -/
def Machine.run (limit : Nat) (m : Machine) : Run :=
  if m.isFinished then .finished m limit
  else
    match limit with
    | 0 => .running m
    | n + 1 =>
      match m.step with
      | .ok m => m.run n
      | .error f => .failed f

end Stacklet
