import Stacklet.Builtin
import Stacklet.Source

/-!
The commands. Standard output is the first writer, so what a program writes to `cout` and what a
command prints stand in the order they were made. A run that may not end takes a limit on its
steps and says if it got no further.
-/

namespace Stacklet

inductive CommandError where
  | notFound
  | notText
  | parse (e : ParseError)
  | execution (f : Failure)
  | leftoverValues (s : Stack)

def CommandError.message : CommandError → String
  | notFound => "No such file or directory (os error 2)"
  | notText => "stream did not contain valid UTF-8"
  | parse e => e.message
  | execution f => f.message
  | leftoverValues s => "Top level left values on the stack: " ++ s.render

/-- How an evaluation ended, or that it got no further within its limit. -/
inductive Evaluation where
  | ok (stack : Stack) (world : World)
  | failed (e : CommandError) (world : World)
  | unfinished (world : World)

namespace Evaluation

def ofRun : Run → Evaluation
  | .finished m _ => ok m.stack m.world
  | .failed f => failed (.execution f) f.machine.world
  | .running m => unfinished m.world

/-- Evaluates a source in a scope. -/
def ofSource (limit : Nat) (source : String) (stack : Stack) (scope : ScopeId) (world : World) :
    Evaluation :=
  match Block.parse source with
  | .error e => failed (.parse e) world
  | .ok block => ofRun ((Machine.start block stack scope world).run limit)

/-- Calls a method on a stack. -/
def ofCall (limit : Nat) (c : Closure) (stack : Stack) (world : World) : Evaluation :=
  let (e, scopes) := world.scopes.extend c.scope
  ofRun ((Machine.start c.body stack e { world with scopes }).run limit)

/-- Evaluates a source, which must leave the stack empty, then calls `entry` if it is a method. -/
def ofProgram (limit : Nat) (source entry : String) (scope : ScopeId) (world : World) :
    Evaluation :=
  match ofSource limit source .empty scope world with
  | ok stack world =>
    if stack.isEmpty then
      match world.scopes.get? scope entry with
      | some (.guest c) => ofCall limit c stack world
      | _ => ok stack world
    else failed (.leftoverValues stack) world
  | other => other

end Evaluation

namespace World

def print (w : World) (text : String) : World :=
  { w with writers := (w.writers.write 0 text.toUTF8.toList).2 }

/-- A line with the stack, unless it is empty. -/
def printStack (w : World) (s : Stack) : World :=
  if s.isEmpty then w else w.print (s.render ++ "\n")

def stdout (w : World) : Array UInt8 := w.writers.kept 0

/-- The base world on a reliable standard output, with a scope for programs. -/
def console : World :=
  let w := World.base #[.ofDevice .reliable]
  { w with scopes := (w.scopes.extend root).2 }

/-- The scope programs are evaluated in. -/
def program : ScopeId := 1

end World

/-- What a command leaves behind. -/
structure Report where
  stdout : Array UInt8
  stderr : String
  code : UInt32

def Report.success (w : World) : Report := ⟨w.stdout, "", 0⟩

def Report.failure (e : CommandError) (w : World) : Report := ⟨w.stdout, e.message ++ "\n", 1⟩

/-- A command's report, or what it has printed so far. -/
inductive Progress where
  | done (r : Report)
  | unfinished (stdout : Array UInt8)

namespace Command

def readText : Option ByteArray → Except CommandError String
  | none => .error .notFound
  | some bytes =>
    match String.fromUTF8? bytes with
    | some text => .ok text
    | none => .error .notText

/-- Runs a file's content and prints the stack that its entry leaves. -/
def run (limit : Nat) (entry : String) (file : Option ByteArray) : Progress :=
  match readText file with
  | .error e => .done (.failure e .console)
  | .ok source =>
    match Evaluation.ofProgram limit source entry World.program .console with
    | .ok stack world => .done (.success (world.printStack stack))
    | .failed e world => .done (.failure e world)
    | .unfinished world => .unfinished world.stdout

/-- Prints a file's content in canonical form. -/
def parse (file : Option ByteArray) : Report :=
  match readText file with
  | .error e => .failure e .console
  | .ok source =>
    match Block.parse source with
    | .ok block => .success (World.console.print block.render)
    | .error e => .failure (.parse e) .console

end Command

/-- An interactive session: the lines to be continued, and the world. -/
structure Repl where
  pending : String
  world : World

namespace Repl

def banner : String :=
  "Welcome to the Pentagram REPL!\n" ++
    "End a line with a space to continue it on the next.\n" ++
    "EOF to exit. (Ctrl+D on *nix, Ctrl+Z on Windows)\n"

def start : Repl := ⟨"", World.console.print banner⟩

def prompt (r : Repl) : Repl :=
  { r with world := r.world.print (if r.pending.isEmpty then "> " else "| ") }

def isLineEnd (c : Char) : Bool := c = '\n' || c = '\r'

/-- The line without the line feeds and carriage returns it ends in. -/
def dropLineEnd (line : List Char) : List Char := (line.reverse.dropWhile isLineEnd).reverse

inductive Response where
  | ready (r : Repl)
  | stopped (e : CommandError) (world : World)
  | unfinished (world : World)

/-- Takes a line of text. One that ends in a space is kept for the next; any other completes a
source, which is evaluated on an empty stack. -/
def enter (limit : Nat) (r : Repl) (line : String) : Response :=
  let line := dropLineEnd line.toList
  let source := r.pending ++ String.ofList line
  if line.getLast? = some ' ' then .ready { r with pending := source ++ "\n" }
  else
    match Evaluation.ofSource limit source .empty World.program r.world with
    | .ok stack world => .ready ⟨"", world.printStack stack⟩
    | .failed e world => .ready ⟨"", world.print ("Error: " ++ e.message ++ "\n")⟩
    | .unfinished world => .unfinished world

/-- Takes a line of input; one that is no text ends the session. -/
def respond (limit : Nat) (r : Repl) (line : ByteArray) : Response :=
  match String.fromUTF8? line with
  | some text => r.enter limit text
  | none => .stopped .notText r.world

/-- Goes through all lines of an input. -/
def session (limit : Nat) (r : Repl) : List ByteArray → Progress
  | [] => .done (.success r.prompt.world)
  | line :: lines =>
    match r.prompt.respond limit line with
    | .ready r => session limit r lines
    | .stopped e world => .done (.failure e world)
    | .unfinished world => .unfinished world.stdout

/-- Input up to and with each line feed, where the first line starts with `line`, backwards. -/
def linesFrom (line : List UInt8) : List UInt8 → List (List UInt8)
  | [] => if line.isEmpty then [] else [line.reverse]
  | b :: input =>
    if b = 10 then (b :: line).reverse :: linesFrom [] input else linesFrom (b :: line) input

def run (limit : Nat) (input : ByteArray) : Progress :=
  start.session limit ((linesFrom [] input.toList).map List.toByteArray)

end Repl

end Stacklet
