import Stacklet.Console

/-! The command line. -/

namespace Stacklet.Terminal

/-- Shows what has been printed beyond `shown`, and the new count. -/
def present (shown : Nat) (stdout : Array UInt8) : IO Nat := do
  let out ← IO.getStdout
  out.write ⟨stdout.extract shown stdout.size⟩
  out.flush
  return stdout.size

def conclude (shown : Nat) (r : Report) : IO UInt32 := do
  discard (present shown r.stdout)
  IO.eprint r.stderr
  return r.code

/-- Tries with twice the limit until the command is done, and shows its output as it grows. -/
partial def settle (command : Nat → Progress) (limit shown : Nat) : IO UInt32 := do
  match command limit with
  | .done r => conclude shown r
  | .unfinished stdout => settle command (2 * limit) (← present shown stdout)

def readFile (path : String) : IO (Option ByteArray) := do
  try
    return some (← IO.FS.readBinFile path)
  catch
    | .noFileOrDirectory .. => return none
    | e => throw e

partial def readLine (input : IO.FS.Stream) (line : ByteArray) : IO ByteArray := do
  let next ← input.read 1
  if next.isEmpty then return line
  else if next.data = #[10] then return line ++ next
  else readLine input (line ++ next)

partial def answer (r : Repl) (line : ByteArray) (limit shown : Nat) :
    IO (Except Report Repl × Nat) := do
  match r.respond limit line with
  | .ready r => return (.ok r, shown)
  | .stopped e world => return (.error (.failure e world), shown)
  | .unfinished world => answer r line (2 * limit) (← present shown world.stdout)

partial def converse (r : Repl) (shown : Nat) : IO UInt32 := do
  let r := r.prompt
  let shown ← present shown r.world.stdout
  let line ← readLine (← IO.getStdin) .empty
  if line.isEmpty then conclude shown (.success r.world)
  else
    match ← answer r line 4096 shown with
    | (.ok r, shown) => converse r shown
    | (.error report, shown) => conclude shown report

def execute (entry path : String) : IO UInt32 := do
  let file ← readFile path
  settle (Command.run · entry file) 4096 0

end Stacklet.Terminal

open Stacklet Terminal in
def main : List String → IO UInt32
  | [] | ["repl"] => converse .start 0
  | ["parse", path] => do conclude 0 (Command.parse (← readFile path))
  | ["run", path] => execute "main" path
  | ["run", "--entry", entry, path] | ["run", path, "--entry", entry] => execute entry path
  | ["run", first, second] =>
    let option := "--entry="
    if first.startsWith option then execute (first.drop option.length).toString second
    else if second.startsWith option then execute (second.drop option.length).toString first
    else usage
  | _ => usage
where
  usage : IO UInt32 := do
    IO.eprintln "Usage: run [--entry NAME] FILE | parse FILE | repl"
    return 2
