import Stacklet.Line.Lexeme
import Stacklet.Program.Build

/-! Reading a program: the lines of the source, their outline, and the block that it spells. -/

namespace Stacklet

inductive ParseError where
  | line (e : LineError)
  | indent (e : IndentError)
  | syntaxError (e : SyntaxError)
  deriving DecidableEq

def ParseError.message : ParseError → String
  | line e => e.message
  | indent e => e.message
  | syntaxError e => e.message

def Outline.read (source : String) : Except ParseError Outline := do
  let lines ← (Line.readAll source).mapError .line
  (Outline.ofLines lines).mapError .indent

def Block.parse (source : String) : Except ParseError Block := do
  let outline ← Outline.read source
  outline.block.mapError .syntaxError

end Stacklet
