import Stacklet.Line
import Stacklet.Text.Lines
import Stacklet.Text.Space

/-!
Reading a line. Its text is cut into lexemes from the left: white space and markers end a word,
and `--` starts the comment, which takes the rest of the line.
-/

namespace Stacklet

inductive Lexeme where
  | marker (m : Marker)
  | word (text : String)
  deriving DecidableEq

namespace Lexeme

/-- The lexemes and the comment of a text. -/
abbrev Scan := List Lexeme × Option String

def Scan.add (l : Lexeme) (s : Scan) : Scan := (l :: s.1, s.2)

/-- Puts the word in front, if there is one; it is given backwards. -/
def Scan.addWord (word : List Char) (s : Scan) : Scan :=
  if word.isEmpty then s else s.add (.word (String.ofList word.reverse))

/-- Scans the text in the middle of a word, of which `word` is given backwards. -/
def scanFrom (word : List Char) : List Char → Scan
  | [] => .addWord word ([], none)
  | '-' :: '-' :: text => .addWord word ([], some (String.ofList text))
  | '>' :: '>' :: text => .addWord word (.add (.marker .method) (scanFrom [] text))
  | c :: text =>
    if c = '=' then .addWord word (.add (.marker .assign) (scanFrom [] text))
    else if c = ':' then .addWord word (.add (.marker .block) (scanFrom [] text))
    else if Text.isSpace c then .addWord word (scanFrom [] text)
    else scanFrom (c :: word) text

def scan (text : String) : Scan := scanFrom [] text.toList

def item : Lexeme → Except LiteralError Item
  | marker m => .ok (.marker m)
  | word text => (Atom.ofWord text).map .atom

end Lexeme

namespace Line

/-- A tab among the white space before the first item, where indentation is counted in spaces. -/
def hasTabIndent (text : String) : Bool :=
  ((text.toList.dropWhile (· = ' ')).takeWhile Text.isSpace).contains '\t'

def read (number : Nat) (text : String) : Except LineError Line :=
  if hasTabIndent text then .error ⟨number, .tabIndent⟩
  else
    let scan := Lexeme.scan text
    match scan.1.mapM Lexeme.item with
    | .ok items =>
      .ok { number, items, indent := (text.toList.takeWhile (· = ' ')).length, comment := scan.2 }
    | .error e => .error ⟨number, .literal e⟩

/-- Reads texts as lines with consecutive numbers, up to the first error. -/
def readFrom (number : Nat) : List String → Except LineError (List Line)
  | [] => .ok []
  | text :: texts => do
    let line ← read number text
    let lines ← readFrom (number + 1) texts
    return line :: lines

/-- The lines of a source, counted from one. -/
def readAll (source : String) : Except LineError (List Line) := readFrom 1 (Text.lines source)

end Line

end Stacklet
