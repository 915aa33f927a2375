/-!
The lines of a text. A line ends at a line feed, and a carriage return directly before the line
feed belongs to the ending. Text after the last line feed is a line of its own unless it is empty.
-/

namespace Stacklet.Text

/-- Without the carriage return a line ended in; the line is given backwards. -/
def dropReturn : List Char → List Char
  | '\r' :: line => line
  | line => line

/-- The lines of the text, the first of which starts with `line`, given backwards. -/
def linesFrom (line : List Char) : List Char → List (List Char)
  | [] => if line.isEmpty then [] else [line.reverse]
  | c :: text =>
    if c = '\n' then (dropReturn line).reverse :: linesFrom [] text
    else linesFrom (c :: line) text

def lines (text : String) : List String := (linesFrom [] text.toList).map String.ofList

end Stacklet.Text
