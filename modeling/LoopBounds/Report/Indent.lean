/-!
# Indentation

Reports are laid out with four spaces a level and then printed with another width. A
line ends at a line feed, which takes a carriage return in front of it along; the last
line may end with the text instead.
-/

namespace LoopBounds.Report

/-- A line, read backwards, without the carriage return at its end. -/
def dropReturn : List Char → List Char
  | '\r' :: line => line
  | line => line

/-- The lines of a text; `line` holds, read backwards, what the current line has so
far. -/
def linesFrom (line : List Char) : List Char → List (List Char)
  | [] => if line = [] then [] else [line.reverse]
  | '\n' :: rest => (dropReturn line).reverse :: linesFrom [] rest
  | c :: rest => linesFrom (c :: line) rest

def lines (text : List Char) : List (List Char) := linesFrom [] text

/-- The width of one level in the layout of a report. -/
def layoutWidth : Nat := 4

/-- A line with `width` spaces for every level at its front. Spaces that make no whole
level are dropped. -/
def reindentLine (width : Nat) (line : List Char) : List Char :=
  let level := (line.takeWhile (· = ' ')).length / layoutWidth
  List.replicate (level * width) ' ' ++ line.dropWhile (· = ' ')

/-- The text with `width` spaces a level. Every line of the result ends in a line
feed. -/
def reindent (text : String) (width : Nat) : String :=
  String.ofList ((lines text.toList).flatMap fun line => reindentLine width line ++ ['\n'])

end LoopBounds.Report
