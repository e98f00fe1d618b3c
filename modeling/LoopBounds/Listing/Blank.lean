/-!
# Blanks and comments

Between the tokens of a program there may be spaces, tabs, line ends, and comments,
which begin with a semicolon and end before the end of their line.
-/

namespace LoopBounds.Listing

def isBlank (c : Char) : Bool := c = ' ' || c = '\t' || c = '\r' || c = '\n'

/-- The characters that end a line. -/
def endsLine (c : Char) : Bool := c = '\n' || c = '\r'

/-- Drops blanks and comments in front of the text; `comment` tells whether the text
starts inside a comment. -/
def skipFrom (comment : Bool) : List Char → List Char
  | [] => []
  | c :: rest =>
      if comment then skipFrom (!endsLine c) rest
      else if isBlank c then skipFrom false rest
      else if c = ';' then skipFrom true rest
      else c :: rest

def skip : List Char → List Char := skipFrom false

end LoopBounds.Listing
