/-! Lines and pieces of a text. A line ends at a line feed, a carriage return right before that line
feed belongs to the break, and nothing follows the last break when it ends the text. -/

namespace CodecDocs.Text

/-- A line, given backwards, without the carriage return of its break. -/
def dropReturn : List Char → List Char
  | '\r' :: line => line
  | line => line

/-- The lines of `text` when `line`, given backwards, has already been read. -/
def linesFrom (line : List Char) : List Char → List (List Char)
  | [] => if line.isEmpty then [] else [line.reverse]
  | c :: text =>
    if c = '\n' then (dropReturn line).reverse :: linesFrom [] text
    else linesFrom (c :: line) text

def lines (text : List Char) : List (List Char) := linesFrom [] text

/-- The pieces with `separator` between each two of them. -/
def join (separator : List Char) : List (List Char) → List Char
  | [] => []
  | [piece] => piece
  | piece :: pieces => piece ++ separator ++ join separator pieces

/-- The pieces between the separators of a text. -/
def split (separator : Char) : List Char → List (List Char)
  | [] => [[]]
  | c :: text =>
    if c = separator then [] :: split separator text
    else match split separator text with
      | piece :: pieces => (c :: piece) :: pieces
      | [] => [[c]]

/-- What is left of a text after the first `n` bytes of its UTF-8 form. -/
def dropBytes : List Char → Nat → Option (List Char)
  | text, 0 => some text
  | [], _ + 1 => none
  | c :: text, n + 1 => if c.utf8Size ≤ n + 1 then dropBytes text (n + 1 - c.utf8Size) else none

/-- The characters that make up the first `n` bytes of a text's UTF-8 form. -/
def takeBytes : List Char → Nat → Option (List Char)
  | _, 0 => some []
  | [], _ + 1 => none
  | c :: text, n + 1 =>
    if c.utf8Size ≤ n + 1 then (takeBytes text (n + 1 - c.utf8Size)).map (c :: ·) else none

/-- The text from byte `start` up to byte `stop`, when both fall between characters. -/
def slice (text : List Char) (start stop : Nat) : Option (List Char) :=
  if stop < start then none
  else (dropBytes text start).bind fun rest => takeBytes rest (stop - start)

end CodecDocs.Text
