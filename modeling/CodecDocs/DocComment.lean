import CodecDocs.Text.Alphabetic
import CodecDocs.Text.Blank
import CodecDocs.Text.Lines
import CodecDocs.Text.WordMark

/-! Documentation comments: a summary paragraph, further paragraphs and tags. The lines before the
first tag make up the paragraphs; each tag takes the lines up to the next one. -/

namespace CodecDocs

structure DocTag where
  name : String
  value : String
  deriving DecidableEq

structure DocComment where
  summary : Option String
  description : Option String
  tags : List DocTag
  deriving DecidableEq

namespace DocComment

def isTagChar (c : Char) : Bool := Text.isAlphabetic c || Text.isWordMark c || c == '-'

/-- The name and the value of a trimmed line that begins a tag. -/
def tagLine? : List Char → Option (List Char × List Char)
  | '@' :: c :: rest =>
    if c.isAlpha then
      some (c :: rest.takeWhile isTagChar, Text.trim (rest.dropWhile isTagChar))
    else none
  | _ => none

/-- Runs of lines that are not empty, the run before the text being given backwards. -/
def paragraphsFrom (run : List (List Char)) : List (List Char) → List (List (List Char))
  | [] => if run.isEmpty then [] else [run.reverse]
  | line :: lines =>
    if line.isEmpty then
      if run.isEmpty then paragraphsFrom [] lines else run.reverse :: paragraphsFrom [] lines
    else paragraphsFrom (line :: run) lines

/-- A tag from its name and its lines, given backwards. -/
def tagOf (name : List Char) (lines : List (List Char)) : DocTag :=
  ⟨String.ofList name, String.ofList (Text.join ['\n'] (lines.reverse.filter (· ≠ [])))⟩

/-- The tags when one has been begun. -/
def tagsFrom (name : List Char) (read : List (List Char)) : List (List Char) → List DocTag
  | [] => [tagOf name read]
  | line :: lines =>
    match tagLine? line with
    | some (next, value) => tagOf name read :: tagsFrom next [value] lines
    | none => tagsFrom name (line :: read) lines

/-- The tags of lines the first of which begins one. -/
def tagsOf : List (List Char) → List DocTag
  | [] => []
  | line :: lines =>
    match tagLine? line with
    | some (name, value) => tagsFrom name [value] lines
    | none => []

/-- Reads the text of a documentation block; one without any text is no comment. -/
def parse (text : String) : Option DocComment :=
  let lines := (Text.lines text.toList).map Text.trim
  let isText (line : List Char) : Bool := (tagLine? line).isNone
  let paragraphs := (paragraphsFrom [] (lines.takeWhile isText)).map (Text.join [' '])
  let tags := tagsOf (lines.dropWhile isText)
  match paragraphs, tags with
  | [], [] => none
  | [], _ => some ⟨none, none, tags⟩
  | [summary], _ => some ⟨some (String.ofList summary), none, tags⟩
  | summary :: rest, _ =>
    some ⟨some (String.ofList summary), some (String.ofList (Text.join ['\n', '\n'] rest)), tags⟩

/-- The value of the first tag of a name. -/
def tag? (c : DocComment) (name : String) : Option String :=
  (c.tags.find? fun t => t.name = name).map DocTag.value

def hasTag (c : DocComment) (name : String) : Bool := c.tags.any fun t => t.name = name

def tagValues (c : DocComment) (name : String) : List String :=
  (c.tags.filter fun t => t.name = name).map DocTag.value

/-- Summary and description as one text. -/
def fullText (c : DocComment) : Option String :=
  match c.summary, c.description with
  | some summary, some description => some (summary ++ "\n\n" ++ description)
  | some summary, none => some summary
  | none, description => description

end DocComment

end CodecDocs
