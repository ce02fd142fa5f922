import CodecDocs.Script.Basic

/-! A place in a list of tokens, and the parser's basic moves from there. The last token marks the
end of the source, and no move goes past it. -/

namespace CodecDocs.Script

inductive ParseComplaint where
  | expectedPunct (mark : Punct) (found : Token.Kind)
  | expectedWord (word : String) (found : Token.Kind)
  | expectedIdentifier (found : Token.Kind)
  | expectedString (found : Token.Kind)
  | expectedType (found : Token.Kind)
  | expectedKey (found : Token.Kind)
  | expectedColon
  | unexpectedToken (found : Token.Kind)
  | unbalanced
  | unterminatedTypeArguments
  | classExpression
  /-- The bound on the number of steps was too small. -/
  | exhausted
  deriving DecidableEq

def ParseComplaint.message : ParseComplaint → String
  | .expectedPunct mark found => "Expected '" ++ mark.text ++ "', found " ++ found.describe
  | .expectedWord word found => "Expected '" ++ word ++ "', found " ++ found.describe
  | .expectedIdentifier found => "Expected identifier, found " ++ found.describe
  | .expectedString found => "Expected string literal, found " ++ found.describe
  | .expectedType found => "Expected type, found " ++ found.describe
  | .expectedKey found => "Expected property key, found " ++ found.describe
  | .expectedColon => "Expected ':' after property key"
  | .unexpectedToken found => "Unexpected token " ++ found.describe
  | .unbalanced => "Unbalanced brackets"
  | .unterminatedTypeArguments => "Unterminated type arguments"
  | .classExpression => "Class expressions are not supported"
  | .exhausted => "Step bound exhausted"

structure ParseError where
  complaint : ParseComplaint
  line : Nat
  column : Nat
  deriving DecidableEq

def ParseError.message (e : ParseError) : String :=
  "Parse error [" ++ toString e.line ++ ":" ++ toString e.column ++ "]: " ++ e.complaint.message

/-- The current token, those after it, and where the one before it ended. -/
structure Cursor where
  lastStop : Option Nat
  current : Token
  ahead : List Token

namespace Cursor

/-- A mark for the end of a list of tokens that has none. -/
def endMark (last : Option Token) : Token :=
  let span := (last.map Token.span).getD ⟨0, 0, 0, 0⟩
  ⟨.eof, { span with start := span.stop }, none, true⟩

def ofTokens (tokens : List Token) : Cursor :=
  let tokens :=
    if (tokens.getLast?.map Token.kind) = some .eof then tokens
    else tokens ++ [endMark tokens.getLast?]
  match tokens with
  | [] => ⟨none, endMark none, []⟩
  | first :: rest => ⟨none, first, rest⟩

def tokens (c : Cursor) : List Token := c.current :: c.ahead

/-- The cursor at the next token; at the last one it stays. -/
def next (c : Cursor) : Cursor :=
  match c.ahead with
  | [] => c
  | token :: rest => ⟨some c.current.span.stop, token, rest⟩

def kind (c : Cursor) : Token.Kind := c.current.kind

/-- The kind of the token after the current one. -/
def nextKind (c : Cursor) : Token.Kind := c.next.kind

def isEnd (c : Cursor) : Bool := c.kind == .eof

def atPunct (c : Cursor) (mark : Punct) : Bool := c.kind == .punct mark

def atWord (c : Cursor) (word : String) : Bool := c.kind == .word word

def atAnyWord (c : Cursor) (words : List String) : Bool := words.any c.atWord

/-- A span from `start` to the end of the last token that was taken. -/
def spanFrom (c : Cursor) (start : Span) : Span :=
  { start with stop := max (c.lastStop.getD start.stop) start.start }

/-- More than any loop that takes a token in each round can need. -/
def bound (c : Cursor) : Nat := c.ahead.length + 2

end Cursor

def isWordKind : Token.Kind → Bool
  | .word _ => true
  | _ => false

abbrev Parser := StateT Cursor (Except ParseError)

namespace Parser

def fail {α : Type} (complaint : ParseComplaint) : Parser α := do
  let span := (← get).current.span
  throw ⟨complaint, span.line, span.column⟩

/-- Takes the current token. -/
def advance : Parser Token := do
  let c ← get
  set c.next
  return c.current

/-- Runs a parser, and returns to where it began if it fails. Only an exhausted bound stays a
failure. -/
def attempt {α : Type} (p : Parser α) : Parser (Option α) := fun c =>
  match p c with
  | .ok (a, c') => .ok (some a, c')
  | .error e => if e.complaint = .exhausted then .error e else .ok (none, c)

def eat (mark : Punct) : Parser Bool := do
  if (← get).atPunct mark then
    discard advance
    return true
  else return false

def eatWord (word : String) : Parser Bool := do
  if (← get).atWord word then
    discard advance
    return true
  else return false

def expect (mark : Punct) : Parser Unit := do
  let c ← get
  if c.atPunct mark then discard advance else fail (.expectedPunct mark c.kind)

def expectWord (word : String) : Parser Unit := do
  let c ← get
  if c.atWord word then discard advance else fail (.expectedWord word c.kind)

def identifier : Parser String := do
  match (← get).kind with
  | .word name => discard advance; return name
  | found => fail (.expectedIdentifier found)

def stringLiteral : Parser String := do
  match (← get).kind with
  | .string value => discard advance; return value
  | found => fail (.expectedString found)

/-- A name in a list of imports or exports, which may be quoted. -/
def exportName : Parser String := do
  match (← get).kind with
  | .string value => discard advance; return value
  | _ => identifier

/-- The span of the current token, where a construct begins. -/
def here : Parser Span := do return (← get).current.span

def spanFrom (start : Span) : Parser Span := do return (← get).spanFrom start

end Parser

end CodecDocs.Script
