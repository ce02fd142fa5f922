import CodecDocs.Number.Layout
import CodecDocs.Text.Quoted
import CodecDocs.Token.Punct

/-! Tokens of a source text. A token knows which bytes it covers, where it begins, the documentation
block right before it and whether a line break parts it from the token before. -/

namespace CodecDocs

/-- A range of bytes and the line and column of its first character, both counted from one. -/
structure Span where
  start : Nat
  stop : Nat
  line : Nat
  column : Nat
  deriving DecidableEq, Inhabited

namespace Token

inductive Kind where
  | word (name : String)
  | string (value : String)
  /-- A template with substitutions; its text is not kept. -/
  | template
  | number (value : Binary64)
  | regex
  | punct (mark : Punct)
  | eof
  deriving DecidableEq, Inhabited

/-- Numbers in messages: all places from `10 ^ -4` up to `10 ^ 16`, always with a fraction. -/
def numberStyle : NumberStyle where
  plain k := decide (-4 ≤ k ∧ k < 16)
  fraction := true
  plus := ""
  tie := .up

/-- A kind of token as messages name it. -/
def Kind.describe : Kind → String
  | .word name => "Ident(" ++ Text.quoted name ++ ")"
  | .string value => "Str(" ++ Text.quoted value ++ ")"
  | .template => "Template"
  | .number value => "Num(" ++ numberStyle.write value ++ ")"
  | .regex => "Regex"
  | .punct mark => "Punct(" ++ Text.quoted mark.text ++ ")"
  | .eof => "Eof"

end Token

structure Token where
  kind : Token.Kind
  span : Span
  /-- The nearest documentation block in the gap before the token. -/
  doc : Option String
  /-- A line break parts the token from the one before it. -/
  newline : Bool
  deriving DecidableEq, Inhabited

/-! ### Failures -/

inductive LexComplaint where
  | unexpectedCharacter (c : Char)
  | unterminatedComment
  | unterminatedString
  | unterminatedEscape
  | invalidHexEscape
  | invalidUnicodeEscape
  | unterminatedTemplate
  | unterminatedSubstitution
  | unterminatedRegex
  | invalidRadixNumber
  | invalidNumber (text : String)
  /-- The bound on the number of tokens was too small. -/
  | exhausted
  deriving DecidableEq

def LexComplaint.message : LexComplaint → String
  | .unexpectedCharacter c => "Unexpected character '" ++ c.toString ++ "'"
  | .unterminatedComment => "Unterminated comment"
  | .unterminatedString => "Unterminated string literal"
  | .unterminatedEscape => "Unterminated escape sequence"
  | .invalidHexEscape => "Invalid \\x escape"
  | .invalidUnicodeEscape => "Invalid \\u escape"
  | .unterminatedTemplate => "Unterminated template literal"
  | .unterminatedSubstitution => "Unterminated template substitution"
  | .unterminatedRegex => "Unterminated regular expression"
  | .invalidRadixNumber => "Invalid number literal"
  | .invalidNumber text => "Invalid number literal '" ++ text ++ "'"
  | .exhausted => "Token bound exhausted"

structure LexError where
  complaint : LexComplaint
  line : Nat
  column : Nat
  deriving DecidableEq

def LexError.message (e : LexError) : String :=
  "Lexer error [" ++ toString e.line ++ ":" ++ toString e.column ++ "]: " ++ e.complaint.message

end CodecDocs
