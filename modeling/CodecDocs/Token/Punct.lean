/-! Punctuation marks, and the choice of the longest mark that a text begins with. -/

namespace CodecDocs

inductive Punct where
  | ellipsis | strictEqual | strictUnequal | powerAssign | nullishAssign | andAssign | orAssign
  | arrow | optionalDot | nullish | equal | unequal | atMost | atLeast | and | or | power
  | increment | decrement | addAssign | subAssign | mulAssign | divAssign | remAssign
  | bitAndAssign | bitOrAssign | bitXorAssign
  | openBrace | closeBrace | openParen | closeParen | openBracket | closeBracket
  | semicolon | comma | less | greater | plus | minus | star | slash | percent | ampersand | bar
  | caret | bang | tilde | question | colon | assign | dot | at | hash
  deriving DecidableEq, Repr, Inhabited

namespace Punct

def text : Punct → String
  | .ellipsis => "..."
  | .strictEqual => "==="
  | .strictUnequal => "!=="
  | .powerAssign => "**="
  | .nullishAssign => "??="
  | .andAssign => "&&="
  | .orAssign => "||="
  | .arrow => "=>"
  | .optionalDot => "?."
  | .nullish => "??"
  | .equal => "=="
  | .unequal => "!="
  | .atMost => "<="
  | .atLeast => ">="
  | .and => "&&"
  | .or => "||"
  | .power => "**"
  | .increment => "++"
  | .decrement => "--"
  | .addAssign => "+="
  | .subAssign => "-="
  | .mulAssign => "*="
  | .divAssign => "/="
  | .remAssign => "%="
  | .bitAndAssign => "&="
  | .bitOrAssign => "|="
  | .bitXorAssign => "^="
  | .openBrace => "\x7b"
  | .closeBrace => "\x7d"
  | .openParen => "("
  | .closeParen => ")"
  | .openBracket => "["
  | .closeBracket => "]"
  | .semicolon => ";"
  | .comma => ","
  | .less => "<"
  | .greater => ">"
  | .plus => "+"
  | .minus => "-"
  | .star => "*"
  | .slash => "/"
  | .percent => "%"
  | .ampersand => "&"
  | .bar => "|"
  | .caret => "^"
  | .bang => "!"
  | .tilde => "~"
  | .question => "?"
  | .colon => ":"
  | .assign => "="
  | .dot => "."
  | .at => "@"
  | .hash => "#"

/-- All marks, longer ones before shorter ones. -/
def all : List Punct :=
  [.ellipsis, .strictEqual, .strictUnequal, .powerAssign, .nullishAssign, .andAssign, .orAssign,
    .arrow, .optionalDot, .nullish, .equal, .unequal, .atMost, .atLeast, .and, .or, .power,
    .increment, .decrement, .addAssign, .subAssign, .mulAssign, .divAssign, .remAssign,
    .bitAndAssign, .bitOrAssign, .bitXorAssign, .openBrace, .closeBrace, .openParen, .closeParen,
    .openBracket, .closeBracket, .semicolon, .comma, .less, .greater, .plus, .minus, .star, .slash,
    .percent, .ampersand, .bar, .caret, .bang, .tilde, .question, .colon, .assign, .dot, .at, .hash]

/-- The longest mark that a text begins with. -/
def start? (text : List Char) : Option Punct := all.find? fun p => p.text.toList.isPrefixOf text

/-- Marks that open a bracketed group. -/
def opens : Punct → Bool
  | .openParen | .openBracket | .openBrace => true
  | _ => false

/-- Marks that close a bracketed group. -/
def closes : Punct → Bool
  | .closeParen | .closeBracket | .closeBrace => true
  | _ => false

/-- How tightly a binary operator binds; operators of one level group to the left. -/
def precedence? : Punct → Option Nat
  | .nullish => some 1
  | .or => some 2
  | .and => some 3
  | .bar => some 4
  | .caret => some 5
  | .ampersand => some 6
  | .equal | .unequal | .strictEqual | .strictUnequal => some 7
  | .less | .greater | .atMost | .atLeast => some 8
  | .plus | .minus => some 10
  | .star | .slash | .percent => some 11
  | .power => some 12
  | _ => none

/-- Marks that assign, with or without an operation. -/
def assigns : Punct → Bool
  | .assign | .addAssign | .subAssign | .mulAssign | .divAssign | .remAssign | .powerAssign
  | .bitAndAssign | .bitOrAssign | .bitXorAssign | .andAssign | .orAssign | .nullishAssign => true
  | _ => false

end Punct

end CodecDocs
