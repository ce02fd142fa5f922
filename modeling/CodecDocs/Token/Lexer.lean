import CodecDocs.Token.Gap
import CodecDocs.Token.Lexeme

/-! Cutting a source text into tokens: gap and lexeme in turn until the text ends. Places are
counted over the characters that each of them takes. -/

namespace CodecDocs.Token

/-- A place in a text: bytes before it, line and column. -/
structure Place where
  offset : Nat
  line : Nat
  column : Nat
  deriving DecidableEq

namespace Place

def first : Place := ⟨0, 1, 1⟩

def step (p : Place) (c : Char) : Place :=
  if c = '\n' then ⟨p.offset + c.utf8Size, p.line + 1, 1⟩
  else ⟨p.offset + c.utf8Size, p.line, p.column + 1⟩

/-- The place after reading a text. -/
def after (p : Place) (text : List Char) : Place := text.foldl step p

def error (p : Place) (complaint : LexComplaint) : LexError := ⟨complaint, p.line, p.column⟩

def spanTo (p q : Place) : Span := ⟨p.offset, q.offset, p.line, p.column⟩

end Place

/-- The tokens of a text that begins at `place` after the token `previous`; each round takes one
token. -/
def lexFrom : Nat → Option Kind → Place → List Char → Except LexError (List Token)
  | 0, _, place, _ => .error (place.error .exhausted)
  | rounds + 1, previous, place, text =>
    match Gap.scan text with
    | .error used => .error ((place.after (text.take used)).error .unterminatedComment)
    | .ok (doc, gap) =>
      let start := place.after (text.take gap)
      let rest := text.drop gap
      if rest.isEmpty then .ok [⟨.eof, start.spanTo start, none, true⟩]
      else match lexeme previous rest with
        | .error (complaint, used) => .error ((start.after (rest.take used)).error complaint)
        | .ok (kind, used) =>
          let stop := start.after (rest.take used)
          let newline := previous.isNone || (text.take gap).contains '\n'
          (lexFrom rounds (some kind) stop (rest.drop used)).map
            (⟨kind, start.spanTo stop, doc, newline⟩ :: ·)

/-- The tokens of a source text, the last of which marks its end. -/
def lex (source : String) : Except LexError (List Token) :=
  let text := source.toList
  lexFrom (text.length + 1) none .first text

end CodecDocs.Token
