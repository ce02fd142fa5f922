import CodecDocs.Script.Cursor

/-! Looking ahead for an arrow function: its parameters, in parentheses or a single name, end at an
arrow, with a return type between them or not. -/

namespace CodecDocs.Script

/-- The tokens after the group that opens at the front. -/
def afterGroup : Nat → List Token → Option (List Token)
  | _, [] => none
  | depth, token :: rest =>
    match token.kind with
    | .punct mark =>
      if mark.opens then afterGroup (depth + 1) rest
      else if mark.closes then
        match depth with
        | 0 => none
        | 1 => some rest
        | depth + 1 => afterGroup depth rest
      else afterGroup depth rest
    | .eof => none
    | _ => afterGroup depth rest

/-- Whether a return type at the front leads to an arrow before the expression ends. -/
def arrowAfterType : Nat → List Token → Bool
  | _, [] => false
  | depth, token :: rest =>
    match token.kind with
    | .punct mark =>
      if mark.opens || mark == .less then arrowAfterType (depth + 1) rest
      else if (mark.closes || mark == .greater) && 0 < depth then arrowAfterType (depth - 1) rest
      else if depth = 0 ∧ mark = .arrow then true
      else if depth = 0 ∧ (mark.closes ∨ mark = .semicolon ∨ mark = .comma ∨ mark = .assign) then
        false
      else arrowAfterType depth rest
    | .eof => false
    | _ => arrowAfterType depth rest

/-- The tokens of a function after the word that makes it asynchronous. -/
def dropAsync : List Token → List Token
  | token :: next :: rest =>
    if token.kind = .word "async" ∧ !next.newline ∧
        (isWordKind next.kind ∨ next.kind = .punct .openParen) then next :: rest
    else token :: next :: rest
  | tokens => tokens

/-- Whether the tokens begin with an arrow function. -/
def arrowAhead (tokens : List Token) : Bool :=
  match dropAsync tokens with
  | [] => false
  | token :: rest =>
    match token.kind with
    | .word _ => (rest.head?.map Token.kind) == some (.punct .arrow)
    | .punct .openParen =>
      match afterGroup 0 (token :: rest) with
      | some (next :: more) =>
        match next.kind with
        | .punct .arrow => true
        | .punct .colon => arrowAfterType 0 more
        | _ => false
      | _ => false
    | _ => false

end CodecDocs.Script
