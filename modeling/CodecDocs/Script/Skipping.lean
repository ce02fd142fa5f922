import CodecDocs.Script.Cursor

/-! Parts of a module that are passed over: statements without values, bracketed groups and types. -/

namespace CodecDocs.Script.Parser

/-! ### Groups -/

/-- Nesting depth after a token of a bracketed group. -/
def depthAfter (depth : Nat) : Token.Kind → Nat
  | .punct mark => if mark.opens then depth + 1 else if mark.closes then depth - 1 else depth
  | _ => depth

def balancedFrom : Nat → Nat → Parser Unit
  | 0, _ => fail .exhausted
  | rounds + 1, depth => do
    let kind := (← get).kind
    if kind = .eof then fail .unbalanced
    discard advance
    let depth := depthAfter depth kind
    if depth = 0 then return
    balancedFrom rounds depth

/-- Passes over a bracketed group, or over one token where none begins. -/
def skipBalanced : Parser Unit := do balancedFrom (← get).bound 0

def anglesFrom : Nat → Nat → Parser Unit
  | 0, _ => fail .exhausted
  | rounds + 1, depth => do
    match (← get).kind with
    | .eof | .punct .semicolon => fail .unterminatedTypeArguments
    | .punct .openParen | .punct .openBracket | .punct .openBrace =>
      skipBalanced
      anglesFrom rounds depth
    | kind =>
      discard advance
      let depth :=
        if kind = .punct .less then depth + 1
        else if kind = .punct .greater then depth - 1
        else depth
      if depth = 0 then return
      anglesFrom rounds depth

/-- Passes over type parameters or arguments. -/
def skipAngles : Parser Unit := do anglesFrom (← get).bound 0

/-! ### Statements -/

/-- Words that begin a statement; on a line of their own they end the one before. -/
def statementWords : List String :=
  ["import", "export", "const", "let", "var", "function", "type", "interface", "class", "enum",
    "declare", "async", "abstract", "namespace", "module"]

def beginsStatement (token : Token) : Bool :=
  token.newline && match token.kind with
    | .word name => statementWords.contains name
    | _ => false

def statementFrom : Nat → Nat → Bool → Parser Unit
  | 0, _, _ => fail .exhausted
  | rounds + 1, depth, first => do
    let c ← get
    if c.isEnd then return
    if depth = 0 ∧ c.atPunct .semicolon then
      discard advance
      return
    if depth = 0 ∧ !first ∧ beginsStatement c.current then return
    discard advance
    statementFrom rounds (depthAfter depth c.kind) false

/-- Passes over a statement that declares nothing of interest. -/
def skipStatement : Parser Unit := do statementFrom (← get).bound 0 true

/-! ### Types -/

def typePrefixes : List String :=
  ["typeof", "keyof", "readonly", "unique", "infer", "asserts", "new"]

def skipWords (words : List String) : Nat → Parser Unit
  | 0 => fail .exhausted
  | rounds + 1 => do
    if (← get).atAnyWord words then
      discard advance
      skipWords words rounds

/-- The rest of a dotted name. -/
def dottedFrom : Nat → Parser Unit
  | 0 => fail .exhausted
  | rounds + 1 => do
    if ← eat .dot then
      discard advance
      dottedFrom rounds

def bracketsFrom : Nat → Parser Unit
  | 0 => fail .exhausted
  | rounds + 1 => do
    if (← get).atPunct .openBracket then
      skipBalanced
      bracketsFrom rounds

/-- One operand of a union or intersection; `type` passes over a whole type. -/
def typeAtom (type : Parser Unit) : Parser Unit := do
  skipWords typePrefixes (← get).bound
  match (← get).kind with
  | .punct .openParen =>
    skipBalanced
    if ← eat .arrow then type
  | .punct .less =>
    skipAngles
    skipBalanced
    expect .arrow
    type
  | .punct .openBrace | .punct .openBracket => skipBalanced
  | .punct .minus =>
    discard advance
    discard advance
  | .word _ | .string _ | .number _ | .template =>
    discard advance
    dottedFrom (← get).bound
    if (← get).atPunct .less then skipAngles
  | found => fail (.expectedType found)

/-- A bar or ampersand may lead the operands of a type. -/
def typeLead : Parser Unit := do
  discard (eat .bar)
  discard (eat .ampersand)

/-- The operands of a type; each round takes at least one token. -/
def typeFrom : Nat → Parser Unit
  | 0 => fail .exhausted
  | rounds + 1 => do
    let type : Parser Unit := do typeLead; typeFrom rounds
    typeAtom type
    bracketsFrom (← get).bound
    if ← eatWord "extends" then
      typeAtom type
      expect .question
      type
      expect .colon
      type
    else if ← eat .bar then typeFrom rounds
    else if ← eat .ampersand then typeFrom rounds

def skipType : Parser Unit := do
  let rounds := (← get).bound
  typeLead
  typeFrom rounds

/-- The type that a function returns, which may be a predicate on a parameter. -/
def skipReturnType : Parser Unit := do
  skipType
  if ← eatWord "is" then skipType

end CodecDocs.Script.Parser
