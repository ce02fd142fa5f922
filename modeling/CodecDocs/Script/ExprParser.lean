import CodecDocs.Script.Lookahead
import CodecDocs.Script.Skipping

/-! Parsing of expressions. Each production takes the parser for the expressions inside it, and
`exprTo` ties them together: an inner expression begins at least one token further on, so the
number of tokens bounds the nesting. -/

namespace CodecDocs.Script.Parser

/-! ### Functions -/

def paramWords : List String := ["public", "private", "protected", "readonly"]

/-- Passes over words that qualify the parameter after them. -/
def skipModifiers : Nat → Parser Unit
  | 0 => fail .exhausted
  | rounds + 1 => do
    let c ← get
    if c.atAnyWord paramWords && isWordKind c.nextKind then
      discard advance
      skipModifiers rounds

/-- One parameter; a pattern binds nothing that can be named. -/
def param (expr : Parser Expr) : Parser String := do
  discard (eat .ellipsis)
  skipModifiers (← get).bound
  let c ← get
  let name ← if c.atPunct .openBrace || c.atPunct .openBracket then
      skipBalanced
      pure "_"
    else identifier
  discard (eat .question)
  if ← eat .colon then skipType
  if ← eat .assign then discard expr
  return name

def paramsFrom (expr : Parser Expr) : Nat → List String → Parser (List String)
  | 0, _ => fail .exhausted
  | rounds + 1, read => do
    if (← get).atPunct .closeParen then return read.reverse
    let name ← param expr
    if ← eat .comma then paramsFrom expr rounds (name :: read)
    else return (name :: read).reverse

/-- Parameters after the opening parenthesis, with the closing one. -/
def params (expr : Parser Expr) : Parser (List String) := do
  let names ← paramsFrom expr (← get).bound []
  expect .closeParen
  return names

/-- The expression of a block that does nothing but return it. -/
def onlyReturn (expr : Parser Expr) : Parser (Option Expr) := do
  expect .openBrace
  if !(← eatWord "return") then return none
  let c ← get
  if c.atPunct .semicolon || c.atPunct .closeBrace then return none
  let some value ← attempt expr | return none
  discard (eat .semicolon)
  if ← eat .closeBrace then return some value else return none

/-- A block; one that is not a single return is passed over. -/
def functionBlock (expr : Parser Expr) : Parser Body := do
  let start ← get
  match ← onlyReturn expr with
  | some value => return .returning value
  | none =>
    set start
    skipBalanced
    return .block

/-- A function from its type parameters on. A signature without a body counts as a block. -/
def functionRest (expr : Parser Expr) : Parser (List String × Body) := do
  if (← get).atPunct .less then skipAngles
  expect .openParen
  let names ← params expr
  if ← eat .colon then skipReturnType
  if (← get).atPunct .openBrace then return (names, ← functionBlock expr)
  discard (eat .semicolon)
  return (names, .block)

def functionExpr (expr : Parser Expr) : Parser Expr := do
  let start ← here
  expectWord "function"
  discard (eat .star)
  if isWordKind (← get).kind then discard advance
  let (names, body) ← functionRest expr
  return .function names body (← spanFrom start)

def arrow (expr : Parser Expr) : Parser Expr := do
  let start ← here
  discard (eatWord "async")
  let names ← match (← get).kind with
    | .word name => do discard advance; pure [name]
    | _ => do expect .openParen; params expr
  if ← eat .colon then skipReturnType
  expect .arrow
  let body ← if (← get).atPunct .openBrace then functionBlock expr
    else Body.expression <$> expr
  return .function names body (← spanFrom start)

/-! ### Lists -/

/-- An element of an array or argument list. -/
def element (expr : Parser Expr) : Parser Expr := do
  let start ← here
  if ← eat .ellipsis then
    let arg ← expr
    return .spread arg (← spanFrom start)
  else expr

def argsFrom (expr : Parser Expr) : Nat → List Expr → Parser (List Expr)
  | 0, _ => fail .exhausted
  | rounds + 1, read => do
    if (← get).atPunct .closeParen then return read.reverse
    let arg ← element expr
    if ← eat .comma then argsFrom expr rounds (arg :: read) else return (arg :: read).reverse

def args (expr : Parser Expr) : Parser (List Expr) := do
  expect .openParen
  let read ← argsFrom expr (← get).bound []
  expect .closeParen
  return read

/-- Elements of an array, holes left out. -/
def elementsFrom (expr : Parser Expr) : Nat → List Expr → Parser (List Expr)
  | 0, _ => fail .exhausted
  | rounds + 1, read => do
    if (← get).atPunct .closeBracket then return read.reverse
    if ← eat .comma then elementsFrom expr rounds read
    else
      let item ← element expr
      if ← eat .comma then elementsFrom expr rounds (item :: read)
      else return (item :: read).reverse

def array (expr : Parser Expr) : Parser Expr := do
  let start ← here
  expect .openBracket
  let elements ← elementsFrom expr (← get).bound []
  expect .closeBracket
  return .array elements (← spanFrom start)

/-! ### Objects -/

def accessorWords : List String := ["get", "set", "async"]

/-- Whether the current word only qualifies the method after it. -/
def atModifier (c : Cursor) : Bool :=
  c.atAnyWord accessorWords && match c.nextKind with
    | .punct .colon | .punct .comma | .punct .closeBrace | .punct .openParen | .punct .assign => false
    | _ => true

def key (expr : Parser Expr) : Parser Key := do
  match (← get).kind with
  | .word name => discard advance; return .name name
  | .string value => discard advance; return .string value
  | .number value => discard advance; return .number value
  | .punct .openBracket =>
    discard advance
    let computed ← expr
    expect .closeBracket
    return .computed computed
  | found => fail (.expectedKey found)

def property (expr : Parser Expr) : Parser Property := do
  let doc := (← get).current.doc
  let start ← here
  if ← eat .ellipsis then
    let arg ← expr
    return .spread arg doc (← spanFrom start)
  let modifier := atModifier (← get)
  if modifier then discard advance
  discard (eat .star)
  let key ← key expr
  if ← eat .colon then
    let value ← expr
    return .keyed key value doc (← spanFrom start)
  let c ← get
  if modifier || c.atPunct .openParen || c.atPunct .less || c.atPunct .question then
    discard (eat .question)
    discard (functionRest expr)
    return .method (key.name?.getD "") doc (← spanFrom start)
  match key with
  | .name name =>
    if ← eat .assign then discard expr
    return .shorthand name doc (← spanFrom start)
  | _ => fail .expectedColon

def propertiesFrom (expr : Parser Expr) : Nat → List Property → Parser (List Property)
  | 0, _ => fail .exhausted
  | rounds + 1, read => do
    if (← get).atPunct .closeBrace then return read.reverse
    let entry ← property expr
    if ← eat .comma then propertiesFrom expr rounds (entry :: read)
    else return (entry :: read).reverse

def object (expr : Parser Expr) : Parser Expr := do
  let start ← here
  expect .openBrace
  let properties ← propertiesFrom expr (← get).bound []
  expect .closeBrace
  return .object properties (← spanFrom start)

/-! ### Operands -/

def primary (expr : Parser Expr) : Parser Expr := do
  let c ← get
  let span := c.current.span
  match c.kind with
  | .string value => discard advance; return .string value span
  | .template => discard advance; return .template span
  | .number value => discard advance; return .number value span
  | .regex => discard advance; return .regex span
  | .word "true" => discard advance; return .bool true span
  | .word "false" => discard advance; return .bool false span
  | .word "null" => discard advance; return .null span
  | .word "function" => functionExpr expr
  | .word "class" => fail .classExpression
  | .word name =>
    if name = "async" ∧ c.nextKind = .word "function" then
      discard advance
      functionExpr expr
    else
      discard advance
      return .ident name span
  | .punct .openParen =>
    discard advance
    let inner ← expr
    expect .closeParen
    return inner
  | .punct .openBracket => array expr
  | .punct .openBrace => object expr
  | found => fail (.unexpectedToken found)

/-- Members of the callee of a `new` expression. -/
def membersFrom (start : Span) : Nat → Expr → Parser Expr
  | 0, _ => fail .exhausted
  | rounds + 1, callee => do
    if ← eat .dot then
      let property ← identifier
      membersFrom start rounds (.member callee property (← spanFrom start))
    else return callee

def construct (expr : Parser Expr) : Parser Expr := do
  let start ← here
  expectWord "new"
  let callee ← membersFrom start (← get).bound (← primary expr)
  if (← get).atPunct .less then skipAngles
  let read ← if (← get).atPunct .openParen then args expr else pure []
  return .construct callee read (← spanFrom start)

/-- Type arguments count only when a call follows them. -/
def typeArguments : Parser Bool := do
  let start ← get
  match ← attempt skipAngles with
  | some () =>
    if (← get).atPunct .openParen then return true
    set start
    return false
  | none => return false

/-- Members, indices, calls and type arguments after an operand. -/
def suffixesFrom (expr : Parser Expr) (start : Span) : Nat → Expr → Parser Expr
  | 0, _ => fail .exhausted
  | rounds + 1, operand => do
    let c ← get
    match c.kind with
    | .punct .dot | .punct .optionalDot =>
      discard advance
      let c ← get
      if c.atPunct .openParen then
        let read ← args expr
        suffixesFrom expr start rounds (.call operand read (← spanFrom start))
      else if c.atPunct .openBracket then suffixesFrom expr start rounds operand
      else
        discard (eat .hash)
        let property ← identifier
        suffixesFrom expr start rounds (.member operand property (← spanFrom start))
    | .punct .openBracket =>
      discard advance
      let index ← expr
      expect .closeBracket
      let span ← spanFrom start
      suffixesFrom expr start rounds (match index with
        | .string property _ => .member operand property span
        | _ => .index operand index span)
    | .punct .openParen =>
      let read ← args expr
      suffixesFrom expr start rounds (.call operand read (← spanFrom start))
    | .punct .less =>
      if ← typeArguments then suffixesFrom expr start rounds operand else return operand
    | .punct .bang =>
      if c.current.newline then return operand
      discard advance
      suffixesFrom expr start rounds operand
    | _ => return operand

/-- An operand with its suffixes. -/
def suffixed (expr : Parser Expr) : Parser Expr := do
  let start ← here
  let operand ← if (← get).atWord "new" then construct expr else primary expr
  suffixesFrom expr start (← get).bound operand

/-! ### Operators -/

def unaryOp? : Token.Kind → Option UnaryOp
  | .punct .minus => some .minus
  | .punct .plus => some .plus
  | .punct .bang => some .not
  | .punct .tilde => some .complement
  | .punct .increment => some .increment
  | .punct .decrement => some .decrement
  | .word "typeof" => some .typeOf
  | .word "void" => some .void
  | .word "delete" => some .delete
  | .word "await" => some .await
  | _ => none

/-- An operator before its operand; a sign before a number becomes part of it. -/
def applyUnary (op : UnaryOp) (arg : Expr) (span : Span) : Expr :=
  match op, arg with
  | .minus, .number x _ => .number x.neg span
  | .plus, .number x _ => .number x span
  | _, _ => .unary op arg span

def unaryFrom (expr : Parser Expr) : Nat → Parser Expr
  | 0 => fail .exhausted
  | rounds + 1 => do
    match unaryOp? (← get).kind with
    | none => suffixed expr
    | some op =>
      let start ← here
      discard advance
      let arg ← unaryFrom expr rounds
      return applyUnary op arg (← spanFrom start)

def unary (expr : Parser Expr) : Parser Expr := do unaryFrom expr (← get).bound

/-- Extends the operand `left`, which begins at `start`, by operators that bind at least as tightly
as `least`. A type assertion leaves the value as it is. -/
def climb (operand : Parser Expr) : Nat → Span → Nat → Expr → Parser Expr
  | 0, _, _, _ => fail .exhausted
  | rounds + 1, start, least, left => do
    let c ← get
    if c.atWord "as" || c.atWord "satisfies" then
      discard advance
      if !(← eatWord "const") then skipType
      climb operand rounds start least left
    else
      match (BinaryOp.ofKind? c.kind).bind fun op => op.precedence?.map (op, ·) with
      | none => return left
      | some (op, level) =>
        if level < least then return left
        discard advance
        let inner ← here
        let right ← climb operand rounds inner (level + 1) (← operand)
        climb operand rounds start least (.binary op left right (← spanFrom start))

/-- Operands joined by binary operators of at least the given level. -/
def binary (expr : Parser Expr) (least : Nat) : Parser Expr := do
  let rounds := (← get).bound
  let start ← here
  climb (unary expr) rounds start least (← unary expr)

def conditional (expr : Parser Expr) : Parser Expr := do
  let start ← here
  let test ← binary expr 1
  if ← eat .question then
    let yes ← expr
    expect .colon
    let no ← expr
    return .conditional test yes no (← spanFrom start)
  else return test

/-- An arrow function, an assignment or a conditional expression. -/
def exprWith (expr : Parser Expr) : Parser Expr := do
  if arrowAhead (← get).tokens then arrow expr
  else
    let start ← here
    let left ← conditional expr
    match (← get).kind with
    | .punct mark =>
      if mark.assigns then
        discard advance
        let right ← expr
        return .binary (.mark mark) left right (← spanFrom start)
      else return left
    | _ => return left

/-- Expressions that nest at most so deep. -/
def exprTo : Nat → Parser Expr
  | 0 => fail .exhausted
  | depth + 1 => exprWith (exprTo depth)

/-- An expression. -/
def expr : Parser Expr := do exprTo (← get).bound

end CodecDocs.Script.Parser
