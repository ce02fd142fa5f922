import CodecDocs.Script.ExprParser
import CodecDocs.Token.Lexer

/-! Parsing of whole modules, statement by statement. -/

namespace CodecDocs.Script

namespace Parser

/-! ### Imports -/

/-- Whether a name in a list is only a type. -/
def atTypeName (c : Cursor) : Bool :=
  c.atWord "type" && isWordKind c.nextKind && c.nextKind != .word "as"

/-- Passes over a type in a list of names; `rename` reads the name after `as`. -/
def typeName (rename : Parser String) : Parser Unit := do
  discard advance
  discard advance
  if ← eatWord "as" then discard rename

/-- A name and the name it goes by on the other side. -/
def renamed (rename : Parser String) : Parser (String × String) := do
  let name ← exportName
  if ← eatWord "as" then return (name, ← rename) else return (name, name)

/-- Names up to the closing brace, types left out. -/
def namesFrom (rename : Parser String) : Nat → List (String × String) →
    Parser (List (String × String))
  | 0, _ => fail .exhausted
  | rounds + 1, read => do
    let c ← get
    if c.atPunct .closeBrace then return read.reverse
    let read ← if atTypeName c then do typeName rename; pure read
      else do let pair ← renamed rename; pure (pair :: read)
    if ← eat .comma then namesFrom rename rounds read else return read.reverse

def names (rename : Parser String) : Parser (List (String × String)) := do
  let read ← namesFrom rename (← get).bound []
  expect .closeBrace
  return read

def defaultBinding : Parser (List Binding) := do
  let c ← get
  if isWordKind c.kind && !c.atWord "from" then
    let name ← identifier
    discard (eat .comma)
    return [.default name]
  else return []

def otherBindings : Parser (List Binding) := do
  if ← eat .star then
    expectWord "as"
    return [.star (← identifier)]
  else if ← eat .openBrace then
    return (← names identifier).map fun (imported, name) => .named imported name
  else return []

def importItem : Parser (List Item) := do
  expectWord "import"
  let c ← get
  match c.kind with
  | .string source =>
    discard advance
    discard (eat .semicolon)
    return [.imports source []]
  | _ =>
    if c.atWord "type" && c.nextKind != .punct .comma && c.nextKind != .word "from" then
      skipStatement
      return []
    let first ← defaultBinding
    let others ← otherBindings
    expectWord "from"
    let source ← stringLiteral
    if (← get).atAnyWord ["assert", "with"] then
      discard advance
      skipBalanced
    discard (eat .semicolon)
    return [.imports source (first ++ others)]

/-! ### Declarations -/

def declarationsFrom (exported : Bool) (doc : Option String) : Nat → List Item → Parser (List Item)
  | 0, _ => fail .exhausted
  | rounds + 1, read => do
    let c ← get
    if c.atPunct .openBrace || c.atPunct .openBracket then
      skipStatement
      return read.reverse
    let start ← here
    let name ← identifier
    discard (eat .bang)
    if ← eat .colon then skipType
    let init ← if ← eat .assign then some <$> expr else pure none
    let read := .declares ⟨name, init, exported, doc, ← spanFrom start⟩ :: read
    if ← eat .comma then declarationsFrom exported doc rounds read
    else
      discard (eat .semicolon)
      return read.reverse

/-- Variables, their keyword being the current token. -/
def declarations (exported : Bool) (doc : Option String) : Parser (List Item) := do
  discard advance
  declarationsFrom exported doc (← get).bound []

def functionItem (exported : Bool) (doc : Option String) : Parser (List Item) := do
  let start ← here
  expectWord "function"
  discard (eat .star)
  let name ← identifier
  let (params, body) ← functionRest expr
  let span ← spanFrom start
  return [.declares ⟨name, some (.function params body span), exported, doc, span⟩]

/-! ### Exports -/

def defaultExport (start : Span) (doc : Option String) : Parser (List Item) := do
  let c ← get
  if c.atWord "async" && c.nextKind == .word "function" then discard advance
  let c ← get
  if c.atWord "function" then
    let init ← functionExpr expr
    return [.declares ⟨"default", some init, true, doc, init.span⟩]
  if c.atWord "class" || c.atWord "interface" then
    skipStatement
    return []
  let init ← expr
  discard (eat .semicolon)
  return [.declares ⟨"default", some init, true, doc, ← spanFrom start⟩]

def exportItem (doc : Option String) : Parser (List Item) := do
  expectWord "export"
  let start ← here
  if ← eatWord "default" then return ← defaultExport start doc
  let c ← get
  if c.atAnyWord ["const", "let", "var"] then return ← declarations true doc
  if c.atWord "async" && c.nextKind == .word "function" then discard advance
  if (← get).atWord "function" then return ← functionItem true doc
  if ← eat .openBrace then
    let read ← names exportName
    let source ← if ← eatWord "from" then some <$> stringLiteral else pure none
    discard (eat .semicolon)
    return [.exports read source]
  if ← eat .star then
    let name ← if ← eatWord "as" then some <$> exportName else pure none
    expectWord "from"
    let source ← stringLiteral
    discard (eat .semicolon)
    return [.exportsAll source name]
  skipStatement
  return []

/-! ### Modules -/

/-- The items of one statement. -/
def statement : Parser (List Item) := do
  let c ← get
  let doc := c.current.doc
  if ← eat .semicolon then return []
  match c.kind with
  | .word "import" =>
    if c.nextKind != .punct .openParen && c.nextKind != .punct .dot then importItem
    else do skipStatement; return []
  | .word "export" => exportItem doc
  | .word "const" | .word "let" | .word "var" => declarations false doc
  | .word "function" => functionItem false doc
  | .word name =>
    if name = "async" ∧ c.nextKind = .word "function" then
      discard advance
      functionItem false doc
    else do skipStatement; return []
  | _ => skipStatement; return []

def statementsFrom : Nat → List Item → Parser (List Item)
  | 0, _ => fail .exhausted
  | rounds + 1, read => do
    if (← get).isEnd then return read
    let items ← statement
    statementsFrom rounds (read ++ items)

def statements : Parser (List Item) := do statementsFrom (← get).bound []

end Parser

/-- What keeps a source text from being read. -/
inductive SourceError where
  | lex (e : LexError)
  | parse (e : ParseError)
  deriving DecidableEq

def SourceError.message : SourceError → String
  | .lex e => e.message
  | .parse e => e.message

/-- The items of a list of tokens. -/
def parseTokens (tokens : List Token) : Except ParseError (List Item) :=
  (Parser.statements.run' (Cursor.ofTokens tokens))

/-- The expression that a list of tokens begins with. -/
def parseExpr (tokens : List Token) : Except ParseError Expr :=
  (Parser.expr.run' (Cursor.ofTokens tokens))

/-- The items of a source text. -/
def parse (source : String) : Except SourceError (List Item) :=
  match Token.lex source with
  | .error e => .error (.lex e)
  | .ok tokens => (parseTokens tokens).mapError .parse

/-- The expression that a source text begins with. -/
def parseExprText (source : String) : Except SourceError Expr :=
  match Token.lex source with
  | .error e => .error (.lex e)
  | .ok tokens => (parseExpr tokens).mapError .parse

end CodecDocs.Script
