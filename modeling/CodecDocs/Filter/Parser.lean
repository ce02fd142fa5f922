import CodecDocs.Filter.Basic
import CodecDocs.Text.Blank
import CodecDocs.Text.Numeric

/-! Reading of filters. A pipe binds looser than a comma, and a minus sign tighter; steps into a
value follow the term they apply to, and a question mark belongs to what stands right before it. -/

namespace CodecDocs.Filter

/-- Reads from the front of a text. -/
abbrev Parser := StateT (List Char) Option

namespace Parser

def blanks : Parser Unit := modify Text.trimStart

def skip : Parser Unit := modify (List.drop 1)

def peek : Parser (Option Char) := do return (← get).head?

def peekToken : Parser (Option Char) := do blanks; peek

/-- Whether the next character is the given one, which is then taken. -/
def accept (c : Char) : Parser Bool := do
  if (← peekToken) == some c then
    skip
    return true
  else return false

def expect (c : Char) : Parser Unit := do
  if !(← accept c) then failure

/-- Characters that run together into one operator. -/
def isOperatorChar (c : Char) : Bool := "|=!<>+-*/%".toList.contains c

/-- Whether the next operator is the given character alone, which is then taken. -/
def operator (c : Char) : Parser Bool := do
  blanks
  match ← get with
  | first :: rest =>
    if first = c && !rest.head?.any isOperatorChar then
      set rest
      return true
    else return false
  | [] => return false

def isWordStart (c : Char) : Bool := c.isAlpha || c == '_'

def isWordChar (c : Char) : Bool := c.isAlphanum || c == '_'

def takeWhile (p : Char → Bool) : Parser (List Char) := do
  let text ← get
  set (text.dropWhile p)
  return text.takeWhile p

def word : Parser String := return String.ofList (← takeWhile isWordChar)

/-! ### Literals -/

/-- The character after a backslash; one given by its code stands for itself. -/
def escape? : List Char → Option (Char × List Char)
  | 'u' :: rest => do
    let (n, rest) ← Json.Reader.hex4? rest
    if n.isValidChar then some (Char.ofNat n, rest) else none
  | text => Json.Reader.escape? text

/-- The characters up to the closing quote, those read so far given backwards. Each round takes at
least one character of the text, so its length bounds the rounds. -/
def stringBody : Nat → List Char → List Char → Option (String × List Char)
  | 0, _, _ => none
  | _ + 1, _, [] => none
  | rounds + 1, read, c :: rest =>
    if c = '"' then some (String.ofList read.reverse, rest)
    else if c = '\\' then
      match escape? rest with
      | some (d, rest) => stringBody rounds (d :: read) rest
      | none => none
    else stringBody rounds (c :: read) rest

/-- A string whose opening quote is the next character. -/
def string : Parser String := fun text => stringBody text.length [] (text.drop 1)

def digits : Parser (List Char) := do
  let ds ← takeWhile Text.isNumeric
  if ds.isEmpty then failure else return ds

/-- The digits after a mark, together with it and the sign that may stand between. -/
def afterMark (isMark : Char → Bool) (signed : Bool) : Parser (List Char) := do
  match ← get with
  | mark :: rest =>
    if isMark mark then
      let sign := if signed then (rest.take 1).filter fun c => c == '+' || c == '-' else []
      set (rest.drop sign.length)
      return mark :: sign ++ (← digits)
    else return []
  | [] => return []

def number : Parser Value := do
  let whole ← digits
  let fraction ← afterMark (· == '.') false
  let exponent ← afterMark (fun c => c == 'e' || c == 'E') true
  return Value.ofNumeral (String.ofList (whole ++ fraction ++ exponent))

/-! ### Steps -/

/-- Whether a question mark, or more of them, stands here. -/
def lenient : Parser Bool := do
  blanks
  return (← takeWhile fun c => c == '?' || Text.isBlank c).contains '?'

/-- Whether a name follows a point: a word right behind it, or a string. -/
def atName : Parser Bool := do
  if (← peek).any isWordStart then return true else return (← peekToken) == some '"'

/-- The name after a point. -/
def name : Parser Filter := do
  if !(← atName) then failure
  let text ← if (← peek) == some '"' then string else word
  return .literal (.string text)

/-- What stands in brackets, after the opening one. -/
def bracketed (inner : Parser Filter) : Parser (Option Filter) := do
  if ← accept ']' then return none
  let f ← inner
  expect ']'
  return some f

/-- The steps that stand here, up to a number of them. -/
def steps (inner : Parser Filter) : Nat → Parser Steps
  | 0 => return .done
  | rounds + 1 => do
    if ← accept '[' then
      let index ← bracketed inner
      let lenient ← lenient
      let rest ← steps inner rounds
      return match index with
        | some f => .entry f lenient rest
        | none => .each lenient rest
    else if ← accept '.' then
      return .entry (← name) (← lenient) (← steps inner rounds)
    else return .done

/-- As many steps as there are. -/
def allSteps (inner : Parser Filter) : Parser Steps := do steps inner (← get).length

/-- A term with what follows it. -/
def suffixed (inner : Parser Filter) (f : Filter) : Parser Filter := do
  let f := if ← lenient then .attempt f else f
  match ← allSteps inner with
  | .done => return f
  | steps => return .path f steps

/-- A term that begins with a point, after it. -/
def pointed (inner : Parser Filter) : Parser Filter := do
  if ← atName then
    return .path .identity (.entry (← name) (← lenient) (← allSteps inner))
  else suffixed inner .identity

/-! ### Filters -/

/-- The filter that a word names. -/
def named : String → Option Filter
  | "keys" => some .keys
  | "length" => some .length
  | "empty" => some .empty
  | "null" => some (.literal .null)
  | "true" => some (.literal (.bool true))
  | "false" => some (.literal (.bool false))
  | _ => none

mutual

def pipeline : Nat → Parser Filter
  | 0 => failure
  | depth + 1 => do
    let first ← alternatives depth
    if ← operator '|' then return .pipe first (← pipeline depth) else return first

def alternatives : Nat → Parser Filter
  | 0 => failure
  | depth + 1 => do
    let first ← term depth
    if ← accept ',' then return .both first (← alternatives depth) else return first

def term : Nat → Parser Filter
  | 0 => failure
  | depth + 1 => do
    if ← operator '-' then return .negate (← term depth)
    match ← peekToken with
    | some '.' => skip; pointed (pipeline depth)
    | some '(' =>
      skip
      let f ← pipeline depth
      expect ')'
      suffixed (pipeline depth) f
    | some '[' =>
      skip
      let f ← bracketed (pipeline depth)
      suffixed (pipeline depth) (.list (f.getD .empty))
    | some '"' => suffixed (pipeline depth) (.literal (.string (← string)))
    | some c =>
      if c.isDigit then suffixed (pipeline depth) (.literal (← number))
      else if isWordStart c then
        match named (← word) with
        | some f => suffixed (pipeline depth) f
        | none => failure
      else failure
    | none => failure

end

end Parser

/-- The filter that a text holds. No more calls nest than three for each character. -/
def parse? (text : String) : Option Filter :=
  match Parser.pipeline (3 * text.length + 3) text.toList with
  | some (f, rest) => if (Text.trimStart rest).isEmpty then some f else none
  | none => none

/-- What a filter's text makes of a value; `none` is a failure of any kind. -/
def applyText? (text : String) (input : Json) : Option (List Json) :=
  (parse? text).bind fun f => f.run input

end CodecDocs.Filter
