/-! Patterns for names. A star stands for any text, a question mark for any character and brackets
for one of some characters. Two stars stand for any number of directories, and nothing else may
share their piece of a path. -/

namespace CodecDocs

/-- One character, or all characters from one to another. -/
abbrev CharRange := Char × Char

inductive PatternToken where
  | char (c : Char)
  | anyChar
  | anyText
  | anyDirectories
  | oneOf (ranges : List CharRange)
  | noneOf (ranges : List CharRange)
  deriving DecidableEq

abbrev Pattern := List PatternToken

inductive PatternFlaw where
  | wildcards | recursiveWildcards | range
  deriving DecidableEq

structure PatternError where
  /-- The number of characters before the flaw. -/
  position : Nat
  flaw : PatternFlaw
  deriving DecidableEq

def PatternFlaw.message : PatternFlaw → String
  | .wildcards => "wildcards are either regular `*` or recursive `**`"
  | .recursiveWildcards => "recursive wildcards must form a single path component"
  | .range => "invalid range pattern"

def PatternError.message (e : PatternError) : String :=
  "Pattern syntax error near position " ++ toString e.position ++ ": " ++ e.flaw.message

namespace Pattern

/-! ### Reading -/

/-- The ranges between brackets; a hyphen at either end stands for itself. -/
def ranges : List Char → List CharRange
  | first :: '-' :: last :: rest => (first, last) :: ranges rest
  | c :: rest => (c, c) :: ranges rest
  | [] => []

/-- The characters before the closing bracket, of which there is at least one, and the text after
it. -/
def bracketed? : List Char → Option (List Char × List Char)
  | [] => none
  | first :: rest =>
    match rest.dropWhile (· ≠ ']') with
    | [] => none
    | _ :: after => some (first :: rest.takeWhile (· ≠ ']'), after)

/-- The token of the brackets that a text begins with, and the text after them. -/
def brackets? : List Char → Option (PatternToken × List Char)
  | '!' :: rest => (bracketed? rest).map fun ⟨cs, after⟩ => (.noneOf (ranges cs), after)
  | text => (bracketed? text).map fun ⟨cs, after⟩ => (.oneOf (ranges cs), after)

/-- Whether two stars may stand between these characters, and what then follows them. -/
def afterRecursive (position : Nat) (before : Option Char) (rest : List Char) :
    Except PatternError (List Char) :=
  if before = none ∨ before = some '/' then
    match rest with
    | [] => .ok []
    | '/' :: rest => .ok rest
    | _ => .error ⟨position + 2, .recursiveWildcards⟩
  else .error ⟨position - 1, .recursiveWildcards⟩

/-- The tokens of a text at a position; each round takes at least one character. -/
def readFrom : Nat → Nat → Option Char → List Char → Except PatternError Pattern
  | 0, _, _, _ => .ok []
  | _ + 1, _, _, [] => .ok []
  | rounds + 1, position, before, c :: rest =>
    if c = '?' then return .anyChar :: (← readFrom rounds (position + 1) (some c) rest)
    else if c = '*' then
      match rest with
      | '*' :: '*' :: _ => .error ⟨position + 2, .wildcards⟩
      | '*' :: rest => do
        let after ← afterRecursive position before rest
        let skipped := 2 + (rest.length - after.length)
        return .anyDirectories :: (← readFrom rounds (position + skipped) (some '/') after)
      | _ => return .anyText :: (← readFrom rounds (position + 1) (some c) rest)
    else if c = '[' then
      match brackets? rest with
      | none => .error ⟨position, .range⟩
      | some (token, after) =>
        let skipped := 1 + (rest.length - after.length)
        return token :: (← readFrom rounds (position + skipped) (some ']') after)
    else return .char c :: (← readFrom rounds (position + 1) (some c) rest)

def read (text : List Char) : Except PatternError Pattern :=
  readFrom (text.length + 1) 0 none text

/-! ### Matching -/

/-- The name that is the only one to match, if there is one. -/
def name? : Pattern → Option (List Char)
  | [] => some []
  | .char c :: rest => (name? rest).map (c :: ·)
  | _ => none

def isRecursive (p : Pattern) : Bool := p.contains .anyDirectories

/-- A text and what is left of it after its first characters. -/
def endings : List Char → List (List Char)
  | [] => [[]]
  | c :: text => (c :: text) :: endings text

def inRanges (ranges : List CharRange) (c : Char) : Bool :=
  ranges.any fun ⟨first, last⟩ => first ≤ c && c ≤ last

/-- Whether a name matches. -/
def accepts : Pattern → List Char → Bool
  | [], name => name.isEmpty
  | .char d :: rest, c :: name => c == d && accepts rest name
  | .anyChar :: rest, _ :: name => accepts rest name
  | .oneOf ranges :: rest, c :: name => inRanges ranges c && accepts rest name
  | .noneOf ranges :: rest, c :: name => !inRanges ranges c && accepts rest name
  | .anyText :: rest, name | .anyDirectories :: rest, name => (endings name).any (accepts rest)
  | _, [] => false

end Pattern

end CodecDocs
