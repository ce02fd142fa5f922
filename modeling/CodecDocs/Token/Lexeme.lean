import CodecDocs.Number.Reading
import CodecDocs.Text.Alphabetic
import CodecDocs.Text.Numeric
import CodecDocs.Token.Basic

/-! Single lexemes at the front of a text: words, numbers, quoted texts, templates, regular
expressions and punctuation marks. Each scanner tells how many characters the lexeme takes, or what
is wrong with it and after how many characters that shows. -/

namespace CodecDocs.Token

/-- What stands at the front of a text and how many characters it takes, or what is wrong with it
and after how many characters. -/
abbrev Scan (α : Type) := Except (LexComplaint × Nat) (α × Nat)

/-! ### Words -/

def startsWord (c : Char) : Bool := Text.isAlphabetic c || c == '_' || c == '$'

def continuesWord (c : Char) : Bool :=
  Text.isAlphabetic c || Text.isNumeric c || c == '_' || c == '$'

/-! ### Numbers -/

def radix? : Char → Option Nat
  | 'x' | 'X' => some 16
  | 'b' | 'B' => some 2
  | 'o' | 'O' => some 8
  | _ => none

/-- One for the suffix that marks a big integer. -/
def suffixLength : List Char → Nat
  | 'n' :: _ => 1
  | _ => 0

/-- The digits after a radix mark, with underscores between them. -/
def radixNumber (radix : Nat) (text : List Char) : Scan Binary64 :=
  let body := text.takeWhile fun c => (Numeral.digit? radix c).isSome || c == '_'
  let used := 2 + body.length + suffixLength (text.drop body.length)
  match Numeral.digits? radix (body.filter (· ≠ '_')) with
  | some n =>
    if n < twoTo 64 then .ok (Binary64.ofNat n, used) else .error (.invalidRadixNumber, used)
  | none => .error (.invalidRadixNumber, used)

/-- Puts a character in front of those that are kept and counts it. -/
def keep (c : Char) : List Char × Nat → List Char × Nat
  | (kept, length) => (c :: kept, length + 1)

/-- The characters of a decimal number without underscores, and how many there are with them. A
point that a word follows belongs to a member access. -/
def decimalSpan : Bool → Bool → List Char → List Char × Nat
  | _, _, [] => ([], 0)
  | point, exponent, c :: text =>
    if Numeral.isDigit c then keep c (decimalSpan point exponent text)
    else if c = '.' ∧ !point ∧ !exponent ∧ !(text.head?.any startsWord) then
      keep c (decimalSpan true exponent text)
    else if (c = 'e' ∨ c = 'E') ∧ !exponent then
      match text with
      | [] => ([c], 1)
      | sign :: rest =>
        if sign = '+' ∨ sign = '-' then keep c (keep sign (decimalSpan point true rest))
        else keep c (decimalSpan point true (sign :: rest))
    else if c = '_' then
      let (kept, length) := decimalSpan point exponent text
      (kept, length + 1)
    else ([], 0)

def number (text : List Char) : Scan Binary64 :=
  let radix := match text with
    | '0' :: mark :: _ => radix? mark
    | _ => none
  match radix with
  | some radix => radixNumber radix (text.drop 2)
  | none =>
    let (kept, length) := decimalSpan false false text
    let used := length + suffixLength (text.drop length)
    match Numeral.unsigned? false kept with
    | some x => .ok (x, used)
    | none => .error (.invalidNumber (String.ofList (text.take used)), used)

/-! ### Quoted texts and templates -/

/-- The character that a code point stands for, or the replacement character. -/
def charOfCode (n : Nat) : Char := if n.isValidChar then Char.ofNat n else '\uFFFD'

/-- A code point in hexadecimal digits that take `used` characters with what leads to them. -/
def codeEscape (complaint : LexComplaint) (digits : List Char) (used : Nat) : Scan (List Char) :=
  match Numeral.natural? 16 (twoTo 32) digits with
  | some n => .ok ([charOfCode n], used)
  | none => .error (complaint, used)

/-- What the text after a backslash stands for. -/
def escape : List Char → Scan (List Char)
  | [] => .error (.unterminatedEscape, 0)
  | 'n' :: _ => .ok (['\n'], 1)
  | 't' :: _ => .ok (['\t'], 1)
  | 'r' :: _ => .ok (['\r'], 1)
  | 'b' :: _ => .ok (['\x08'], 1)
  | 'f' :: _ => .ok (['\x0c'], 1)
  | 'v' :: _ => .ok (['\x0b'], 1)
  | '0' :: _ => .ok (['\x00'], 1)
  | '\n' :: _ => .ok ([], 1)
  | 'x' :: text =>
    let digits := text.take 2
    codeEscape .invalidHexEscape digits (1 + digits.length)
  | 'u' :: '\x7b' :: text =>
    let digits := text.takeWhile (· ≠ '\x7d')
    codeEscape .invalidUnicodeEscape digits
      (2 + digits.length + if digits.length < text.length then 1 else 0)
  | 'u' :: text =>
    let digits := text.take 4
    codeEscape .invalidUnicodeEscape digits (1 + digits.length)
  | c :: _ => .ok ([c], 1)

/-- What is still open at some place inside a quoted text. -/
inductive Frame where
  | quote (mark : Char)
  | template
  /-- A substitution with this many open braces. -/
  | substitution (depth : Nat)
  deriving DecidableEq

namespace Frame

def unterminated : Frame → LexComplaint
  | .quote _ => .unterminatedString
  | .template => .unterminatedTemplate
  | .substitution _ => .unterminatedSubstitution

/-- What one character does: the frames after it, the text it adds, how many further characters it
takes, and whether the text stays free of substitutions. -/
structure Turn where
  frames : List Frame
  added : List Char
  skip : Nat
  plain : Bool

def escaped (frames : List Frame) (text : List Char) : Except (LexComplaint × Nat) Turn :=
  match escape text with
  | .ok (added, skip) => .ok ⟨frames, added, skip, true⟩
  | .error failure => .error failure

/-- The turn of the character `c` inside this frame, with `text` after it. -/
def turn (frame : Frame) (outer : List Frame) (c : Char) (text : List Char) :
    Except (LexComplaint × Nat) Turn :=
  match frame with
  | .quote mark =>
    if c = '\n' then .error (.unterminatedString, 0)
    else if c = mark then .ok ⟨outer, [], 0, true⟩
    else if c = '\\' then escaped (frame :: outer) text
    else .ok ⟨frame :: outer, [c], 0, true⟩
  | .template =>
    if c = '\x60' then .ok ⟨outer, [], 0, true⟩
    else if c = '\\' then escaped (frame :: outer) text
    else if c = '$' ∧ text.head? = some '\x7b' then
      .ok ⟨.substitution 1 :: frame :: outer, [], 1, false⟩
    else .ok ⟨frame :: outer, [c], 0, true⟩
  | .substitution depth =>
    if c = '\x7b' then .ok ⟨.substitution (depth + 1) :: outer, [], 0, true⟩
    else if c = '\x7d' then
      .ok ⟨if depth ≤ 1 then outer else .substitution (depth - 1) :: outer, [], 0, true⟩
    else if c = '"' ∨ c = '\x27' then .ok ⟨.quote c :: frame :: outer, [], 0, true⟩
    else if c = '\x60' then .ok ⟨.template :: frame :: outer, [], 0, true⟩
    else .ok ⟨frame :: outer, [], 0, true⟩

end Frame

/-- Follows a quoted text until its frames are closed. The text read so far is kept backwards;
`skip` characters have been taken already. -/
def quotedFrom : List Frame → List Char → Bool → Nat → Nat → List Char → Scan (List Char × Bool)
  | [], read, plain, _, used, _ => .ok ((read.reverse, plain), used)
  | frame :: _, _, _, _, used, [] => .error (frame.unterminated, used)
  | frames, read, plain, skip + 1, used, _ :: text =>
    quotedFrom frames read plain skip (used + 1) text
  | frame :: outer, read, plain, 0, used, c :: text =>
    match frame.turn outer c text with
    | .ok turn =>
      quotedFrom turn.frames (turn.added.reverse ++ read) (plain && turn.plain) turn.skip (used + 1)
        text
    | .error (complaint, more) => .error (complaint, used + 1 + more)

/-- A quoted text or template whose opening mark stands right before the text. -/
def quoted (frame : Frame) (text : List Char) : Scan Kind :=
  match quotedFrom [frame] [] true 0 1 text with
  | .ok ((read, plain), used) => .ok (if plain then .string (String.ofList read) else .template, used)
  | .error failure => .error failure

/-! ### Regular expressions -/

/-- The length of a regular expression up to its closing slash; a slash inside brackets does not
close it. -/
def regexFrom : Bool → Nat → Nat → List Char → Except (LexComplaint × Nat) Nat
  | _, _, used, [] => .error (.unterminatedRegex, used)
  | bracket, skip + 1, used, _ :: text => regexFrom bracket skip (used + 1) text
  | bracket, 0, used, c :: text =>
    if c = '\n' then .error (.unterminatedRegex, used + 1)
    else if c = '\\' then regexFrom bracket 1 (used + 1) text
    else if c = '[' then regexFrom true 0 (used + 1) text
    else if c = ']' then regexFrom false 0 (used + 1) text
    else if c = '/' ∧ !bracket then .ok (used + 1)
    else regexFrom bracket 0 (used + 1) text

/-- A regular expression with its flags; its opening slash stands at the front. -/
def regex (text : List Char) : Scan Kind :=
  match regexFrom false 0 1 (text.drop 1) with
  | .ok used => .ok (.regex, used + ((text.drop used).takeWhile Char.isAlpha).length)
  | .error failure => .error failure

/-- Words after which a slash begins a regular expression. -/
def regexWords : List String :=
  ["return", "typeof", "case", "do", "else", "in", "instanceof", "new", "delete", "void", "throw",
    "yield", "await"]

/-- Whether a slash after this token begins a regular expression. -/
def regexAllowed : Option Kind → Bool
  | none => true
  | some (.punct mark) => !mark.closes
  | some (.word name) => regexWords.contains name
  | some _ => false

/-! ### Any lexeme -/

/-- The lexeme at the front of a text, given the token before it. -/
def lexeme (previous : Option Kind) : List Char → Scan Kind
  | [] => .ok (.eof, 0)
  | c :: text =>
    if c = '"' ∨ c = '\x27' then quoted (.quote c) text
    else if c = '\x60' then quoted .template text
    else if Numeral.isDigit c ∨ (c = '.' ∧ text.head?.any Numeral.isDigit) then
      (number (c :: text)).map fun (x, used) => (.number x, used)
    else if startsWord c then
      let name := (c :: text).takeWhile continuesWord
      .ok (.word (String.ofList name), name.length)
    else if c = '/' ∧ regexAllowed previous then regex (c :: text)
    else match Punct.start? (c :: text) with
      | some mark => .ok (.punct mark, mark.text.length)
      | none => .error (.unexpectedCharacter c, 0)

end CodecDocs.Token
