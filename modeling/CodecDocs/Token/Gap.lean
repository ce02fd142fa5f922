import CodecDocs.Text.Blank
import CodecDocs.Text.Lines

/-! Gaps between tokens: white space, comments to the end of a line and block comments. A block that
begins with two stars documents the token after the gap. -/

namespace CodecDocs.Token

/-- A line of a documentation block without its indentation, its star and one blank after it. -/
def docLine (line : List Char) : List Char :=
  let line := Text.trim line
  let line := match line with
    | '*' :: rest => rest
    | _ => line
  Text.trimEnd (match line with
    | ' ' :: rest => rest
    | _ => line)

/-- The text of a documentation block between its delimiters. -/
def cleanDoc (body : List Char) : String :=
  String.ofList (Text.trim (Text.join ['\n'] ((Text.lines body).map docLine)))

namespace Gap

/-- Where in a gap a character stands; the body of a block is kept backwards. -/
inductive Mode where
  | between
  | line
  | block (body : List Char)

/-- The documentation after a block with this body, given backwards. -/
def docAfter (doc : Option String) (body : List Char) : Option String :=
  match body.reverse with
  | '*' :: rest => some (cleanDoc rest)
  | _ => doc

/-- Follows a gap to its end: its documentation and its number of characters. A block that does not
end fails with the number of characters that are left. -/
def scanFrom : Mode → Option String → Nat → Nat → List Char → Except Nat (Option String × Nat)
  | .block _, _, _, used, [] => .error used
  | .between, doc, _, used, [] => .ok (doc, used)
  | .line, doc, _, used, [] => .ok (doc, used)
  | mode, doc, skip + 1, used, _ :: text => scanFrom mode doc skip (used + 1) text
  | .between, doc, 0, used, c :: text =>
    if Text.isBlank c then scanFrom .between doc 0 (used + 1) text
    else if c = '/' ∧ text.head? = some '/' then scanFrom .line doc 1 (used + 1) text
    else if c = '/' ∧ text.head? = some '*' then scanFrom (.block []) doc 1 (used + 1) text
    else .ok (doc, used)
  | .line, doc, 0, used, c :: text =>
    scanFrom (if c = '\n' then .between else .line) doc 0 (used + 1) text
  | .block body, doc, 0, used, c :: text =>
    if c = '*' ∧ text.head? = some '/' then
      scanFrom .between (docAfter doc body) 1 (used + 1) text
    else scanFrom (.block (c :: body)) doc 0 (used + 1) text

def scan (text : List Char) : Except Nat (Option String × Nat) := scanFrom .between none 0 0 text

end Gap

end CodecDocs.Token
