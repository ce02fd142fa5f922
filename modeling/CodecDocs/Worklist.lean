import CodecDocs.Schema.Basic

/-! Names to be described. Each name with its origin gets one token when it is first visited and
waits in the queue once; tokens are never given twice. -/

namespace CodecDocs

/-- A name together with where it is defined. -/
abbrev Target := String × Origin

structure Worklist where
  /-- The visited names with their tokens, in the order of their first visits. -/
  seen : Table Target String
  /-- The names that wait, the next one first. -/
  queue : List Target

namespace Worklist

def empty : Worklist := ⟨[], []⟩

def isTokenChar (c : Char) : Bool := c.isAlphanum || c == '.' || c == '_' || c == '-'

/-- A name in the characters that tokens may have. -/
def tokenBase (name : String) : String :=
  String.ofList (name.toList.map fun c => if isTokenChar c then c else '_')

/-- The name itself or, when it is taken, the name with the first free number from two on. One of
as many numbers as there are tokens, and one more, is free. -/
def freshToken (taken : List String) (name : String) : String :=
  let base := tokenBase name
  if taken.contains base then
    let numbered := (List.range (taken.length + 1)).map fun i => base ++ "_" ++ toString (i + 2)
    (numbered.find? fun token => !taken.contains token).getD base
  else base

def token? (w : Worklist) (target : Target) : Option String := w.seen.get? target

/-- The token of a target, which is queued when it is new. -/
def visit (w : Worklist) (target : Target) : String × Worklist :=
  match w.token? target with
  | some token => (token, w)
  | none =>
    let token := freshToken w.seen.values target.1
    (token, ⟨w.seen ++ [(target, token)], w.queue ++ [target]⟩)

def visitTargets (w : Worklist) (targets : List Target) : Worklist :=
  targets.foldl (fun w target => (w.visit target).2) w

/-- Visits everything that a schema refers to. -/
def visitAll (w : Worklist) (s : Schema) : Worklist := w.visitTargets s.references

/-- The next target of the queue, which leaves it. -/
def takeNext (w : Worklist) : Option (Target × Worklist) :=
  match w.queue with
  | [] => none
  | target :: queue => some (target, ⟨w.seen, queue⟩)

end Worklist

end CodecDocs
