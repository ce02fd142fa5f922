/-! Tables in insertion order. A key that is written again keeps its place and takes the new value;
an erased key leaves the order of the others alone. Look-up finds the first entry of a key, and
tables built by `insert` have only one. -/

namespace CodecDocs

/-- Keys with their values, in the order in which the keys were first written. -/
abbrev Table (κ : Type) (α : Type u) := List (κ × α)

namespace Table

variable {κ : Type} {α : Type u} [DecidableEq κ]

def get? : Table κ α → κ → Option α
  | [], _ => none
  | (k, a) :: rest, key => if k = key then some a else get? rest key

def has (table : Table κ α) (key : κ) : Bool := (table.get? key).isSome

def insert : Table κ α → κ → α → Table κ α
  | [], key, value => [(key, value)]
  | (k, a) :: rest, key, value =>
    if k = key then (k, value) :: rest else (k, a) :: insert rest key value

def erase (table : Table κ α) (key : κ) : Table κ α := table.filter fun entry => entry.1 ≠ key

/-- Writes all entries of `more`, in their order. -/
def extend (table more : Table κ α) : Table κ α :=
  more.foldl (fun acc entry => acc.insert entry.1 entry.2) table

/-- Writes the entries of `more` whose keys are still missing. -/
def fill (table more : Table κ α) : Table κ α :=
  more.foldl (fun acc entry => if acc.has entry.1 then acc else acc.insert entry.1 entry.2) table

def ofList (entries : List (κ × α)) : Table κ α := extend [] entries

omit [DecidableEq κ] in
def keys (table : Table κ α) : List κ := table.map Prod.fst

omit [DecidableEq κ] in
def values (table : Table κ α) : List α := table.map Prod.snd

end Table

/-- Sets of names in the order in which they were first added. -/
abbrev Names := List String

namespace Names

def add (names : Names) (name : String) : Names :=
  if names.contains name then names else names ++ [name]

def remove (names : Names) (name : String) : Names := names.filter (· ≠ name)

def addAll (names more : Names) : Names := more.foldl add names

/-- Equality as sets, for lists without repetition. -/
def same (names others : Names) : Bool :=
  names.length == others.length && names.all others.contains

end Names

end CodecDocs
