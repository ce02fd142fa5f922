import CodecDocs.Table

/-! Command-line arguments. Options have long names, some a letter too; values follow an option or
are attached to it. -/

namespace CodecDocs.CommandLine

/-- What may follow an option, and whether it may come again. -/
inductive Arity where
  | flag
  /-- A flag that may come any number of times. -/
  | count
  | one
  /-- One value each time. -/
  | each
  /-- At least one value each time. -/
  | many
  deriving DecidableEq

structure OptionSpec where
  name : String
  letter : Option Char
  arity : Arity
  /-- Paths are not empty. -/
  isPath : Bool

/-- The values of the options that were given. -/
abbrev Given := Table String (List String)

/-- An option that waits for values, with those it has got. -/
structure Pending where
  spec : OptionSpec
  values : List String

/-- Adds an option with its values; `none` where that is not allowed. -/
def record (spec : OptionSpec) (values : List String) (given : Given) : Option Given :=
  let earlier := (given.get? spec.name).getD []
  if spec.isPath && values.contains "" then none
  else match spec.arity with
    | .flag | .one => if given.has spec.name then none else some (given.insert spec.name values)
    | .count => some (given.insert spec.name (earlier ++ [""]))
    | .each | .many => some (given.insert spec.name (earlier ++ values))

/-- Ends the option that waits for values, if there is one. -/
def close (given : Given) : Option Pending → Option Given
  | none => some given
  | some pending => if pending.values.isEmpty then none else record pending.spec pending.values given

def takesValues (spec : OptionSpec) : Bool := spec.arity ≠ .flag && spec.arity ≠ .count

/-- What is given so far and the option that waits. -/
abbrev Scan := Given × Option Pending

/-- An option with the value attached to it, if one is. -/
def start (spec : OptionSpec) (attached : Option String) (given : Given) : Option Scan :=
  match takesValues spec, attached with
  | true, some value => (record spec [value] given).map (·, none)
  | true, none => some (given, some ⟨spec, []⟩)
  | false, none => (record spec [] given).map (·, none)
  | false, some _ => none

/-- An option by its long name, with a value after an equals sign. -/
def long (specs : List OptionSpec) (text : List Char) (given : Given) : Option Scan :=
  let name := String.ofList (text.takeWhile (· ≠ '='))
  let attached := match text.dropWhile (· ≠ '=') with
    | [] => none
    | _ :: value => some (String.ofList value)
  match specs.find? fun spec => spec.name = name with
  | some spec => start spec attached given
  | none => none

/-- Options by their letters; what follows one that takes values is its value. -/
def letters (specs : List OptionSpec) : List Char → Given → Option Scan
  | [], given => some (given, none)
  | c :: rest, given =>
    match specs.find? fun spec => spec.letter = some c with
    | none => none
    | some spec =>
      if takesValues spec then
        match rest with
        | [] => start spec none given
        | '=' :: value => start spec (some (String.ofList value)) given
        | value => start spec (some (String.ofList value)) given
      else (record spec [] given).bind (letters specs rest)

/-- A value for the option that waits. -/
def value (arg : String) (given : Given) : Option Pending → Option Scan
  | none => none
  | some pending =>
    let values := pending.values ++ [arg]
    if pending.spec.arity = .many then some (given, some ⟨pending.spec, values⟩)
    else (record pending.spec values given).map (·, none)

/-- One argument, after what has been read. -/
def argument (specs : List OptionSpec) (arg : String) : Scan → Option Scan
  | (given, pending) =>
    match arg.toList with
    | '-' :: '-' :: text => (close given pending).bind (long specs text)
    | '-' :: c :: text => (close given pending).bind (letters specs (c :: text))
    | _ => value arg given pending

/-- The options that the arguments give; after `--` nothing may follow. -/
def scan (specs : List OptionSpec) : List String → Scan → Option Given
  | [], (given, pending) => close given pending
  | "--" :: rest, (given, pending) => if rest.isEmpty then close given pending else none
  | arg :: rest, state => (argument specs arg state).bind (scan specs rest)

end CodecDocs.CommandLine
