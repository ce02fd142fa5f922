import CodecDocs.Script.Basic
import Mathlib.Data.List.Basic

/-! How codec modules are written. A codec module imports and exports names and declares constants
whose values are built from names, literals, member access, calls, array and object literals and
arrow functions. Its canonical text has a semicolon after every item, parentheses around an arrow
function that is called or has a member taken, and parentheses around the body of an arrow function
that would begin with a brace. -/

namespace CodecDocs.Script

open Token (Kind)

/-- Words that stand for something else than a name where an expression begins. -/
def expressionWords : List String :=
  ["true", "false", "null", "function", "class", "interface", "new", "typeof", "void", "delete",
    "await"]

/-! ### Codec modules -/

mutual

/-- Expressions of codec modules. -/
inductive Codec : Expr → Prop
  | string (value : String) (span : Span) : Codec (.string value span)
  | number (value : Binary64) (span : Span) : Codec (.number value span)
  | bool (value : Bool) (span : Span) : Codec (.bool value span)
  | null (span : Span) : Codec (.null span)
  | ident {name : String} (span : Span) (plain : name ∉ expressionWords) : Codec (.ident name span)
  | member {object : Expr} (name : String) (span : Span) (object_codec : Codec object) :
    Codec (.member object name span)
  | call {callee : Expr} {args : List Expr} (span : Span) (callee_codec : Codec callee)
      (args_codec : ∀ arg ∈ args, CodecElement arg) : Codec (.call callee args span)
  | array {elements : List Expr} (span : Span) (elements_codec : ∀ e ∈ elements, CodecElement e) :
    Codec (.array elements span)
  | object {properties : List Property} (span : Span)
      (properties_codec : ∀ p ∈ properties, CodecProperty p) : Codec (.object properties span)
  | arrow (params : List String) {body : Expr} (span : Span) (body_codec : Codec body) :
    Codec (.function params (.expression body) span)

/-- Elements of array literals and arguments of calls. -/
inductive CodecElement : Expr → Prop
  | single {e : Expr} (codec : Codec e) : CodecElement e
  | spread {arg : Expr} (span : Span) (codec : Codec arg) : CodecElement (.spread arg span)

inductive CodecProperty : Property → Prop
  | keyed {key : Key} {value : Expr} (doc : Option String) (span : Span) (key_codec : CodecKey key)
      (value_codec : Codec value) : CodecProperty (.keyed key value doc span)
  | shorthand (name : String) (doc : Option String) (span : Span) :
    CodecProperty (.shorthand name doc span)
  | spread {arg : Expr} (doc : Option String) (span : Span) (codec : Codec arg) :
    CodecProperty (.spread arg doc span)

inductive CodecKey : Key → Prop
  | name (text : String) : CodecKey (.name text)
  | string (text : String) : CodecKey (.string text)
  | number (value : Binary64) : CodecKey (.number value)
  | computed {key : Expr} (codec : Codec key) : CodecKey (.computed key)

end

/-- Bindings of an import: none, or a default one that may be missing, and after it a module under
a name or a list of names. -/
inductive CodecBindings : List Binding → Prop
  | star (first : Option String) (name : String) :
    CodecBindings (first.toList.map .default ++ [.star name])
  | named (first : Option String) (names : List (String × String)) :
    CodecBindings (first.toList.map .default ++ names.map fun n => .named n.1 n.2)

inductive CodecItem : Item → Prop
  | imports (source : String) {bindings : List Binding} (form : CodecBindings bindings) :
    CodecItem (.imports source bindings)
  | declares {d : Declaration} (init_codec : ∀ e ∈ d.init, Codec e) : CodecItem (.declares d)
  | exports (names : List (String × String)) (source : Option String) :
    CodecItem (.exports names source)
  | exportsAll (source : String) (name : Option String) : CodecItem (.exportsAll source name)

/-! ### Their canonical text -/

/-- The pieces with commas between them. -/
def separated : List (List Kind) → List Kind
  | [] => []
  | [piece] => piece
  | piece :: pieces => piece ++ .punct .comma :: separated pieces

def parens (inside : List Kind) : List Kind :=
  .punct .openParen :: (inside ++ [.punct .closeParen])

def brackets (inside : List Kind) : List Kind :=
  .punct .openBracket :: (inside ++ [.punct .closeBracket])

def braces (inside : List Kind) : List Kind :=
  .punct .openBrace :: (inside ++ [.punct .closeBrace])

@[simp] theorem length_parens (inside : List Kind) :
    (parens inside).length = inside.length + 2 := by simp [parens]

@[simp] theorem length_brackets (inside : List Kind) :
    (brackets inside).length = inside.length + 2 := by simp [brackets]

@[simp] theorem length_braces (inside : List Kind) :
    (braces inside).length = inside.length + 2 := by simp [braces]

def Expr.isFunction : Expr → Bool
  | .function .. => true
  | _ => false

/-- An expression as what is called or has a member taken. -/
def asOperand (e : Expr) (text : List Kind) : List Kind :=
  if e.isFunction then parens text else text

/-- An expression as the body of an arrow function. -/
def asBody (text : List Kind) : List Kind :=
  if text.head? = some (.punct .openBrace) then parens text else text

mutual

/-- The canonical text of an expression; forms that no codec module has are left out. -/
def Expr.text : Expr → List Kind
  | .string value _ => [.string value]
  | .number value _ => [.number value]
  | .bool value _ => [.word (if value then "true" else "false")]
  | .null _ => [.word "null"]
  | .ident name _ => [.word name]
  | .member object name _ => asOperand object object.text ++ [.punct .dot, .word name]
  | .call callee args _ => asOperand callee callee.text ++ parens (separated (Expr.texts args))
  | .array elements _ => brackets (separated (Expr.texts elements))
  | .object properties _ => braces (separated (Property.texts properties))
  | .function params (.expression body) _ =>
    parens (separated (params.map fun p => [.word p])) ++ .punct .arrow :: asBody body.text
  | .spread arg _ => .punct .ellipsis :: arg.text
  | _ => []

def Expr.texts : List Expr → List (List Kind)
  | [] => []
  | e :: es => e.text :: Expr.texts es

def Property.text : Property → List Kind
  | .keyed key value _ _ => key.text ++ .punct .colon :: value.text
  | .shorthand name _ _ => [.word name]
  | .spread arg _ _ => .punct .ellipsis :: arg.text
  | .method .. => []

def Property.texts : List Property → List (List Kind)
  | [] => []
  | p :: ps => p.text :: Property.texts ps

def Key.text : Key → List Kind
  | .name text => [.word text]
  | .string text => [.string text]
  | .number value => [.number value]
  | .computed key => brackets key.text

end

/-- A name, with the one it goes by on the other side if that differs. -/
def nameText (n : String × String) : List Kind :=
  if n.1 = n.2 then [.word n.1] else [.word n.1, .word "as", .word n.2]

def nameList (names : List (String × String)) : List Kind :=
  braces (separated (names.map nameText))

/-- The bindings of an import after the default one. -/
def otherText : List Binding → List Kind
  | [.star name] => [.punct .star, .word "as", .word name]
  | bindings => nameList (bindings.filterMap fun
    | .named imported name => some (imported, name)
    | _ => none)

/-- The text of an import between its first word and the module it names. -/
def importClause : List Binding → List Kind
  | [] => []
  | [.default name] => [.word name, .word "from"]
  | .default name :: others => .word name :: .punct .comma :: (otherText others ++ [.word "from"])
  | bindings => otherText bindings ++ [.word "from"]

def Declaration.text (d : Declaration) : List Kind :=
  match d.init with
  | none => [.word "const", .word d.name]
  | some e => .word "const" :: .word d.name :: .punct .assign :: e.text

def Item.text : Item → List Kind
  | .imports source bindings => .word "import" :: (importClause bindings ++ [.string source])
  | .declares ⟨"default", some e, true, _, _⟩ => .word "export" :: .word "default" :: e.text
  | .declares d => (if d.exported then [.word "export"] else []) ++ d.text
  | .exports names source =>
    .word "export" :: (nameList names ++ (source.map fun s => [.word "from", .string s]).getD [])
  | .exportsAll source name =>
    [.word "export", .punct .star] ++ (name.map fun n => [.word "as", .word n]).getD [] ++
      [.word "from", .string source]

/-- The canonical text of a module. -/
def moduleText (items : List Item) : List Kind :=
  items.flatMap (fun item => item.text ++ [.punct .semicolon]) ++ [.eof]

/-- A called arrow function and its body, which begins with a brace, are both in parentheses. -/
example :
    (Expr.call (.function ["x"] (.expression (.object [] default)) default) [] default).text =
      parens (parens [.word "x"] ++ .punct .arrow :: parens (braces [])) ++ parens [] := rfl

/-! ### Structure without places and documentation -/

mutual

/-- An expression without the places of its parts and the documentation in it. -/
def Expr.bare : Expr → Expr
  | .string value _ => .string value default
  | .number value _ => .number value default
  | .bool value _ => .bool value default
  | .null _ => .null default
  | .template _ => .template default
  | .regex _ => .regex default
  | .ident name _ => .ident name default
  | .member object name _ => .member object.bare name default
  | .index object index _ => .index object.bare index.bare default
  | .call callee args _ => .call callee.bare (Expr.bares args) default
  | .construct callee args _ => .construct callee.bare (Expr.bares args) default
  | .array elements _ => .array (Expr.bares elements) default
  | .object properties _ => .object (Property.bares properties) default
  | .function params body _ => .function params body.bare default
  | .spread arg _ => .spread arg.bare default
  | .unary op arg _ => .unary op arg.bare default
  | .binary op left right _ => .binary op left.bare right.bare default
  | .conditional test yes no _ => .conditional test.bare yes.bare no.bare default

def Expr.bares : List Expr → List Expr
  | [] => []
  | e :: es => e.bare :: Expr.bares es

def Property.bare : Property → Property
  | .keyed key value _ _ => .keyed key.bare value.bare none default
  | .shorthand name _ _ => .shorthand name none default
  | .spread arg _ _ => .spread arg.bare none default
  | .method name _ _ => .method name none default

def Property.bares : List Property → List Property
  | [] => []
  | p :: ps => p.bare :: Property.bares ps

def Key.bare : Key → Key
  | .name text => .name text
  | .string text => .string text
  | .number value => .number value
  | .computed key => .computed key.bare

def Body.bare : Body → Body
  | .expression value => .expression value.bare
  | .returning value => .returning value.bare
  | .block => .block

end

def Item.bare : Item → Item
  | .declares d => .declares ⟨d.name, d.init.map Expr.bare, d.exported, none, default⟩
  | item => item

@[simp] theorem Expr.texts_eq (es : List Expr) : Expr.texts es = es.map Expr.text := by
  induction es with
  | nil => rw [Expr.texts, List.map_nil]
  | cons e es ih => rw [Expr.texts, List.map_cons, ih]

@[simp] theorem Property.texts_eq (ps : List Property) :
    Property.texts ps = ps.map Property.text := by
  induction ps with
  | nil => rw [Property.texts, List.map_nil]
  | cons p ps ih => rw [Property.texts, List.map_cons, ih]

end CodecDocs.Script
