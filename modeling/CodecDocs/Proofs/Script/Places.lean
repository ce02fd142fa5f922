import CodecDocs.Proofs.Script.Outcome

/-! Where the parts of a module stand among its tokens. A node is an expression, an entry of an
object literal or a declaration; its span covers a run of tokens, and the nodes right below it cover
runs inside that one, each after the one before. -/

namespace CodecDocs.Script

/-- A part of a module that has a place of its own. -/
inductive Node where
  | expr (e : Expr)
  | property (p : Property)
  | declaration (d : Declaration)

def Property.span : Property → Span
  | .keyed _ _ _ s | .shorthand _ _ s | .spread _ _ s | .method _ _ s => s

/-- The expression inside a computed key. -/
def Key.nodes : Key → List Node
  | .computed key => [.expr key]
  | _ => []

/-- The expression that a function gives back. -/
def Body.nodes : Body → List Node
  | .expression value | .returning value => [.expr value]
  | .block => []

/-- The declaration that an item makes. -/
def Item.nodes : Item → List Node
  | .declares d => [.declaration d]
  | _ => []

namespace Node

def span : Node → Span
  | .expr e => e.span
  | .property p => p.span
  | .declaration d => d.span

/-- The nodes right below a node, in the order in which they are written. -/
def parts : Node → List Node
  | .expr (.member object _ _) => [.expr object]
  | .expr (.index object index _) => [.expr object, .expr index]
  | .expr (.call callee args _) | .expr (.construct callee args _) =>
    .expr callee :: args.map .expr
  | .expr (.array elements _) => elements.map .expr
  | .expr (.object properties _) => properties.map .property
  | .expr (.function _ body _) => body.nodes
  | .expr (.spread arg _) | .expr (.unary _ arg _) => [.expr arg]
  | .expr (.binary _ left right _) => [.expr left, .expr right]
  | .expr (.conditional test yes no _) => [.expr test, .expr yes, .expr no]
  | .expr _ => []
  | .property (.keyed key value _ _) => key.nodes ++ [.expr value]
  | .property (.spread arg _ _) => [.expr arg]
  | .property _ => []
  | .declaration d => d.init.toList.map .expr

/-- The node is the other one or somewhere below it. -/
inductive Within : Node → Node → Prop
  | self (n : Node) : Within n n
  | part {m n k : Node} (part : m ∈ n.parts) (within : Within k m) : Within k n

theorem Within.trans {m n k : Node} (h : k.Within m) (h' : m.Within n) : k.Within n := by
  induction h' with
  | self => exact h
  | part hpart _ ih => exact .part hpart (ih h)

end Node

/-! ### Runs of tokens -/

/-- The span goes from the first of the tokens to the last. -/
def Covers (tokens : List Token) (s : Span) : Prop :=
  ∃ first last, tokens.head? = some first ∧ tokens.getLast? = some last ∧
    s.start = first.span.start ∧ s.line = first.span.line ∧ s.column = first.span.column ∧
    (first.span.start ≤ last.span.stop → s.stop = last.span.stop)

theorem Covers.ne_nil {tokens : List Token} {s : Span} (h : Covers tokens s) : tokens ≠ [] := by
  obtain ⟨first, last, hfirst, -⟩ := h
  rintro rfl
  cases hfirst

theorem covers_single (t : Token) : Covers [t] t.span :=
  ⟨t, t, rfl, rfl, rfl, rfl, rfl, fun _ => rfl⟩

/-- A span from where a parser has begun to the last token that it has taken. -/
theorem Cursor.Takes.covers {c c' : Cursor} {taken : List Token} (h : c.Takes taken c')
    (hne : taken ≠ []) : Covers taken (c'.spanFrom c.current.span) := by
  obtain ⟨last, hlast, hfirst, hspan⟩ := h.spanFrom_eq hne
  rw [hspan]
  exact ⟨c.current, last, hfirst, hlast, rfl, rfl, rfl, fun hle => Nat.max_eq_left hle⟩

/-- The spans cover runs of the tokens one after the other. -/
inductive Apart : List Token → List Span → Prop
  | nil (tokens : List Token) : Apart tokens []
  | cons {before own after : List Token} {s : Span} {spans : List Span} (covers : Covers own s)
      (later : Apart after spans) : Apart (before ++ own ++ after) (s :: spans)

theorem Apart.skip {tokens : List Token} {spans : List Span} (h : Apart tokens spans)
    (before : List Token) : Apart (before ++ tokens) spans := by
  cases h with
  | nil => exact .nil _
  | @cons front own after s spans covers later =>
    have heq : before ++ (front ++ own ++ after) = before ++ front ++ own ++ after := by simp
    rw [heq]
    exact .cons covers later

/-- The node covers a run of the tokens, and the nodes right below it cover runs inside that one. -/
def Node.Standing (tokens : List Token) (n : Node) : Prop :=
  ∃ before own after, tokens = before ++ own ++ after ∧ Covers own n.span ∧
    Apart own (n.parts.map Node.span)

/-- The node and everything below it stands among the tokens. -/
def Placed (tokens : List Token) (n : Node) : Prop :=
  ∀ m : Node, m.Within n → m.Standing tokens

namespace Placed

variable {tokens own before after : List Token} {n : Node}

theorem widen (h : Placed own n) (before after : List Token) :
    Placed (before ++ own ++ after) n := by
  intro m hm
  obtain ⟨front, run, rest, rfl, hcovers, hparts⟩ := h m hm
  exact ⟨before ++ front, run, rest ++ after, by simp, hcovers, hparts⟩

theorem append (h : Placed own n) (after : List Token) : Placed (own ++ after) n := h.widen [] after

theorem cons (h : Placed own n) (t : Token) : Placed (t :: own) n := by
  simpa using h.widen [t] []

theorem covers (h : Placed tokens n) :
    ∃ before own after, tokens = before ++ own ++ after ∧ Covers own n.span := by
  obtain ⟨before, own, after, heq, hcovers, -⟩ := h n (.self n)
  exact ⟨before, own, after, heq, hcovers⟩

theorem ne_nil (h : Placed tokens n) : tokens ≠ [] := by
  obtain ⟨before, own, after, rfl, hcovers⟩ := h.covers
  simp [hcovers.ne_nil]

end Placed

/-- Nodes that stand among the tokens one after the other. -/
inductive InTurn : List Token → List Node → Prop
  | nil (tokens : List Token) : InTurn tokens []
  | cons {own after : List Token} {n : Node} {nodes : List Node} (placed : Placed own n)
      (later : InTurn after nodes) : InTurn (own ++ after) (n :: nodes)

namespace InTurn

variable {tokens own after : List Token} {n : Node} {nodes : List Node}

theorem skip (h : InTurn tokens nodes) (before : List Token) : InTurn (before ++ tokens) nodes := by
  cases h with
  | nil => exact .nil _
  | cons placed later =>
    rw [← List.append_assoc]
    exact .cons (by simpa using placed.widen before []) later

theorem single (h : Placed tokens n) : InTurn tokens [n] := by
  simpa using InTurn.cons h (.nil [])

theorem append {more : List Token} {others : List Node} (h : InTurn tokens nodes)
    (hmore : InTurn more others) : InTurn (tokens ++ more) (nodes ++ others) := by
  induction h with
  | nil tokens => exact hmore.skip tokens
  | cons placed later ih =>
    rw [List.append_assoc]
    exact .cons placed ih

theorem apart (h : InTurn tokens nodes) : Apart tokens (nodes.map Node.span) := by
  induction h with
  | nil tokens => exact .nil tokens
  | cons placed later ih =>
    obtain ⟨before, run, rest, rfl, hcovers⟩ := placed.covers
    rw [List.append_assoc]
    exact .cons hcovers (ih.skip rest)

theorem placed (h : InTurn tokens nodes) : ∀ n ∈ nodes, Placed tokens n := by
  induction h with
  | nil => simp
  | @cons own after n nodes placed later ih =>
    refine List.forall_mem_cons.2 ⟨placed.append after, fun m hm => ?_⟩
    simpa using (ih m hm).widen own []

end InTurn

/-- A node over nodes that stand among its tokens. -/
theorem Placed.mk {tokens : List Token} {n : Node} (hcovers : Covers tokens n.span)
    (hparts : InTurn tokens n.parts) : Placed tokens n := by
  intro m hm
  cases hm with
  | self => exact ⟨[], tokens, [], by simp, hcovers, hparts.apart⟩
  | part hpart hwithin => exact hparts.placed _ hpart m hwithin

/-- A declaration that stands just where its value does. -/
theorem Placed.declaration {tokens : List Token} {e : Expr} {d : Declaration}
    (h : Placed tokens (.expr e)) (hinit : d.init = some e) (hspan : d.span = e.span) :
    Placed tokens (.declaration d) := by
  have hparts : (Node.declaration d).parts = [.expr e] := by simp [Node.parts, hinit]
  intro m hm
  cases hm with
  | self =>
    obtain ⟨before, own, after, heq, hcovers⟩ := h.covers
    have hown : Apart ([] ++ own ++ []) [e.span] := .cons hcovers (.nil [])
    refine ⟨before, own, after, heq, ?_, ?_⟩
    · rw [Node.span, hspan]
      exact hcovers
    · rw [hparts]
      simpa [Node.span] using hown
  | part hpart hwithin =>
    rw [hparts, List.mem_singleton] at hpart
    exact h m (hpart ▸ hwithin)

end CodecDocs.Script
