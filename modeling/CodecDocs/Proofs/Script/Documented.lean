import CodecDocs.Proofs.Script.Moves

/-! Expressions up to the places of their parts. The documentation of an entry of an object literal
stands before the first token of the entry, so the canonical text of an expression says where each
piece of documentation in it comes from, and tokens after that text have no say in it. -/

namespace CodecDocs.Script

open Token (Kind)

mutual

/-- An expression without the places of its parts. -/
def Expr.unplaced : Expr → Expr
  | .string value _ => .string value default
  | .number value _ => .number value default
  | .bool value _ => .bool value default
  | .null _ => .null default
  | .template _ => .template default
  | .regex _ => .regex default
  | .ident name _ => .ident name default
  | .member object name _ => .member object.unplaced name default
  | .index object index _ => .index object.unplaced index.unplaced default
  | .call callee args _ => .call callee.unplaced (Expr.unplaceds args) default
  | .construct callee args _ => .construct callee.unplaced (Expr.unplaceds args) default
  | .array elements _ => .array (Expr.unplaceds elements) default
  | .object properties _ => .object (Property.unplaceds properties) default
  | .function params body _ => .function params body.unplaced default
  | .spread arg _ => .spread arg.unplaced default
  | .unary op arg _ => .unary op arg.unplaced default
  | .binary op left right _ => .binary op left.unplaced right.unplaced default
  | .conditional test yes no _ => .conditional test.unplaced yes.unplaced no.unplaced default

def Expr.unplaceds : List Expr → List Expr
  | [] => []
  | e :: es => e.unplaced :: Expr.unplaceds es

def Property.unplaced : Property → Property
  | .keyed key value doc _ => .keyed key.unplaced value.unplaced doc default
  | .shorthand name doc _ => .shorthand name doc default
  | .spread arg doc _ => .spread arg.unplaced doc default
  | .method name doc _ => .method name doc default

def Property.unplaceds : List Property → List Property
  | [] => []
  | p :: ps => p.unplaced :: Property.unplaceds ps

def Key.unplaced : Key → Key
  | .name text => .name text
  | .string text => .string text
  | .number value => .number value
  | .computed key => .computed key.unplaced

def Body.unplaced : Body → Body
  | .expression value => .expression value.unplaced
  | .returning value => .returning value.unplaced
  | .block => .block

end

mutual

theorem Expr.bare_unplaced : ∀ e : Expr, e.unplaced.bare = e.bare
  | .string .. | .number .. | .bool .. | .null .. | .template .. | .regex .. | .ident .. => rfl
  | .member object .. => by simp [Expr.unplaced, Expr.bare, Expr.bare_unplaced object]
  | .index object index _ => by
    simp [Expr.unplaced, Expr.bare, Expr.bare_unplaced object, Expr.bare_unplaced index]
  | .call callee args _ => by
    rw [Expr.unplaced, Expr.bare, Expr.bare_unplaced callee, Expr.bares_unplaceds args, Expr.bare]
  | .construct callee args _ => by
    rw [Expr.unplaced, Expr.bare, Expr.bare_unplaced callee, Expr.bares_unplaceds args, Expr.bare]
  | .array elements _ => by rw [Expr.unplaced, Expr.bare, Expr.bares_unplaceds elements, Expr.bare]
  | .object properties _ => by
    rw [Expr.unplaced, Expr.bare, Property.bares_unplaceds properties, Expr.bare]
  | .function _ body _ => by rw [Expr.unplaced, Expr.bare, Body.bare_unplaced body, Expr.bare]
  | .spread arg _ | .unary _ arg _ => by simp [Expr.unplaced, Expr.bare, Expr.bare_unplaced arg]
  | .binary _ left right _ => by
    simp [Expr.unplaced, Expr.bare, Expr.bare_unplaced left, Expr.bare_unplaced right]
  | .conditional test yes no _ => by
    simp [Expr.unplaced, Expr.bare, Expr.bare_unplaced test, Expr.bare_unplaced yes,
      Expr.bare_unplaced no]

theorem Expr.bares_unplaceds : ∀ es : List Expr, Expr.bares (Expr.unplaceds es) = Expr.bares es
  | [] => rfl
  | e :: es => by
    rw [Expr.unplaceds, Expr.bares, Expr.bare_unplaced e, Expr.bares_unplaceds es, Expr.bares]

theorem Property.bare_unplaced : ∀ p : Property, p.unplaced.bare = p.bare
  | .keyed key value .. => by
    simp [Property.unplaced, Property.bare, Key.bare_unplaced key, Expr.bare_unplaced value]
  | .shorthand .. | .method .. => rfl
  | .spread arg .. => by simp [Property.unplaced, Property.bare, Expr.bare_unplaced arg]

theorem Property.bares_unplaceds :
    ∀ ps : List Property, Property.bares (Property.unplaceds ps) = Property.bares ps
  | [] => rfl
  | p :: ps => by
    rw [Property.unplaceds, Property.bares, Property.bare_unplaced p, Property.bares_unplaceds ps,
      Property.bares]

theorem Key.bare_unplaced : ∀ k : Key, k.unplaced.bare = k.bare
  | .name .. | .string .. | .number .. => rfl
  | .computed key => by rw [Key.unplaced, Key.bare, Expr.bare_unplaced key, Key.bare]

theorem Body.bare_unplaced : ∀ b : Body, b.unplaced.bare = b.bare
  | .expression value => by rw [Body.unplaced, Body.bare, Expr.bare_unplaced value, Body.bare]
  | .returning value => by rw [Body.unplaced, Body.bare, Expr.bare_unplaced value, Body.bare]
  | .block => rfl

end

@[simp] theorem Expr.unplaceds_eq (es : List Expr) : Expr.unplaceds es = es.map Expr.unplaced := by
  induction es with
  | nil => rw [Expr.unplaceds, List.map_nil]
  | cons e es ih => rw [Expr.unplaceds, List.map_cons, ih]

@[simp] theorem Property.unplaceds_eq (ps : List Property) :
    Property.unplaceds ps = ps.map Property.unplaced := by
  induction ps with
  | nil => rw [Property.unplaceds, List.map_nil]
  | cons p ps ih => rw [Property.unplaceds, List.map_cons, ih]

/-! ### The documentation at a place -/

/-- Where the text of what is called or has a member taken begins. -/
def Cursor.atOperand (c : Cursor) (e : Expr) : Cursor := if e.isFunction then c.next else c

/-- Where the text of the body of an arrow function begins. -/
def Cursor.atBody (c : Cursor) (text : List Kind) : Cursor :=
  if text.head? = some (.punct .openBrace) then c.next else c

/-- The parameters of an arrow function and the arrow. -/
def arrowText (params : List String) : List Kind :=
  parens (separated (params.map fun p => [.word p])) ++ [.punct .arrow]

mutual

/-- An expression whose text begins at the cursor, with the documentation from there and without
places. -/
def Expr.documented : Expr → Cursor → Expr
  | .member object name _, c => .member (object.documented (c.atOperand object)) name default
  | .call callee args _, c =>
    .call (callee.documented (c.atOperand callee))
      (Expr.documenteds args (c.after (asOperand callee callee.text).length).next) default
  | .array elements _, c => .array (Expr.documenteds elements c.next) default
  | .object properties _, c => .object (Property.documenteds properties c.next) default
  | .function params (.expression body) _, c =>
    .function params (.expression
      (body.documented ((c.after (arrowText params).length).atBody body.text))) default
  | .spread arg _, c => .spread (arg.documented c.next) default
  | e, _ => e.unplaced

/-- Expressions with commas between them. -/
def Expr.documenteds : List Expr → Cursor → List Expr
  | [], _ => []
  | e :: es, c => e.documented c :: Expr.documenteds es (c.after e.text.length).next

def Property.documented : Property → Cursor → Property
  | .keyed key value _ _, c =>
    .keyed (key.documented c) (value.documented (c.after key.text.length).next) c.current.doc
      default
  | .shorthand name _ _, c => .shorthand name c.current.doc default
  | .spread arg _ _, c => .spread (arg.documented c.next) c.current.doc default
  | p, _ => p.unplaced

def Property.documenteds : List Property → Cursor → List Property
  | [], _ => []
  | p :: ps, c => p.documented c :: Property.documenteds ps (c.after p.text.length).next

def Key.documented : Key → Cursor → Key
  | .computed key, c => .computed (key.documented c.next)
  | k, _ => k.unplaced

end

theorem Expr.documenteds_eq (es : List Expr) (c : Cursor) :
    Expr.documenteds es c = Parser.listed Expr.text (fun c e => e.documented c) c es := by
  induction es generalizing c with
  | nil => rfl
  | cons e es ih => rw [Expr.documenteds, Parser.listed, ih]

theorem Property.documenteds_eq (ps : List Property) (c : Cursor) :
    Property.documenteds ps c = Parser.listed Property.text (fun c p => p.documented c) c ps := by
  induction ps generalizing c with
  | nil => rfl
  | cons p ps ih => rw [Property.documenteds, Parser.listed, ih]

mutual

/-- Documentation is all that comes from the tokens. -/
theorem Expr.bare_documented : ∀ (e : Expr) (c : Cursor), (e.documented c).bare = e.bare
  | .string .., _ | .number .., _ | .bool .., _ | .null .., _ | .template .., _ | .regex .., _
  | .ident .., _ | .index .., _ | .construct .., _ | .function _ (.returning _) _, _
  | .function _ .block _, _ | .unary .., _ | .binary .., _ | .conditional .., _ =>
    Expr.bare_unplaced _
  | .member object .., c => by
    rw [Expr.documented, Expr.bare, Expr.bare_documented object, Expr.bare]
  | .call callee args _, c => by
    rw [Expr.documented, Expr.bare, Expr.bare_documented callee, Expr.bares_documenteds args,
      Expr.bare]
  | .array elements _, c => by
    rw [Expr.documented, Expr.bare, Expr.bares_documenteds elements, Expr.bare]
  | .object properties _, c => by
    rw [Expr.documented, Expr.bare, Property.bares_documenteds properties, Expr.bare]
  | .function _ (.expression body) _, c => by
    rw [Expr.documented, Expr.bare, Body.bare, Expr.bare_documented body, Expr.bare, Body.bare]
  | .spread arg _, c => by rw [Expr.documented, Expr.bare, Expr.bare_documented arg, Expr.bare]

theorem Expr.bares_documenteds : ∀ (es : List Expr) (c : Cursor),
    Expr.bares (Expr.documenteds es c) = Expr.bares es
  | [], _ => rfl
  | e :: es, c => by
    rw [Expr.documenteds, Expr.bares, Expr.bare_documented e, Expr.bares_documenteds es, Expr.bares]

theorem Property.bare_documented : ∀ (p : Property) (c : Cursor), (p.documented c).bare = p.bare
  | .keyed key value .., c => by
    rw [Property.documented, Property.bare, Key.bare_documented key, Expr.bare_documented value,
      Property.bare]
  | .shorthand .., _ => rfl
  | .spread arg .., c => by
    rw [Property.documented, Property.bare, Expr.bare_documented arg, Property.bare]
  | .method .., _ => rfl

theorem Property.bares_documenteds : ∀ (ps : List Property) (c : Cursor),
    Property.bares (Property.documenteds ps c) = Property.bares ps
  | [], _ => rfl
  | p :: ps, c => by
    rw [Property.documenteds, Property.bares, Property.bare_documented p,
      Property.bares_documenteds ps, Property.bares]

theorem Key.bare_documented : ∀ (k : Key) (c : Cursor), (k.documented c).bare = k.bare
  | .name .., _ | .string .., _ | .number .., _ => rfl
  | .computed key, c => by rw [Key.documented, Key.bare, Expr.bare_documented key, Key.bare]

end

theorem bare_eq_of_documented {e e' : Expr} {c : Cursor} (h : e'.unplaced = e.documented c) :
    e'.bare = e.bare := by
  rw [← Expr.bare_unplaced, h, Expr.bare_documented]

/-! ### Tokens that have a say -/

/-- So many tokens from the cursors on have the same documentation. -/
def Cursor.Agree (n : ℕ) (c d : Cursor) : Prop :=
  ∀ i < n, (c.after i).current.doc = (d.after i).current.doc

namespace Cursor.Agree

variable {m n : ℕ} {c d : Cursor}

theorem after (h : Agree n c d) (k : ℕ) (hle : k + m ≤ n) : Agree m (c.after k) (d.after k) := by
  intro i hi
  rw [after_after, after_after]
  exact h (k + i) (by omega)

theorem next (h : Agree n c d) (hle : m < n) : Agree m c.next d.next := h.after 1 (by omega)

theorem mono (h : Agree n c d) (hle : m ≤ n) : Agree m c d := fun i hi => h i (by omega)

theorem doc (h : Agree n c d) (hpos : 0 < n) : c.current.doc = d.current.doc := h 0 hpos

theorem atOperand {e : Expr} {text : List Kind} (h : Agree (asOperand e text).length c d) :
    Agree text.length (c.atOperand e) (d.atOperand e) := by
  unfold asOperand at h
  unfold Cursor.atOperand
  split_ifs at h ⊢
  · rw [length_parens] at h
    exact h.next (by omega)
  · exact h

theorem atBody {text : List Kind} (h : Agree (asBody text).length c d) :
    Agree text.length (c.atBody text) (d.atBody text) := by
  unfold asBody at h
  unfold Cursor.atBody
  split_ifs at h ⊢
  · rw [length_parens] at h
    exact h.next (by omega)
  · exact h

end Cursor.Agree

/-- Tokens with this documentation begin at the cursor. -/
def Cursor.Shows (c : Cursor) (docs : List (Option String)) : Prop :=
  ∃ shown more, c.tokens = shown ++ more ∧ shown.map Token.doc = docs

theorem Cursor.Shows.doc {c : Cursor} {docs : List (Option String)} (h : c.Shows docs) {i : ℕ}
    (hi : i < docs.length) : docs[i]? = some (c.after i).current.doc := by
  obtain ⟨shown, more, hc, rfl⟩ := h
  rw [List.length_map] at hi
  have hsplit : c.tokens = shown.take i ++ (shown.drop i ++ more) := by
    rw [hc, ← List.append_assoc, List.take_append_drop]
  have hafter := after_tokens hsplit (by simp [List.drop_eq_nil_iff]; omega)
  rw [List.length_take_of_le (Nat.le_of_lt hi), List.drop_eq_getElem_cons hi] at hafter
  rw [(List.cons.inj hafter).1, List.getElem?_map, List.getElem?_eq_getElem hi]
  rfl

theorem Cursor.Agree.of_shows {c d : Cursor} {docs : List (Option String)} (hc : c.Shows docs)
    (hd : d.Shows docs) : Agree docs.length c d :=
  fun _ hi => Option.some.inj ((hc.doc hi).symm.trans (hd.doc hi))

theorem Cursor.exists_shows (docs : List (Option String)) : ∃ c : Cursor, c.Shows docs := by
  cases docs with
  | nil => exact ⟨.ofTokens [], [], _, rfl, rfl⟩
  | cons doc docs =>
    refine ⟨⟨none, ⟨.eof, default, doc, false⟩, docs.map fun doc => ⟨.eof, default, doc, false⟩⟩,
      _, [], (List.append_nil _).symm, ?_⟩
    simp [Cursor.tokens, Function.comp_def]

/-- The first of some pieces and the others, if there are any. -/
theorem Cursor.Agree.separated {c d : Cursor} {piece : List Kind} {pieces : List (List Kind)}
    (h : Agree (Script.separated (piece :: pieces)).length c d) :
    Agree piece.length c d ∧ (pieces = [] ∨
      Agree (Script.separated pieces).length (c.after piece.length).next
        (d.after piece.length).next) := by
  refine ⟨h.mono (Parser.length_le_of_mem List.mem_cons_self), ?_⟩
  cases pieces with
  | nil => exact .inl rfl
  | cons other pieces =>
    rw [Script.separated, List.length_append, List.length_cons] at h
    · exact .inr ((h.after piece.length (Nat.le_refl _)).next (Nat.lt_succ_self _))
    · simp

mutual

theorem Expr.documented_congr : ∀ (e : Expr) {c d : Cursor}, Cursor.Agree e.text.length c d →
    e.documented c = e.documented d
  | .string .., _, _, _ | .number .., _, _, _ | .bool .., _, _, _ | .null .., _, _, _
  | .template .., _, _, _ | .regex .., _, _, _ | .ident .., _, _, _ | .index .., _, _, _
  | .construct .., _, _, _ | .function _ (.returning _) _, _, _, _ | .function _ .block _, _, _, _
  | .unary .., _, _, _ | .binary .., _, _, _ | .conditional .., _, _, _ => rfl
  | .member object .., c, d, h => by
    rw [Expr.text, List.length_append] at h
    have hobject := h.mono (Nat.le_add_right _ _)
    rw [Expr.documented, Expr.documented, Expr.documented_congr object hobject.atOperand]
  | .call callee args _, c, d, h => by
    rw [Expr.text, List.length_append, length_parens] at h
    have hcallee := h.mono (Nat.le_add_right _ _)
    have hargs := (h.after _ (Nat.le_refl _)).next (Nat.lt_succ_of_lt (Nat.lt_succ_self _))
    rw [Expr.documented, Expr.documented, Expr.documented_congr callee hcallee.atOperand,
      Expr.documenteds_congr args hargs]
  | .array elements _, c, d, h => by
    rw [Expr.text, length_brackets] at h
    have helements := h.next (Nat.lt_succ_of_lt (Nat.lt_succ_self _))
    rw [Expr.documented, Expr.documented, Expr.documenteds_congr elements helements]
  | .object properties _, c, d, h => by
    rw [Expr.text, length_braces] at h
    have hproperties := h.next (Nat.lt_succ_of_lt (Nat.lt_succ_self _))
    rw [Expr.documented, Expr.documented, Property.documenteds_congr properties hproperties]
  | .function params (.expression body) _, c, d, h => by
    have hbody : Cursor.Agree (asBody body.text).length (c.after (arrowText params).length)
        (d.after (arrowText params).length) := by
      refine h.after _ ?_
      simp [Expr.text, arrowText]
      omega
    rw [Expr.documented, Expr.documented, Expr.documented_congr body hbody.atBody]
  | .spread arg _, c, d, h => by
    rw [Expr.documented, Expr.documented, Expr.documented_congr arg (h.next (Nat.lt_succ_self _))]

theorem Expr.documenteds_congr : ∀ (es : List Expr) {c d : Cursor},
    Cursor.Agree (separated (Expr.texts es)).length c d →
      Expr.documenteds es c = Expr.documenteds es d
  | [], _, _, _ => rfl
  | e :: es, c, d, h => by
    obtain ⟨hfirst, hnil | hothers⟩ := Cursor.Agree.separated h
    · obtain rfl : es = [] := by simpa using hnil
      rw [Expr.documenteds, Expr.documenteds, Expr.documented_congr e hfirst]
      rfl
    · rw [Expr.documenteds, Expr.documenteds, Expr.documented_congr e hfirst,
        Expr.documenteds_congr es hothers]

theorem Property.documented_congr : ∀ (p : Property) {c d : Cursor},
    Cursor.Agree p.text.length c d → p.documented c = p.documented d
  | .keyed key value .., c, d, h => by
    rw [Property.text, List.length_append, List.length_cons] at h
    have hkey := h.mono (Nat.le_add_right _ _)
    have hvalue := (h.after _ (Nat.le_refl _)).next (Nat.lt_succ_self _)
    rw [Property.documented, Property.documented, Key.documented_congr key hkey,
      Expr.documented_congr value hvalue, h.doc (by omega)]
  | .shorthand .., c, d, h => by
    rw [Property.documented, Property.documented, h.doc Nat.one_pos]
  | .spread arg .., c, d, h => by
    rw [Property.documented, Property.documented, h.doc (Nat.succ_pos _),
      Expr.documented_congr arg (h.next (Nat.lt_succ_self _))]
  | .method .., _, _, _ => rfl

theorem Property.documenteds_congr : ∀ (ps : List Property) {c d : Cursor},
    Cursor.Agree (separated (Property.texts ps)).length c d →
      Property.documenteds ps c = Property.documenteds ps d
  | [], _, _, _ => rfl
  | p :: ps, c, d, h => by
    obtain ⟨hfirst, hnil | hothers⟩ := Cursor.Agree.separated h
    · obtain rfl : ps = [] := by simpa using hnil
      rw [Property.documenteds, Property.documenteds, Property.documented_congr p hfirst]
      rfl
    · rw [Property.documenteds, Property.documenteds, Property.documented_congr p hfirst,
        Property.documenteds_congr ps hothers]

theorem Key.documented_congr : ∀ (k : Key) {c d : Cursor}, Cursor.Agree k.text.length c d →
    k.documented c = k.documented d
  | .name .., _, _, _ | .string .., _, _, _ | .number .., _, _, _ => rfl
  | .computed key, c, d, h => by
    rw [Key.text, length_brackets] at h
    have hkey := h.next (Nat.lt_succ_of_lt (Nat.lt_succ_self _))
    rw [Key.documented, Key.documented, Expr.documented_congr key hkey]

end

end CodecDocs.Script
