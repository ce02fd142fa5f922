import CodecDocs.Proofs.Evaluation.Depth

/-! Object literals. Each property of a literal writes entries, or removes one: a property with a
value writes its own key, or removes it where the value is undefined, and a spread writes all keys
of the object that it stands for. The last one to write a key decides what becomes of it. -/

namespace CodecDocs

open Eval
open Script (Expr Property)

/-! ### What is written under a key -/

/-- What is written under one key. -/
inductive Writing where
  | entry (schema : Schema) (required : Bool)
  | removal

namespace Writing

def schema? : Writing → Option Schema
  | .entry schema _ => some schema
  | .removal => none

def isRequired : Writing → Bool
  | .entry _ required => required
  | .removal => false

end Writing

/-- What an object writes under a key. -/
def Schema.writing? (key : String) : Schema → Option Writing
  | .object properties required _ =>
    (Table.get? properties key).map fun schema => .entry schema (required.contains key)
  | _ => none

namespace Setting

variable (s : Setting) (id : String) (session : Session) (key : String)

/-- What an expression stands for. -/
def standsFor (e : Expr) : Except Fault Schema := ((do s.deref (← s.evaluate e id)) session).1

/-- What a property of an object literal writes under a key. -/
def writing? : Property → Option Writing
  | .keyed k value doc _ =>
    if k.name? = some key then
      match (s.evaluate value id session).1 with
      | .ok schema => some (.entry (schema.withComment (doc.bind DocComment.parse)) true)
      | .error e => if e.isUndefined then some .removal else none
    else none
  | .shorthand name _ span =>
    (s.standsFor id session (.ident name span)).toOption.bind (·.writing? key)
  | .spread arg _ _ => (s.standsFor id session arg).toOption.bind (·.writing? key)
  | .method .. => none

/-- A property that says what it writes: one with a value writes its own key, and any other one
stands for an object. -/
def Writes : Property → Prop
  | .keyed k value doc span =>
    ∃ name, k.name? = some name ∧ (s.writing? id session name (.keyed k value doc span)).isSome
  | .shorthand name _ span =>
    ∃ properties required notes,
      s.standsFor id session (.ident name span) = .ok (.object properties required notes)
  | .spread arg _ _ =>
    ∃ properties required notes,
      s.standsFor id session arg = .ok (.object properties required notes)
  | .method .. => False

/-- What the last one of properties that write a key writes there. -/
def lastWriting? (ps : List Property) : Option Writing :=
  (ps.filterMap (s.writing? id session key)).getLast?

end Setting

/-! ### Drafts -/

namespace Draft

/-- A draft has under a key what was written there last. -/
structure Shows (d : Draft) (key : String) (last : Option Writing) : Prop where
  property : d.properties.get? key = last.bind Writing.schema?
  required : key ∈ d.required ↔ last.any Writing.isRequired = true

variable {d : Draft} {key : String} {last : Option Writing}

theorem shows_empty (key : String) : empty.Shows key none := ⟨rfl, by simp [empty]⟩

theorem Shows.write (h : d.Shows key last) (name : String) (schema : Schema) :
    (d.write name schema).Shows key
      ((if name = key then some (.entry schema true) else none).or last) where
  property := by
    rw [Draft.write, Table.get?_insert, h.property]
    split_ifs <;> rfl
  required := by
    rw [Draft.write, Names.mem_add, h.required]
    split_ifs with hk
    · simp [hk, Writing.isRequired]
    · simp [Ne.symm hk]

theorem Shows.erase (h : d.Shows key last) (name : String) :
    (d.erase name).Shows key ((if name = key then some .removal else none).or last) where
  property := by
    rw [Draft.erase, Table.get?_erase, h.property]
    split_ifs <;> rfl
  required := by
    rw [Draft.erase, Names.mem_remove, h.required]
    split_ifs with hk
    · simp [hk, Writing.isRequired]
    · simp [Ne.symm hk]

theorem properties_spread (d : Draft) (properties : Table String Schema) (required : Names) :
    (d.spread properties required).properties = d.properties.extend properties := by
  unfold spread
  induction properties generalizing d with
  | nil => rfl
  | cons p properties ih => rw [List.foldl_cons, ih, Table.extend_cons]

theorem mem_required_spread (d : Draft) (properties : Table String Schema) (required : Names) :
    key ∈ (d.spread properties required).required ↔
      if properties.has key then key ∈ required else key ∈ d.required := by
  unfold spread
  induction properties generalizing d with
  | nil => rfl
  | cons p properties ih =>
    have hfirst : key ∈ (if required.contains p.1 then d.required.add p.1
        else d.required.remove p.1) ↔ if p.1 = key then key ∈ required else key ∈ d.required := by
      grind [Names.mem_add, Names.mem_remove]
    rw [List.foldl_cons, ih, hfirst, Table.has, Table.has, Table.get?]
    split_ifs <;> simp_all

/-- What a spread object has under a key takes the place of what was there. -/
theorem Shows.spread (h : d.Shows key last) {properties : Table String Schema}
    (hp : properties.Distinct) (required : Names) (notes : Notes) :
    (d.spread properties required).Shows key
      (((Schema.object properties required notes).writing? key).or last) where
  property := by
    rw [properties_spread, Table.get?_extend hp, h.property, Schema.writing?]
    cases properties.get? key <;> rfl
  required := by
    rw [mem_required_spread, h.required, Schema.writing?, Table.has]
    cases properties.get? key <;> simp [Writing.isRequired]

/-- What is required is there: nothing of it is left out of the schema. -/
theorem Shows.mem_required (h : d.Shows key last) :
    key ∈ d.required.filter d.properties.has ↔ last.any Writing.isRequired = true := by
  rw [List.mem_filter, h.required, Table.has, h.property]
  refine and_iff_left_of_imp fun hr => ?_
  obtain ⟨w, rfl, hw⟩ := (Option.any_eq_true _ _).mp hr
  cases w with
  | entry schema required => rfl
  | removal => cases hw

end Draft

/-! ### Properties -/

namespace Setting

variable {s : Setting} {id : String} {E : List Target} {key : String} {last : Option Writing}
  {d d' : Draft}

theorem standsFor_eq (s : Setting) (id : String) (E : List Target) (asked asked' : List Query)
    (e : Expr) : s.standsFor id ⟨E, asked⟩ e = s.standsFor id ⟨E, asked'⟩ e :=
  ((s.steady_evaluate e id).bind s.steady_deref).outcome_eq E asked asked'

/-- What a property writes does not depend on questions asked earlier. -/
theorem writing?_eq (s : Setting) (id : String) (E : List Target) (asked asked' : List Query)
    (key : String) (p : Property) :
    s.writing? id ⟨E, asked⟩ key p = s.writing? id ⟨E, asked'⟩ key p := by
  cases p with
  | keyed k value doc span =>
    rw [writing?, writing?, (s.steady_evaluate value id).outcome_eq E asked asked']
  | shorthand name doc span => rw [writing?, writing?, s.standsFor_eq id E asked asked']
  | spread arg doc span => rw [writing?, writing?, s.standsFor_eq id E asked asked']
  | method name doc span => rfl

theorem Writes.of_asked {asked : List Query} {p : Property} (h : s.Writes id ⟨E, asked⟩ p)
    (asked' : List Query) : s.Writes id ⟨E, asked'⟩ p := by
  cases p with
  | keyed k value doc span =>
    obtain ⟨name, hk, hw⟩ := h
    exact ⟨name, hk, s.writing?_eq id E asked asked' name _ ▸ hw⟩
  | shorthand name doc span =>
    obtain ⟨properties, required, notes, ho⟩ := h
    exact ⟨properties, required, notes, s.standsFor_eq id E asked asked' _ ▸ ho⟩
  | spread arg doc span =>
    obtain ⟨properties, required, notes, ho⟩ := h
    exact ⟨properties, required, notes, s.standsFor_eq id E asked asked' _ ▸ ho⟩
  | method name doc span => exact h

/-- From one draft to the next, a property writes what it writes. -/
structure Step (s : Setting) (id : String) (session : Session) (p : Property) (d d' : Draft) :
    Prop where
  writes : s.Writes id session p
  shows : ∀ {key last}, d.Shows key last →
    d'.Shows key ((s.writing? id session key p).or last)

/-- A property with a value writes its key, or removes it. -/
theorem step_of_writeKeyed {k : Script.Key} {name : String} (hk : k.name? = some name)
    {value : Expr} {doc : Option String} (span : Span) {session after : Session}
    (h : writeKeyed d name doc (s.evaluate value id) session = (.ok d', after)) :
    s.Step id session (.keyed k value doc span) d d' := by
  rw [writeKeyed, bind_of_ok (observe_apply _ _)] at h
  cases ho : (s.evaluate value id session).1 with
  | ok schema =>
    rw [ho] at h
    cases h
    refine ⟨⟨name, hk, by rw [writing?, if_pos hk, ho]; rfl⟩, fun hd => ?_⟩
    rw [writing?, hk, ho]
    simpa only [Option.some.injEq] using hd.write name _
  | error e =>
    rw [ho] at h
    by_cases he : e.isUndefined
    · simp only [if_pos he] at h
      cases h
      refine ⟨⟨name, hk, by rw [writing?, if_pos hk, ho]; simp [he]⟩, fun hd => ?_⟩
      rw [writing?, hk, ho]
      simpa only [Option.some.injEq, if_pos he] using hd.erase name
    · simp only [if_neg he] at h
      cases h

/-- What is spread is the object that an expression stands for. -/
theorem exists_of_spreadInto (hs : s.Keyed) {n : ℕ} (hn : n ≤ s.depthBound) {e : Expr}
    {schema : Schema} {asked more : List Query}
    (he : s.evaluate e id ⟨E, asked⟩ = (.ok schema, ⟨E, more⟩)) {span : Span} {after : Session}
    (h : s.spreadInto (s.beyond n) id d span schema ⟨E, more⟩ = (.ok d', after)) :
    ∃ (properties : Table String Schema) (required : Names) (notes : Notes),
      s.standsFor id ⟨E, asked⟩ e = .ok (.object properties required notes) ∧
      properties.Distinct ∧ d' = d.spread properties required := by
  obtain ⟨found, mid, hfound, hrest⟩ := exists_of_bind_ok (congrArg Prod.fst h)
  have hschema := keyed_of_evaluate hs (congrArg Prod.fst he)
  have hderef : (s.deref schema ⟨E, more⟩).1 = .ok found ∧ found.Keyed :=
    ((approximates_beyond hs hn (.inr trivial) (.refl .deeper E)).2 schema hschema).result
      (congrArg Prod.fst (ok_of_within hfound))
  cases found with
  | object properties required notes =>
    cases hrest
    exact ⟨properties, required, notes, by rw [standsFor, bind_of_ok he, hderef.1],
      hderef.2.own.1, rfl⟩
  | _ => cases hrest

/-- One property takes its step, and the rest of the literal goes on from there. -/
theorem exists_of_draft_cons (hs : s.Keyed) {n : ℕ} (hn : s.depthBound = n + 1) {p : Property}
    {rest : List Property} {asked : List Query}
    (h : (s.draft (s.beyond n) id (p :: rest) d ⟨E, asked⟩).1 = .ok d') :
    ∃ next more, s.Step id ⟨E, asked⟩ p d next ∧
      (s.draft (s.beyond n) id rest next ⟨E, more⟩).1 = .ok d' := by
  have hevaluate : ∀ e, s.evaluate e id = s.within id e.span (s.form (s.beyond n) id e) := by
    intro e
    rw [evaluate, hn]
    rfl
  have hspread : ∀ {e : Expr} {span : Span},
      ((do
        let schema ← s.evaluate e id
        s.draft (s.beyond n) id rest (← s.spreadInto (s.beyond n) id d span schema)) ⟨E, asked⟩).1 =
          .ok d' →
      ∃ (properties : Table String Schema) (required : Names) (notes : Notes) (more : List Query),
        s.standsFor id ⟨E, asked⟩ e = .ok (.object properties required notes) ∧
        properties.Distinct ∧
        (s.draft (s.beyond n) id rest (d.spread properties required) ⟨E, more⟩).1 = .ok d' := by
    intro e span h
    obtain ⟨schema, between, hschema, h⟩ := (s.steady_evaluate e id).exists_of_ok h
    obtain ⟨next, more, hnext, h⟩ :=
      (s.steady_spreadInto (s.steady_beyond n) id d span schema).exists_of_ok h
    obtain ⟨properties, required, notes, ho, hp, rfl⟩ :=
      exists_of_spreadInto hs (by omega) hschema hnext
    exact ⟨properties, required, notes, more, ho, hp, h⟩
  cases p with
  | keyed k value doc span =>
    rw [draft, ← hevaluate] at h
    cases hk : k.name? with
    | none =>
      rw [hk] at h
      cases h
    | some name =>
      rw [hk] at h
      obtain ⟨next, more, hnext, h⟩ :=
        (steady_writeKeyed d name doc (s.steady_evaluate value id)).exists_of_ok h
      exact ⟨next, more, step_of_writeKeyed hk span hnext, h⟩
  | shorthand name doc span =>
    rw [draft] at h
    obtain ⟨properties, required, notes, more, ho, hp, h⟩ :=
      hspread (e := .ident name span) (by rw [hevaluate]; exact h)
    refine ⟨_, more, ⟨⟨properties, required, notes, ho⟩, fun hd => ?_⟩, h⟩
    rw [writing?, ho]
    exact hd.spread hp required notes
  | spread arg doc span =>
    rw [draft, ← hevaluate] at h
    obtain ⟨properties, required, notes, more, ho, hp, h⟩ := hspread h
    refine ⟨_, more, ⟨⟨properties, required, notes, ho⟩, fun hd => ?_⟩, h⟩
    rw [writing?, ho]
    exact hd.spread hp required notes
  | method name doc span => cases h

theorem lastWriting?_cons (s : Setting) (id : String) (session : Session) (key : String)
    (p : Property) (ps : List Property) (last : Option Writing) :
    (s.lastWriting? id session key (p :: ps)).or last =
      (s.lastWriting? id session key ps).or ((s.writing? id session key p).or last) := by
  unfold lastWriting?
  cases hp : s.writing? id session key p with
  | none => rw [List.filterMap_cons_none hp, Option.none_or]
  | some w =>
    rw [List.filterMap_cons_some hp, List.getLast?_cons]
    cases (ps.filterMap (s.writing? id session key)).getLast? <;> rfl

/-- All properties of a literal say what they write, by induction on them. -/
theorem writes_of_draft (hs : s.Keyed) {n : ℕ} (hn : s.depthBound = n + 1) {ps : List Property}
    {asked : List Query} (h : (s.draft (s.beyond n) id ps d ⟨E, asked⟩).1 = .ok d')
    (before : List Query) : ∀ p ∈ ps, s.Writes id ⟨E, before⟩ p := by
  induction ps generalizing d asked with
  | nil => simp
  | cons p ps ih =>
    obtain ⟨next, more, hstep, h⟩ := exists_of_draft_cons hs hn h
    exact List.forall_mem_cons.mpr ⟨hstep.writes.of_asked before, ih h⟩

/-- A whole literal has under a key what was written there last, by induction on its properties. -/
theorem shows_of_draft (hs : s.Keyed) {n : ℕ} (hn : s.depthBound = n + 1) {ps : List Property}
    {asked : List Query} (hd : d.Shows key last)
    (h : (s.draft (s.beyond n) id ps d ⟨E, asked⟩).1 = .ok d') (before : List Query) :
    d'.Shows key ((s.lastWriting? id ⟨E, before⟩ key ps).or last) := by
  induction ps generalizing d last asked with
  | nil =>
    cases h
    exact hd
  | cons p ps ih =>
    obtain ⟨next, more, hstep, h⟩ := exists_of_draft_cons hs hn h
    rw [lastWriting?_cons]
    refine ih ?_ h
    rw [s.writing?_eq id E before asked]
    exact hstep.shows hd

/-- In an object literal that has a schema each property says what it writes, and the last one to
write a key decides whether the schema has it, with what schema, and whether it is required. -/
theorem object_last_writer (hs : s.Keyed) {ps : List Property} {span : Span} {id : String}
    {session : Session} {schema : Schema}
    (h : (s.evaluate (.object ps span) id session).1 = .ok schema) :
    (∀ p ∈ ps, s.Writes id session p) ∧ ∃ (properties : Table String Schema) (required : Names),
      schema = .object properties required .none ∧ properties.Distinct ∧ required.Nodup ∧
      ∀ key,
        properties.get? key = (s.lastWriting? id session key ps).bind Writing.schema? ∧
        (key ∈ required ↔
          (s.lastWriting? id session key ps).any Writing.isRequired = true) := by
  have hbound := s.space_le_depthBound []
  obtain ⟨n, hn⟩ : ∃ n, s.depthBound = n + 1 := ⟨s.depthBound - 1, by omega⟩
  have hkeyed := keyed_of_evaluate hs h
  rw [evaluate, hn] at h
  have hform : s.form (s.beyond n) id (.object ps span) session = (.ok schema, _) :=
    ok_of_within (Prod.ext h rfl)
  obtain ⟨d, mid, hdraft, hschema⟩ := exists_of_bind_ok (congrArg Prod.fst hform)
  cases hschema
  replace hdraft := congrArg Prod.fst hdraft
  refine ⟨writes_of_draft hs hn hdraft session.asked, _, _, rfl, hkeyed.own.1, hkeyed.own.2.1, ?_⟩
  intro key
  have hshows := shows_of_draft hs hn (Draft.shows_empty key) hdraft session.asked
  rw [Option.or_none] at hshows
  exact ⟨hshows.property, hshows.mem_required⟩

end Setting

/-- An object whose properties are optional and one whose property is required. -/
def layerSources : List (String × String) :=
  [("base.ts", "import * as t from 'io-ts'; " ++
    "const base = t.partial({ a: t.string, b: t.number }); const own = t.type({ c: t.string })")]

/-- An entry that a spread makes optional, one that is written again, and one that is removed. -/
def layers : List Property :=
  let span : Span := default
  [.keyed (.name "a") (.string "first" span) none span,
    .spread (.ident "base" span) none span,
    .keyed (.string "b") (.string "last" span) (some "/** Kept. */") span,
    .shorthand "own" none span,
    .keyed (.name "c") (.unary .void (.null span) span) none span]

theorem Setting.object_last_writer_layers :
    ∃ p, Project.ofSources layerSources = .ok p ∧ (Setting.mk p .builtin none).Keyed ∧
      (∀ property ∈ layers, (Setting.mk p .builtin none).Writes "base.ts" .start property) ∧
      ∃ (properties : Table String Schema) (required : Names),
        ((Setting.mk p .builtin none).evaluate (.object layers default) "base.ts" .start).1 =
          .ok (.object properties required .none) ∧
        properties.keys = ["a", "b"] ∧ required = ["b"] ∧
        ∀ key,
          properties.get? key = ((Setting.mk p .builtin none).lastWriting? "base.ts" .start key
            layers).bind Writing.schema? ∧
          (key ∈ required ↔ ((Setting.mk p .builtin none).lastWriting? "base.ts" .start key
            layers).any Writing.isRequired = true) := by
  have hrun : ((Project.ofSources layerSources).toOption.bind fun p => do
      let schema ←
        ((Setting.mk p .builtin none).evaluate (.object layers default) "base.ts" .start).1.toOption
      return match schema with
        | .object properties required _ => (Table.keys properties, required)
        | _ => ([], [])) = some (["a", "b"], ["b"]) := by decide +kernel
  obtain ⟨p, hp, hrun⟩ := Option.bind_eq_some_iff.mp hrun
  obtain ⟨schema, hschema, hparts⟩ := Option.bind_eq_some_iff.mp hrun
  replace hparts := Option.some.inj hparts
  have hs := keyed_builtin p
  obtain ⟨hwrites, properties, required, rfl, -, -, hlast⟩ :=
    object_last_writer hs (ok_of_toOption hschema)
  exact ⟨p, ok_of_toOption hp, hs, hwrites, properties, required, ok_of_toOption hschema,
    congrArg Prod.fst hparts, congrArg Prod.snd hparts, hlast⟩

end CodecDocs
