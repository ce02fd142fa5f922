import CodecDocs.Proofs.Schema.Keyed
import CodecDocs.Proofs.Wire
import Mathlib.Logic.Relation

/-! The schema positions of a wire form: the form itself and what stands under its keywords for
inner schemas, at every depth. A reference stands alone at its position and names a token, required
names are names of properties, and lists of alternatives and of parts have as many members as they
need. A schema that would be written as a reference but has notes becomes a list of parts with that
reference, wherever it stands.

The notes of a schema may bring any keyword but those that the positions are read off. -/

namespace CodecDocs

/-- The keywords that refer to another schema, or that hold inner schemas or say which of them must
be there. -/
def Wire.keywords : List String :=
  ["$ref", "allOf", "oneOf", "properties", "required", "items", "additionalProperties"]

/-- The annotations leave the keywords of the wire form itself alone. -/
def Notes.Additive (n : Notes) : Prop := ∀ key ∈ n.annotations.keys, key ∉ Wire.keywords

instance (n : Notes) : Decidable n.Additive :=
  inferInstanceAs (Decidable (∀ key ∈ n.annotations.keys, key ∉ Wire.keywords))

namespace Schema

def Additive (s : Schema) : Prop := ∀ t ∈ s.nodes, t.notes.Additive

instance (s : Schema) : Decidable s.Additive :=
  inferInstanceAs (Decidable (∀ t ∈ s.nodes, t.notes.Additive))

theorem additive_iff {s : Schema} :
    s.Additive ↔ s.notes.Additive ∧ ∀ c ∈ s.children, c.Additive := forall_nodes

/-- The children that the wire form shows: all but the domains of records. -/
def shownChildren : Schema → List Schema
  | .record _ codomain _ => [codomain]
  | .array items _ => [items]
  | .object properties _ _ => properties.map Prod.snd
  | .union members _ | .intersection members _ | .tuple members _ => members
  | .primitive .. | .reference .. | .any _ | .undefined _ => []

/-- A schema stands inside another one at a place that the wire form shows. -/
def Shows : Schema → Schema → Prop := Relation.ReflTransGen fun s c => c ∈ s.shownChildren

theorem children_of_shown {s c : Schema} (h : c ∈ s.shownChildren) : c ∈ s.children := by
  cases s with
  | record d c n =>
    rw [List.mem_singleton.mp h]
    simp
  | _ => exact h

theorem Additive.notes_of_shown {s t : Schema} (ha : s.Additive) (h : s.Shows t) :
    t.notes.Additive := by
  induction h using Relation.ReflTransGen.head_induction_on with
  | refl => exact (additive_iff.mp ha).1
  | head hc _ ih => exact ih ((additive_iff.mp ha).2 _ (children_of_shown hc))

end Schema

namespace Wire

open Relation (ReflTransGen)

/-! ### Positions -/

/-- What stands under a keyword for inner schemas. -/
inductive Holds (j : Json) : Json → Prop
  | property {properties : List (String × Json)} {name : String} {v : Json}
    (there : j.get? "properties" = some (.object properties)) (mem : (name, v) ∈ properties) :
    Holds j v
  | inner {keyword : String} {v : Json}
    (known : keyword = "items" ∨ keyword = "additionalProperties")
    (there : j.get? keyword = some v) : Holds j v
  | member {keyword : String} {members : List Json} {v : Json}
    (known : keyword = "oneOf" ∨ keyword = "allOf")
    (there : j.get? keyword = some (.array members)) (mem : v ∈ members) : Holds j v

/-- A value stands at a schema position of another one. -/
def Position : Json → Json → Prop := ReflTransGen Holds

/-- What is right about the object at a position; `Named` are the texts of references. -/
structure OwnFormed (Named : String → Prop) (j : Json) : Prop where
  fields : ∃ fields, j = .object fields
  ref : ∀ v, j.get? "$ref" = some v → ∃ text, Named text ∧ j = .object [("$ref", .string text)]
  required : ∀ v, j.get? "required" = some v → ∃ names properties,
    v = .array (names.map .string) ∧ names ≠ [] ∧ names.Nodup ∧
      j.get? "properties" = some (.object properties) ∧ ∀ name ∈ names, name ∈ Table.keys properties
  oneOf : ∀ v, j.get? "oneOf" = some v → ∃ members, v = .array members ∧ 2 ≤ members.length
  allOf : ∀ v, j.get? "allOf" = some v → ∃ members, v = .array members ∧ 1 ≤ members.length

/-- All positions are right. -/
def Formed (Named : String → Prop) (j : Json) : Prop := ∀ v, Position j v → OwnFormed Named v

variable {Named : String → Prop}

theorem formed_iff {j : Json} :
    Formed Named j ↔ OwnFormed Named j ∧ ∀ v, Holds j v → Formed Named v := by
  constructor
  · exact fun h => ⟨h j .refl, fun v hv u hu => h u (.head hv hu)⟩
  · rintro ⟨hj, hinner⟩ v hv
    rcases hv.cases_head with rfl | ⟨u, hu, hv⟩
    · exact hj
    · exact hinner u hu v hv

theorem Formed.mono {Other : String → Prop} {j : Json} (h : Formed Named j)
    (hi : ∀ text, Named text → Other text) : Formed Other j := by
  intro v hv
  obtain ⟨hfields, href, hrequired, honeOf, hallOf⟩ := h v hv
  refine ⟨hfields, fun u hu => ?_, hrequired, honeOf, hallOf⟩
  obtain ⟨text, ht, hj⟩ := href u hu
  exact ⟨text, hi text ht, hj⟩

/-! ### Objects with the same keywords -/

/-- Two tables have the same under the keywords that positions are read off. -/
def Alike (fields others : Table String Json) : Prop :=
  ∀ key ∈ keywords, fields.get? key = others.get? key

theorem Alike.trans {fields others more : Table String Json} (h : Alike fields others)
    (h' : Alike others more) : Alike fields more := fun key hk => (h key hk).trans (h' key hk)

theorem Alike.symm {fields others : Table String Json} (h : Alike fields others) :
    Alike others fields := fun key hk => (h key hk).symm

theorem Alike.holds {fields others : Table String Json} (h : Alike fields others) {v : Json}
    (hv : Holds (.object others) v) : Holds (.object fields) v := by
  cases hv with
  | property there mem => exact .property ((h "properties" (by decide)).trans there) mem
  | inner known there =>
    refine .inner known ((h _ ?_).trans there)
    rcases known with rfl | rfl <;> decide
  | member known there mem =>
    refine .member known ((h _ ?_).trans there) mem
    rcases known with rfl | rfl <;> decide

/-- Further keywords do no harm, except beside a reference. -/
theorem Alike.formed {fields others : Table String Json} (h : Alike fields others)
    (hr : others.get? "$ref" = none) (hf : Formed Named (.object others)) :
    Formed Named (.object fields) := by
  obtain ⟨hown, hinner⟩ := formed_iff.mp hf
  have hget : ∀ key ∈ keywords, Json.get? (.object fields) key = Json.get? (.object others) key := h
  refine formed_iff.mpr ⟨⟨⟨fields, rfl⟩, fun v hv => ?_, fun v hv => ?_, fun v hv => ?_,
    fun v hv => ?_⟩, fun v hv => hinner v (h.symm.holds hv)⟩
  · rw [hget _ (by decide)] at hv
    exact absurd hv (by simp [Json.get?, hr])
  · rw [hget _ (by decide)] at hv
    rw [hget "properties" (by decide)]
    exact hown.required v hv
  · exact hown.oneOf v (hget "oneOf" (by decide) ▸ hv)
  · exact hown.allOf v (hget "allOf" (by decide) ▸ hv)

/-! ### Notes -/

theorem keys_commentFields (comment : DocComment) {key : String}
    (h : key ∈ (commentFields comment).keys) : key ∉ keywords := by
  have hknown : ∀ tag ∈ "description" :: tagKeywords.map Prod.fst, tag ∉ keywords := by decide
  refine hknown key ?_
  rw [commentFields, Table.keys_append, List.mem_append] at h
  rcases h with h | h
  · split at h
    · rw [List.mem_singleton.mp h]
      exact List.mem_cons_self
    · cases h
  · obtain ⟨p, hp, rfl⟩ := List.mem_map.mp h
    obtain ⟨tag, ht, hp⟩ := List.mem_filterMap.mp hp
    obtain ⟨v, -, rfl⟩ := Option.map_eq_some_iff.mp hp
    exact List.mem_cons_of_mem _ (List.mem_map_of_mem ht)

/-- Notes write none of the keywords that positions are read off. -/
theorem alike_applyNotes {n : Notes} (hn : n.Additive) (fields : Table String Json) :
    Alike (applyNotes fields n) fields := by
  intro key hk
  have hannotations : key ∉ n.annotations.keys := fun h => hn key h hk
  unfold applyNotes
  rw [Table.get?_extend_of_not_mem hannotations]
  split
  · exact Table.get?_extend_of_not_mem fun h => keys_commentFields _ h hk
  · rfl

theorem applyNotes_of_isEmpty {n : Notes} (h : n.isEmpty = true) (fields : Table String Json) :
    applyNotes fields n = fields := by
  obtain ⟨comment, annotations⟩ := n
  simp only [Notes.isEmpty, Bool.and_eq_true, Option.isNone_iff_eq_none,
    List.isEmpty_iff] at h
  obtain ⟨rfl, rfl⟩ := h
  rfl

/-- Notes keep a position right when there is no reference for them to stand beside. -/
theorem formed_applyNotes {n : Notes} (hn : n.Additive) {fields : Table String Json}
    (hf : Formed Named (.object fields))
    (hr : n.isEmpty = false → fields.get? "$ref" = none) :
    Formed Named (.object (applyNotes fields n)) := by
  cases he : n.isEmpty with
  | true => rwa [applyNotes_of_isEmpty he]
  | false => exact (alike_applyNotes hn fields).formed (hr he) hf

/-! ### Wire forms from those of the children -/

/-- What stands under each of the keywords of an object, where all positions inside are right. The
keywords that a table does not have are passed over. -/
structure Parts (Named : String → Prop) (fields : Table String Json) : Prop where
  ref : ∀ v, fields.get? "$ref" = some v →
    ∃ text, Named text ∧ fields = [("$ref", .string text)] := by simp [Table.get?]
  properties : ∀ ps, fields.get? "properties" = some (.object ps) →
    ∀ p ∈ ps, Formed Named p.2 := by simp [Table.get?]
  required : ∀ v, fields.get? "required" = some v → ∃ names ps,
    v = .array (names.map .string) ∧ names ≠ [] ∧ names.Nodup ∧
      fields.get? "properties" = some (.object ps) ∧
      ∀ name ∈ names, name ∈ Table.keys ps := by simp [Table.get?]
  items : ∀ v, fields.get? "items" = some v → Formed Named v := by simp [Table.get?]
  additional : ∀ v, fields.get? "additionalProperties" = some v → Formed Named v := by
    simp [Table.get?]
  oneOf : ∀ v, fields.get? "oneOf" = some v → ∃ members, v = .array members ∧
    2 ≤ members.length ∧ ∀ m ∈ members, Formed Named m := by simp [Table.get?]
  allOf : ∀ v, fields.get? "allOf" = some v → ∃ members, v = .array members ∧
    1 ≤ members.length ∧ ∀ m ∈ members, Formed Named m := by simp [Table.get?]

theorem Parts.formed {fields : Table String Json} (h : Parts Named fields) :
    Formed Named (.object fields) := by
  refine formed_iff.mpr ⟨⟨⟨fields, rfl⟩, fun v hv => ?_, h.required, fun v hv => ?_,
    fun v hv => ?_⟩, fun v hv => ?_⟩
  · obtain ⟨text, ht, rfl⟩ := h.ref v hv
    exact ⟨text, ht, rfl⟩
  · obtain ⟨members, rfl, hl, -⟩ := h.oneOf v hv
    exact ⟨members, rfl, hl⟩
  · obtain ⟨members, rfl, hl, -⟩ := h.allOf v hv
    exact ⟨members, rfl, hl⟩
  · cases hv with
    | property there mem => exact h.properties _ there _ mem
    | inner known there =>
      rcases known with rfl | rfl
      · exact h.items v there
      · exact h.additional v there
    | member known there mem =>
      rcases known with rfl | rfl
      · obtain ⟨members, heq, -, hm⟩ := h.oneOf _ there
        exact hm v (Json.array.inj heq ▸ mem)
      · obtain ⟨members, heq, -, hm⟩ := h.allOf _ there
        exact hm v (Json.array.inj heq ▸ mem)

/-- A list of alternatives, or of parts. -/
theorem formed_members {keyword : String} {members : List (Table String Json)}
    (hk : keyword = "oneOf" ∧ 2 ≤ members.length ∨ keyword = "allOf" ∧ 1 ≤ members.length)
    (hm : ∀ fields ∈ members, Formed Named (.object fields)) :
    Formed Named (.object [(keyword, .array (members.map .object))]) := by
  have hall : ∀ m ∈ members.map Json.object, Formed Named m := List.forall_mem_map.mpr hm
  rcases hk with ⟨rfl, hl⟩ | ⟨rfl, hl⟩
  · exact Parts.formed { oneOf := by rintro _ ⟨⟩; exact ⟨_, rfl, by simpa using hl, hall⟩ }
  · exact Parts.formed { allOf := by rintro _ ⟨⟩; exact ⟨_, rfl, by simpa using hl, hall⟩ }

theorem formed_reference {text : String} (h : Named text) :
    Formed Named (.object [("$ref", .string text)]) :=
  Parts.formed { ref := fun _ _ => ⟨text, h, rfl⟩ }

/-- A reference is only wrapped, and only where notes would stand beside it. -/
theorem wrapReference_cases (fields : Table String Json) (n : Notes) :
    (wrapReference fields n = fields ∧ (n.isEmpty = true ∨ fields.get? "$ref" = none)) ∨
      n.isEmpty = false ∧ wrapReference fields n = [("allOf", .array [.object fields])] := by
  unfold wrapReference
  cases hn : n.isEmpty with
  | true => exact .inl ⟨rfl, .inl rfl⟩
  | false =>
    cases hr : fields.get? "$ref" with
    | none => exact .inl ⟨by simp [Table.has, hr], .inr rfl⟩
    | some v => exact .inr ⟨rfl, by simp [Table.has, hr]⟩

theorem formed_wrapReference {fields : Table String Json} (h : Formed Named (.object fields))
    (n : Notes) : Formed Named (.object (wrapReference fields n)) ∧
      (n.isEmpty = false → (wrapReference fields n).get? "$ref" = none) := by
  rcases wrapReference_cases fields n with ⟨heq, hr⟩ | ⟨-, heq⟩
  · rw [heq]
    exact ⟨h, fun he => hr.resolve_left (by simp [he])⟩
  · have hmembers : ∀ inner ∈ [fields], Formed Named (.object inner) := by simpa using h
    rw [heq]
    exact ⟨formed_members (.inr ⟨rfl, by simp⟩) hmembers, fun _ => rfl⟩

theorem formed_combined {keyword : String} (hk : keyword = "oneOf" ∨ keyword = "allOf")
    {members : List (Table String Json)} (hm : ∀ fields ∈ members, Formed Named (.object fields))
    {n : Notes} {fields : Table String Json} (h : combined keyword members n = some fields) :
    Formed Named (.object fields) ∧ (n.isEmpty = false → fields.get? "$ref" = none) := by
  match members, h with
  | [single], h =>
    cases h
    exact formed_wrapReference (hm single List.mem_cons_self) n
  | first :: second :: rest, h =>
    cases h
    have hlength : 2 ≤ (first :: second :: rest).length := by simp
    constructor
    · exact formed_members (hk.imp (⟨·, hlength⟩) (⟨·, by omega⟩)) hm
    · intro _
      rcases hk with rfl | rfl <;> rfl

theorem formed_tupleFields {members : List (Option (Table String Json))}
    (hm : ∀ fields ∈ members.filterMap id, Formed Named (.object fields)) :
    Formed Named (.object (tupleFields members)) := by
  unfold tupleFields
  dsimp only
  generalize members.filterMap id = present at hm
  match present, hm with
  | [], _ => exact Parts.formed {}
  | [single], hm =>
    exact Parts.formed { items := by rintro _ ⟨⟩; exact hm single List.mem_cons_self }
  | first :: second :: rest, hm =>
    have hmany := formed_members (.inl ⟨rfl, by simp⟩) hm
    exact Parts.formed { items := by rintro _ ⟨⟩; exact hmany }

theorem formed_objectFields {properties : Table String Json}
    (hp : ∀ p ∈ properties, Formed Named p.2) {required : Names} (hr : required.Nodup) :
    Formed Named (.object (objectFields properties required)) := by
  have hnodup : (required.filter properties.has).Nodup := hr.filter _
  have hthere : ∀ name ∈ required.filter properties.has, name ∈ properties.keys :=
    fun name hname => Table.has_iff.mp (List.of_mem_filter hname)
  unfold objectFields
  dsimp only
  generalize required.filter properties.has = needed at hnodup hthere
  cases needed with
  | nil => exact Parts.formed { properties := by rintro _ ⟨⟩; exact hp }
  | cons name needed =>
    exact Parts.formed
      { properties := by rintro _ ⟨⟩; exact hp
        required := by
          rintro _ ⟨⟩
          exact ⟨name :: needed, properties, rfl, by simp, hnodup, rfl, hthere⟩ }

theorem get?_tupleFields_ref (members : List (Option (Table String Json))) :
    (tupleFields members).get? "$ref" = none := by
  unfold tupleFields
  dsimp only
  split <;> rfl

theorem get?_objectFields_ref (properties : Table String Json) (required : Names) :
    (objectFields properties required).get? "$ref" = none := by
  unfold objectFields
  dsimp only
  split_ifs <;> rfl

theorem get?_primitiveFields_ref (kind : Primitive) (values : Option (List Literal)) :
    (primitiveFields kind values).get? "$ref" = none := by cases values <;> rfl

theorem formed_primitiveFields (kind : Primitive) (values : Option (List Literal)) :
    Formed Named (.object (primitiveFields kind values)) := by
  unfold primitiveFields
  cases values with
  | none => exact Parts.formed {}
  | some values => exact Parts.formed {}

/-! ### The whole -/

variable {w : Worklist}

/-- A text refers to the token of a name that a schema refers to, or to the name itself where it has
no token. -/
def Cites (w : Worklist) (s : Schema) (text : String) : Prop :=
  ∃ target, s.Refers target ∧ text = referenceText ((w.token? target).getD target.1)

/-- All positions of a wire form are right. -/
theorem formed_schemaFields {s : Schema} (hk : s.Keyed) (ha : s.Additive)
    {fields : Table String Json} (h : schemaFields w s = some fields) :
    Formed (Cites w s) (.object fields) := by
  induction s using Schema.induction_children generalizing fields with
  | step s ih =>
    obtain ⟨hn, hadditive⟩ := Schema.additive_iff.mp ha
    have hchild : ∀ c ∈ s.children, ∀ inner, schemaFields w c = some inner →
        Formed (Cites w s) (.object inner) := by
      intro c hc inner hi
      refine (ih c hc (hk.child hc) (hadditive c hc) hi).mono ?_
      rintro text ⟨target, ht, rfl⟩
      exact ⟨target, Schema.refers_iff.mpr (.inr ⟨c, hc, ht⟩), rfl⟩
    have hmembers : ∀ ms, s.children = ms →
        ∀ inner ∈ (memberFields w ms).filterMap id, Formed (Cites w s) (.object inner) := by
      rintro _ rfl inner hi
      rw [memberFields_eq, List.mem_filterMap] at hi
      obtain ⟨_, hc, rfl⟩ := hi
      obtain ⟨c, hc, hi⟩ := List.mem_map.mp hc
      exact hchild c hc inner hi
    cases s with
    | undefined => cases h
    | any n =>
      cases h
      exact formed_applyNotes hn (Parts.formed {}) fun _ => rfl
    | primitive kind values n =>
      cases h
      exact formed_applyNotes hn (formed_primitiveFields kind values)
        fun _ => get?_primitiveFields_ref kind values
    | reference name origin n =>
      cases h
      have hcites : Cites w (.reference name origin n)
          (referenceText ((w.token? (name, origin)).getD name)) :=
        ⟨(name, origin), ⟨n, Schema.self_mem_nodes _⟩, rfl⟩
      have hfields := formed_wrapReference (formed_reference hcites) n
      exact formed_applyNotes hn hfields.1 hfields.2
    | array items n =>
      obtain ⟨inner, hi, rfl⟩ := Option.map_eq_some_iff.mp h
      have hitems := hchild items List.mem_cons_self inner hi
      exact formed_applyNotes hn
        (Parts.formed { items := by rintro _ ⟨⟩; exact hitems }) fun _ => rfl
    | record domain codomain n =>
      obtain ⟨inner, hi, rfl⟩ := Option.map_eq_some_iff.mp h
      have hinner := hchild codomain (by simp) inner hi
      exact formed_applyNotes hn
        (Parts.formed { additional := by rintro _ ⟨⟩; exact hinner }) fun _ => rfl
    | tuple ms n =>
      cases h
      exact formed_applyNotes hn (formed_tupleFields (hmembers ms rfl))
        fun _ => get?_tupleFields_ref _
    | union ms n =>
      obtain ⟨inner, hi, rfl⟩ := Option.map_eq_some_iff.mp h
      have hfields := formed_combined (.inl rfl) (hmembers ms rfl) hi
      exact formed_applyNotes hn hfields.1 hfields.2
    | intersection ms n =>
      obtain ⟨inner, hi, rfl⟩ := Option.map_eq_some_iff.mp h
      have hfields := formed_combined (.inr rfl) (hmembers ms rfl) hi
      exact formed_applyNotes hn hfields.1 hfields.2
    | object ps rs n =>
      cases h
      have hproperties : ∀ p ∈ propertyFields w ps, Formed (Cites w (.object ps rs n)) p.2 := by
        intro p hp
        rw [propertyFields_eq, List.mem_filterMap] at hp
        obtain ⟨q, hq, hp⟩ := hp
        obtain ⟨inner, hi, rfl⟩ := Option.map_eq_some_iff.mp hp
        exact hchild q.2 (List.mem_map_of_mem hq) inner hi
      exact formed_applyNotes hn (formed_objectFields hproperties hk.own.2.1)
        fun _ => get?_objectFields_ref _ _

/-! ### References with notes -/

/-- An inner wire form stands at a position of the outer one, or the outer one is that form with
further keywords. -/
def Carries (fields inner : Table String Json) : Prop :=
  Position (.object fields) (.object inner) ∨ Alike fields inner

theorem carries_of_holds {n : Notes} (hn : n.Additive) {fields inner : Table String Json}
    (h : Holds (.object fields) (.object inner)) : Carries (applyNotes fields n) inner :=
  .inl (.single ((alike_applyNotes hn fields).holds h))

theorem carries_combined {keyword : String} (hk : keyword = "oneOf" ∨ keyword = "allOf")
    {members : List (Table String Json)} {inner : Table String Json} (hm : inner ∈ members)
    {n : Notes} (hn : n.Additive) : ∃ fields, combined keyword members n = some fields ∧
      Carries (applyNotes fields n) inner := by
  match members, hm with
  | [single], hm =>
    obtain rfl := List.mem_singleton.mp hm
    refine ⟨_, rfl, ?_⟩
    rcases wrapReference_cases inner n with ⟨heq, -⟩ | ⟨-, heq⟩
    · rw [heq]
      exact .inr (alike_applyNotes hn inner)
    · rw [heq]
      exact carries_of_holds hn (.member (.inr rfl) rfl List.mem_cons_self)
  | first :: second :: rest, hm =>
    refine ⟨_, rfl, carries_of_holds hn (.member hk ?_ (List.mem_map_of_mem hm))⟩
    simp [Json.get?, Table.get?]

theorem carries_tuple {members : List (Option (Table String Json))} {inner : Table String Json}
    (hm : inner ∈ members.filterMap id) {n : Notes} (hn : n.Additive) :
    Carries (applyNotes (tupleFields members) n) inner := by
  unfold tupleFields
  dsimp only
  generalize members.filterMap id = present at hm
  match present, hm with
  | [single], hm =>
    obtain rfl := List.mem_singleton.mp hm
    exact carries_of_holds hn (.inner (.inl rfl) rfl)
  | first :: second :: rest, hm =>
    -- the alternatives stand below a position of their own
    refine .inl (.head ((alike_applyNotes hn _).holds (.inner (.inl rfl) rfl)) (.single ?_))
    exact .member (.inl rfl) rfl (List.mem_map_of_mem hm)

/-- A schema shows the wire forms of the children that it shows. -/
theorem carries_child {s c : Schema} (hn : s.notes.Additive) (hc : c ∈ s.shownChildren)
    {inner : Table String Json} (hi : schemaFields w c = some inner) :
    ∃ fields, schemaFields w s = some fields ∧ Carries fields inner := by
  have hmembers : ∀ ms : List Schema, c ∈ ms → inner ∈ (memberFields w ms).filterMap id := by
    intro ms hc
    rw [memberFields_eq, List.mem_filterMap]
    exact ⟨some inner, hi ▸ List.mem_map_of_mem hc, rfl⟩
  cases s with
  | primitive | reference | any | undefined => cases hc
  | array items n =>
    obtain rfl := List.mem_singleton.mp hc
    rw [schemaFields, hi]
    exact ⟨_, rfl, carries_of_holds hn (.inner (.inl rfl) rfl)⟩
  | record domain codomain n =>
    obtain rfl := List.mem_singleton.mp hc
    rw [schemaFields, hi]
    exact ⟨_, rfl, carries_of_holds hn (.inner (.inr rfl) rfl)⟩
  | tuple ms n => exact ⟨_, rfl, carries_tuple (hmembers ms hc) hn⟩
  | union ms n =>
    obtain ⟨fields, hf, h⟩ := carries_combined (n := n) (.inl rfl) (hmembers ms hc) hn
    rw [schemaFields, hf]
    exact ⟨_, rfl, h⟩
  | intersection ms n =>
    obtain ⟨fields, hf, h⟩ := carries_combined (n := n) (.inr rfl) (hmembers ms hc) hn
    rw [schemaFields, hf]
    exact ⟨_, rfl, h⟩
  | object ps rs n =>
    obtain ⟨p, hp, rfl⟩ := List.mem_map.mp hc
    have hproperty : (p.1, .object inner) ∈ propertyFields w ps := by
      rw [propertyFields_eq, List.mem_filterMap]
      exact ⟨p, hp, by rw [hi, Option.map_some]⟩
    exact ⟨_, rfl, carries_of_holds hn (.property rfl hproperty)⟩

/-- What a schema shows stands at a position of its wire form, up to further keywords. -/
theorem exists_position {s t : Schema} (ha : s.Additive) (h : s.Shows t)
    {inner : Table String Json} (hi : schemaFields w t = some inner) :
    ∃ fields found, schemaFields w s = some fields ∧
      Position (.object fields) (.object found) ∧ Alike found inner := by
  induction h using Relation.ReflTransGen.head_induction_on with
  | refl => exact ⟨inner, inner, hi, .refl, fun _ _ => rfl⟩
  | @head s c hc _ ih =>
    obtain ⟨hn, hadditive⟩ := Schema.additive_iff.mp ha
    obtain ⟨below, found, hb, hp, hf⟩ := ih (hadditive c (Schema.children_of_shown hc))
    obtain ⟨fields, hs, hcarries⟩ := carries_child hn hc hb
    rcases hcarries with hposition | halike
    · exact ⟨fields, found, hs, hposition.trans hp, hf⟩
    · rcases hp.cases_head with heq | ⟨v, hv, hp⟩
      · rw [Json.object.inj heq] at halike
        exact ⟨fields, fields, hs, .refl, halike.trans hf⟩
      · exact ⟨fields, found, hs, .head (halike.holds hv) hp, hf⟩

/-- But for its notes a schema is written as a reference. -/
def StandsForReference (w : Worklist) (s : Schema) (text : Json) : Prop :=
  schemaFields w (s.withNotes .none) = some [("$ref", text)]

theorem combined_of_reference {keyword : String} (hk : keyword ≠ "$ref")
    {members : List (Table String Json)} {text : Json}
    (h : (combined keyword members .none).map (applyNotes · .none) = some [("$ref", text)]) :
    members = [[("$ref", text)]] := by
  match members, h with
  | [single], h => exact congrArg (fun fields => [fields]) (Option.some.inj h)
  | first :: second :: rest, h =>
    have hkey := congrArg (List.map Prod.fst) (Option.some.inj h)
    exact absurd (List.cons.inj hkey).1 hk

/-- With notes a reference goes into a list of parts. -/
theorem schemaFields_of_reference {s : Schema} {text : Json} (h : StandsForReference w s text)
    (he : s.notes.isEmpty = false) : schemaFields w s =
      some (applyNotes [("allOf", .array [.object [("$ref", text)]])] s.notes) := by
  have hwrap : ∀ n : Notes, n.isEmpty = false → wrapReference [("$ref", text)] n =
      [("allOf", .array [.object [("$ref", text)]])] := by
    intro n hn
    simp [wrapReference, hn, Table.has, Table.get?]
  have hother : ∀ fields : Table String Json, fields.get? "$ref" = none →
      some (applyNotes fields .none) ≠ some [("$ref", text)] := by
    intro fields hf h
    have hfound := congrArg (Table.get? · "$ref") (Option.some.inj h)
    rw [applyNotes_of_isEmpty rfl] at hfound
    exact absurd (hf.symm.trans hfound) (by simp [Table.get?])
  cases s with
  | reference name origin n =>
    have htext := congrArg (List.map Prod.snd) (Option.some.inj h)
    obtain rfl : _ = text := (List.cons.inj htext).1
    exact congrArg (fun fields => some (applyNotes fields n)) (hwrap n he)
  | union ms n =>
    have hmembers := combined_of_reference (by decide) h
    rw [schemaFields, hmembers]
    exact congrArg (fun fields => some (applyNotes fields n)) (hwrap n he)
  | intersection ms n =>
    have hmembers := combined_of_reference (by decide) h
    rw [schemaFields, hmembers]
    exact congrArg (fun fields => some (applyNotes fields n)) (hwrap n he)
  | undefined => cases h
  | any => exact absurd h (hother _ rfl)
  | primitive kind values n => exact absurd h (hother _ (get?_primitiveFields_ref kind values))
  | tuple ms n => exact absurd h (hother _ (get?_tupleFields_ref _))
  | object ps rs n => exact absurd h (hother _ (get?_objectFields_ref _ _))
  | array items n =>
    obtain ⟨inner, -, h⟩ := Option.map_eq_some_iff.mp h
    exact absurd (congrArg some h) (hother _ rfl)
  | record domain codomain n =>
    obtain ⟨inner, -, h⟩ := Option.map_eq_some_iff.mp h
    exact absurd (congrArg some h) (hother _ rfl)

/-- Wire forms are well formed. At every position a reference stands alone and names the token of
something that the schema refers to, required names are there, differ and name properties, and lists
of alternatives and of parts are long enough. A schema that is shown, has notes and would be written
as a reference without them is a list of parts with that reference. -/
theorem wire_wellFormed (w : Worklist) {s : Schema} (hk : s.Keyed) (ha : s.Additive) {j : Json}
    (h : schema? w s = some j) :
    (∀ v, Position j v → OwnFormed (Cites w s) v) ∧
    ∀ t text, s.Shows t → t.notes.isEmpty = false → StandsForReference w t text →
      ∃ v, Position j v ∧ v.get? "allOf" = some (.array [.object [("$ref", text)]]) ∧
        v.get? "$ref" = none := by
  obtain ⟨fields, hf, rfl⟩ := Option.map_eq_some_iff.mp h
  refine ⟨formed_schemaFields hk ha hf, fun t text ht he hr => ?_⟩
  obtain ⟨_, found, hs, hp, halike⟩ := exists_position ha ht (schemaFields_of_reference hr he)
  obtain rfl := Option.some.inj (hf.symm.trans hs)
  have hparts := halike.trans (alike_applyNotes (ha.notes_of_shown ht) _)
  exact ⟨.object found, hp, hparts "allOf" (by decide), hparts "$ref" (by decide)⟩

/-- A documented choice of a reference and nothing, beside a required property that has no wire
form. -/
def documentedReference : Schema :=
  .object
    [("next", .union [.reference "Tree" (.source "a.ts") .none, .undefined .none]
      ⟨some ⟨some "The next one.", none, []⟩, []⟩),
      ("gone", .undefined .none)]
    ["next", "gone"] .none

theorem wire_wellFormed_documentedReference :
    let w : Worklist := ⟨[(("Tree", .source "a.ts"), "Tree_2")], []⟩
    ∃ j, schema? w documentedReference = some j ∧
      (∀ v, Position j v → OwnFormed (Cites w documentedReference) v) ∧
      ∃ v, Position j v ∧ v.get? "allOf" =
        some (.array [.object [("$ref", .string "#/components/schemas/Tree_2")]]) := by
  intro w
  have hwire := wire_wellFormed w (s := documentedReference) (by decide) (by decide) rfl
  refine ⟨_, rfl, hwire.1, ?_⟩
  obtain ⟨v, hv, hall, -⟩ := hwire.2 _ (.string "#/components/schemas/Tree_2")
    (.single List.mem_cons_self) rfl rfl
  exact ⟨v, hv, hall⟩

end Wire

end CodecDocs
