import CodecDocs.Schema.Canonical
import CodecDocs.Proofs.Table

/-! The nodes of a schema: the schema itself and everything that stands inside of it. Statements
about every depth of a schema are statements about its nodes, and proofs of them go by induction
with one case for each kind of schema and hypotheses for its children. -/

namespace CodecDocs.Schema

/-- The schemas that stand immediately inside of a schema. -/
def children : Schema → List Schema
  | .array items _ => [items]
  | .object properties _ _ => properties.map Prod.snd
  | .record domain codomain _ => domain.toList ++ [codomain]
  | .union members _ | .intersection members _ | .tuple members _ => members
  | .primitive .. | .reference .. | .any _ | .undefined _ => []

@[simp] theorem children_array (s : Schema) (n : Notes) : (array s n).children = [s] := rfl

@[simp] theorem children_object (ps : List (String × Schema)) (rs : List String) (n : Notes) :
    (object ps rs n).children = ps.map Prod.snd := rfl

@[simp] theorem children_record (d : Option Schema) (c : Schema) (n : Notes) :
    (record d c n).children = d.toList ++ [c] := rfl

@[simp] theorem children_union (ms : List Schema) (n : Notes) : (union ms n).children = ms := rfl

@[simp] theorem children_intersection (ms : List Schema) (n : Notes) :
    (intersection ms n).children = ms := rfl

@[simp] theorem children_tuple (ms : List Schema) (n : Notes) : (tuple ms n).children = ms := rfl

@[simp] theorem children_primitive (kind : Primitive) (values : Option (List Literal)) (n : Notes) :
    (primitive kind values n).children = [] := rfl

@[simp] theorem children_undefined (n : Notes) : (undefined n).children = [] := rfl

mutual

/-- A schema and all schemas inside of it. -/
def nodes : Schema → List Schema
  | .array items notes => .array items notes :: items.nodes
  | .object properties required notes => .object properties required notes :: fieldNodes properties
  | .record none codomain notes => .record none codomain notes :: codomain.nodes
  | .record (some domain) codomain notes =>
    .record (some domain) codomain notes :: (domain.nodes ++ codomain.nodes)
  | .union members notes => .union members notes :: memberNodes members
  | .intersection members notes => .intersection members notes :: memberNodes members
  | .tuple members notes => .tuple members notes :: memberNodes members
  | .primitive kind values notes => [.primitive kind values notes]
  | .reference name origin notes => [.reference name origin notes]
  | .any notes => [.any notes]
  | .undefined notes => [.undefined notes]

def memberNodes : List Schema → List Schema
  | [] => []
  | member :: members => member.nodes ++ memberNodes members

def fieldNodes : List (String × Schema) → List Schema
  | [] => []
  | (_, schema) :: fields => schema.nodes ++ fieldNodes fields

end

/-- Induction on schemas, with a hypothesis for each child. -/
@[elab_as_elim, induction_eliminator]
theorem induction {motive : Schema → Prop}
    (primitive : ∀ kind values notes, motive (.primitive kind values notes))
    (array : ∀ items notes, motive items → motive (.array items notes))
    (object : ∀ properties required notes, (∀ p ∈ properties, motive p.2) →
      motive (.object properties required notes))
    (record : ∀ domain codomain notes, (∀ d ∈ domain, motive d) → motive codomain →
      motive (.record domain codomain notes))
    (union : ∀ members notes, (∀ m ∈ members, motive m) → motive (.union members notes))
    (intersection : ∀ members notes, (∀ m ∈ members, motive m) →
      motive (.intersection members notes))
    (tuple : ∀ members notes, (∀ m ∈ members, motive m) → motive (.tuple members notes))
    (reference : ∀ name origin notes, motive (.reference name origin notes))
    (any : ∀ notes, motive (.any notes))
    (undefined : ∀ notes, motive (.undefined notes)) (s : Schema) : motive s := by
  refine @Schema.rec motive (fun ps => ∀ p ∈ ps, motive p.2) (fun d => ∀ x ∈ d, motive x)
    (fun ms => ∀ m ∈ ms, motive m) (fun p => motive p.2) primitive array object record union
    intersection tuple reference any undefined ?_ ?_ ?_ ?_ ?_ ?_ ?_ s
  · simp
  · intro p ps hp hps q hq
    rcases List.mem_cons.mp hq with rfl | hq
    · exact hp
    · exact hps q hq
  · simp
  · intro x hx y hy
    cases hy
    exact hx
  · simp
  · intro m ms hm hms x hx
    rcases List.mem_cons.mp hx with rfl | hx
    · exact hm
    · exact hms x hx
  · intro _ s hs
    exact hs

/-- The same with one case for all kinds. -/
theorem induction_children {motive : Schema → Prop}
    (step : ∀ s, (∀ c ∈ s.children, motive c) → motive s) (s : Schema) : motive s := by
  induction s with
  | primitive | reference | any | undefined => exact step _ (by simp [children])
  | array s n ih => exact step _ (by simpa using ih)
  | object ps rs n ih => exact step _ (List.forall_mem_map.mpr ih)
  | union ms n ih | intersection ms n ih | tuple ms n ih => exact step _ ih
  | record d c n ihd ihc =>
    refine step _ fun x hx => ?_
    rcases List.mem_append.mp hx with hx | hx
    · exact ihd x (Option.mem_toList.mp hx)
    · exact List.mem_singleton.mp hx ▸ ihc

/-! ### Nodes and children -/

theorem memberNodes_eq (members : List Schema) : memberNodes members = members.flatMap nodes := by
  induction members with
  | nil => rfl
  | cons m ms ih => rw [memberNodes, ih, List.flatMap_cons]

theorem fieldNodes_eq (fields : List (String × Schema)) :
    fieldNodes fields = (fields.map Prod.snd).flatMap nodes := by
  induction fields with
  | nil => rfl
  | cons p ps ih => rw [fieldNodes, ih, List.map_cons, List.flatMap_cons]

theorem nodes_eq (s : Schema) : s.nodes = s :: s.children.flatMap nodes := by
  cases s with
  | object ps rs n => rw [nodes, fieldNodes_eq]; rfl
  | union ms n => rw [nodes, memberNodes_eq]; rfl
  | intersection ms n => rw [nodes, memberNodes_eq]; rfl
  | tuple ms n => rw [nodes, memberNodes_eq]; rfl
  | record d c n => cases d <;> simp [nodes, children]
  | _ => simp [nodes, children]

theorem mem_nodes {s t : Schema} : t ∈ s.nodes ↔ t = s ∨ ∃ c ∈ s.children, t ∈ c.nodes := by
  rw [nodes_eq, List.mem_cons, List.mem_flatMap]

theorem self_mem_nodes (s : Schema) : s ∈ s.nodes := mem_nodes.mpr (.inl rfl)

theorem mem_nodes_of_child {s t c : Schema} (hc : c ∈ s.children) (ht : t ∈ c.nodes) :
    t ∈ s.nodes := mem_nodes.mpr (.inr ⟨c, hc, ht⟩)

/-- What stands inside of a node stands inside of the schema. -/
theorem nodes_subset {s t : Schema} (h : t ∈ s.nodes) : t.nodes ⊆ s.nodes := by
  induction s using induction_children with
  | step s ih =>
    rcases mem_nodes.mp h with rfl | ⟨c, hc, ht⟩
    · exact List.Subset.refl _
    · exact fun u hu => mem_nodes_of_child hc (ih c hc ht hu)

/-- A property of all nodes is one of the schema itself and of all nodes of its children. -/
theorem forall_nodes {P : Schema → Prop} {s : Schema} :
    (∀ t ∈ s.nodes, P t) ↔ P s ∧ ∀ c ∈ s.children, ∀ t ∈ c.nodes, P t := by
  constructor
  · intro h
    exact ⟨h s s.self_mem_nodes, fun c hc t ht => h t (mem_nodes_of_child hc ht)⟩
  · rintro ⟨hs, hc⟩ t ht
    rcases mem_nodes.mp ht with rfl | ⟨c, hm, ht⟩
    · exact hs
    · exact hc c hm t ht

/-! ### Notes -/

@[simp] theorem children_withNotes (n : Notes) (s : Schema) :
    (s.withNotes n).children = s.children := by cases s <;> rfl

@[simp] theorem notes_withNotes (n : Notes) (s : Schema) : (s.withNotes n).notes = n := by
  cases s <;> rfl

theorem withNotes_notes (s : Schema) : s.withNotes s.notes = s := by cases s <;> rfl

@[simp] theorem withNotes_withNotes (n m : Notes) (s : Schema) :
    (s.withNotes n).withNotes m = s.withNotes m := by cases s <;> rfl

@[simp] theorem isUndefined_withNotes (n : Notes) (s : Schema) :
    (s.withNotes n).isUndefined = s.isUndefined := by cases s <;> rfl

@[simp] theorem children_inPlaceOf (n : Notes) (s : Schema) :
    (inPlaceOf n s).children = s.children := children_withNotes _ s

@[simp] theorem isUndefined_inPlaceOf (n : Notes) (s : Schema) :
    (inPlaceOf n s).isUndefined = s.isUndefined := isUndefined_withNotes _ s

/-! ### References -/

theorem memberReferences_eq (members : List Schema) :
    memberReferences members = members.flatMap references := by
  induction members with
  | nil => rfl
  | cons m ms ih => rw [memberReferences, ih, List.flatMap_cons]

theorem fieldReferences_eq (fields : List (String × Schema)) :
    fieldReferences fields = (fields.map Prod.snd).flatMap references := by
  induction fields with
  | nil => rfl
  | cons p ps ih => rw [fieldReferences, ih, List.map_cons, List.flatMap_cons]

/-- A reference to a name stands at some depth of a schema. -/
def Refers (s : Schema) (target : String × Origin) : Prop :=
  ∃ notes, .reference target.1 target.2 notes ∈ s.nodes

theorem refers_iff {s : Schema} {target : String × Origin} :
    s.Refers target ↔ (∃ notes, s = .reference target.1 target.2 notes) ∨
      ∃ c ∈ s.children, c.Refers target := by
  constructor
  · rintro ⟨n, h⟩
    rcases mem_nodes.mp h with rfl | ⟨c, hc, h⟩
    · exact .inl ⟨n, rfl⟩
    · exact .inr ⟨c, hc, n, h⟩
  · rintro (⟨n, rfl⟩ | ⟨c, hc, n, h⟩)
    · exact ⟨n, self_mem_nodes _⟩
    · exact ⟨n, mem_nodes_of_child hc h⟩

theorem refers_withNotes {n : Notes} {s : Schema} {target : String × Origin} :
    (s.withNotes n).Refers target ↔ s.Refers target := by
  rw [refers_iff, refers_iff (s := s), children_withNotes]
  refine or_congr_left ?_
  cases s <;> simp [withNotes]

theorem references_of_children {s : Schema}
    (h : ∀ name origin notes, s ≠ .reference name origin notes) :
    s.references = s.children.flatMap references := by
  cases s with
  | reference name origin notes => exact absurd rfl (h name origin notes)
  | object ps rs n => rw [references, fieldReferences_eq, children_object]
  | union ms n | intersection ms n | tuple ms n => rw [references, memberReferences_eq]; rfl
  | record d c n => cases d <;> simp [references]
  | _ => simp [references, children]

/-- The names that a schema is said to refer to are those of the references in it. -/
theorem mem_references {s : Schema} {target : String × Origin} :
    target ∈ s.references ↔ s.Refers target := by
  induction s using induction_children with
  | step s ih =>
    rw [refers_iff]
    by_cases h : ∃ name origin notes, s = .reference name origin notes
    · obtain ⟨name, origin, notes, rfl⟩ := h
      simp [references, children, Prod.ext_iff, eq_comm]
    · push Not at h
      rw [references_of_children h, List.mem_flatMap]
      constructor
      · rintro ⟨c, hc, ht⟩
        exact .inr ⟨c, hc, (ih c hc).mp ht⟩
      · rintro (⟨n, hn⟩ | ⟨c, hc, ht⟩)
        · exact absurd hn (h _ _ n)
        · exact ⟨c, hc, (ih c hc).mpr ht⟩

/-! ### The canonical form, child by child -/

theorem canonicalMembers_eq (members : List Schema) :
    canonicalMembers members = members.map canonical := by
  induction members with
  | nil => rfl
  | cons m ms ih => rw [canonicalMembers, ih, List.map_cons]

theorem canonicalFields_eq (fields : List (String × Schema)) :
    canonicalFields fields = fields.map fun p => (p.1, p.2.canonical) := by
  induction fields with
  | nil => rfl
  | cons p ps ih => rw [canonicalFields, ih, List.map_cons]

theorem canonical_array (s : Schema) (n : Notes) :
    (array s n).canonical = array s.canonical n := rfl

theorem canonical_record (d : Option Schema) (c : Schema) (n : Notes) :
    (record d c n).canonical = record (d.map canonical) c.canonical n := by cases d <;> rfl

theorem canonical_tuple (ms : List Schema) (n : Notes) :
    (tuple ms n).canonical = tuple (ms.map canonical) n := by
  rw [canonical, canonicalMembers_eq]

theorem children_canonical_record (d : Option Schema) (c : Schema) (n : Notes) :
    (record d c n).canonical.children = (record d c n).children.map canonical := by cases d <;> rfl

theorem canonical_object (ps : List (String × Schema)) (rs : List String) (n : Notes) :
    (object ps rs n).canonical = objectFrom (ps.map fun p => (p.1, p.2.canonical)) rs n := by
  rw [canonical, canonicalFields_eq]

theorem canonical_union (ms : List Schema) (n : Notes) :
    (union ms n).canonical = unionOf (ms.map canonical) n := by
  rw [canonical, canonicalMembers_eq]

theorem canonical_intersection (ms : List Schema) (n : Notes) :
    (intersection ms n).canonical = intersectionOf (ms.map canonical) n := by
  rw [canonical, canonicalMembers_eq]

end CodecDocs.Schema
