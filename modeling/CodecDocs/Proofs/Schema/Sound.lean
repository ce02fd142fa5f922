import CodecDocs.Proofs.Schema.Nodes

/-! Sound schemas. At every depth an object requires only names that its properties bear, a
reference is to a name that may be referred to, and an intersection has members. Which names may be
referred to is left open, so that the laws serve for any choice. -/

namespace CodecDocs.Schema

variable {P : String × Origin → Prop}

/-- What a sound schema says of itself, apart from what stands inside of it. -/
def OwnSound (P : String × Origin → Prop) : Schema → Prop
  | .object properties required _ => ∀ name ∈ required, name ∈ Table.keys properties
  | .reference name origin _ => P (name, origin)
  | .intersection members _ => members ≠ []
  | _ => True

def Sound (P : String × Origin → Prop) (s : Schema) : Prop := ∀ t ∈ s.nodes, t.OwnSound P

theorem sound_iff {s : Schema} : s.Sound P ↔ s.OwnSound P ∧ ∀ c ∈ s.children, c.Sound P :=
  forall_nodes

theorem Sound.mono {Q : String × Origin → Prop} {s : Schema} (h : s.Sound P)
    (hpq : ∀ target, P target → Q target) : s.Sound Q := by
  intro t ht
  have := h t ht
  cases t with
  | reference name origin notes => exact hpq _ this
  | _ => exact this

theorem Sound.child {s c : Schema} (h : s.Sound P) (hc : c ∈ s.children) : c.Sound P :=
  (sound_iff.mp h).2 c hc

theorem sound_reference {name : String} {origin : Origin} {notes : Notes} :
    (reference name origin notes).Sound P ↔ P (name, origin) := by
  rw [sound_iff]
  exact and_iff_left (by simp [children])

/-- A schema without parts is sound, and so is one with sound parts, unless its own kind asks for
more. -/
theorem sound_of_children {s : Schema} (hs : s.OwnSound P) (h : ∀ c ∈ s.children, c.Sound P) :
    s.Sound P := sound_iff.mpr ⟨hs, h⟩

theorem Sound.withNotes {s : Schema} (h : s.Sound P) (n : Notes) : (s.withNotes n).Sound P := by
  rw [sound_iff] at h ⊢
  rw [children_withNotes]
  refine ⟨?_, h.2⟩
  cases s <;> exact h.1

theorem Sound.withComment {s : Schema} (h : s.Sound P) (comment : Option DocComment) :
    (s.withComment comment).Sound P := h.withNotes _

/-! ### Schemas without references -/

/-- A sound schema that refers to nothing. -/
def Closed (s : Schema) : Prop := s.Sound fun _ => False

instance : DecidablePred (OwnSound fun _ => False)
  | .object properties required _ =>
    inferInstanceAs (Decidable (∀ name ∈ required, name ∈ Table.keys properties))
  | .intersection members _ => decidable_of_iff (members.isEmpty = false) (by simp [OwnSound])
  | .reference .. => isFalse id
  | .primitive .. | .array .. | .record .. | .union .. | .tuple .. | .any _ | .undefined _ =>
    isTrue trivial

instance (s : Schema) : Decidable s.Closed :=
  inferInstanceAs (Decidable (∀ t ∈ s.nodes, t.OwnSound fun _ => False))

theorem Closed.sound {s : Schema} (h : s.Closed) : s.Sound P := h.mono fun _ => False.elim

theorem sound_any (n : Notes) : (any n).Sound P := sound_of_children trivial (by simp [children])

theorem sound_undefined (n : Notes) : (undefined n).Sound P :=
  sound_of_children trivial (by simp)

theorem sound_primitive (kind : Primitive) (values : Option (List Literal)) (n : Notes) :
    (primitive kind values n).Sound P := sound_of_children trivial (by simp)

/-! ### Containers -/

theorem Sound.array {items : Schema} (h : items.Sound P) (n : Notes) : (array items n).Sound P :=
  sound_of_children trivial (by simpa using h)

theorem Sound.record {domain codomain : Schema} (hd : domain.Sound P) (hc : codomain.Sound P)
    (n : Notes) : (record (some domain) codomain n).Sound P :=
  sound_of_children trivial (by simpa using ⟨hd, hc⟩)

theorem sound_tuple {members : List Schema} (h : ∀ m ∈ members, m.Sound P) (n : Notes) :
    (tuple members n).Sound P := sound_of_children trivial h

theorem sound_union {members : List Schema} (h : ∀ m ∈ members, m.Sound P) (n : Notes) :
    (union members n).Sound P := sound_of_children trivial h

theorem sound_intersection {members : List Schema} (hne : members ≠ [])
    (h : ∀ m ∈ members, m.Sound P) (n : Notes) : (intersection members n).Sound P :=
  sound_of_children hne h

/-! ### Objects -/

/-- All properties of a table are sound. -/
def SoundFields (P : String × Origin → Prop) (properties : Table String Schema) : Prop :=
  ∀ p ∈ properties, p.2.Sound P

theorem sound_object {properties : List (String × Schema)} {required : List String} {n : Notes} :
    (object properties required n).Sound P ↔
      (∀ name ∈ required, name ∈ Table.keys properties) ∧ SoundFields P properties := by
  rw [sound_iff, children_object]
  refine and_congr_right fun _ => ?_
  rw [List.forall_mem_map]
  rfl

theorem SoundFields.objectOf {properties : Table String Schema} (h : SoundFields P properties)
    (required : Names) (n : Notes) : (objectOf properties required n).Sound P :=
  sound_object.mpr ⟨fun _ hn => Table.has_iff.mp (List.mem_filter.mp hn).2, h⟩

theorem SoundFields.closedObject {properties : Table String Schema} (h : SoundFields P properties)
    (n : Notes) : (closedObject properties n).Sound P :=
  sound_object.mpr ⟨fun _ hn => hn, h⟩

theorem SoundFields.insert {properties : Table String Schema} (h : SoundFields P properties)
    {name : String} {schema : Schema} (hs : schema.Sound P) :
    SoundFields P (properties.insert name schema) := by
  intro p hp
  rcases Table.mem_of_mem_insert hp with hp | rfl
  · exact h p hp
  · exact hs

end CodecDocs.Schema
