import CodecDocs.Config.Reader
import CodecDocs.Proofs.Table

/-! Configurations that are read from text. A reader is followed through its steps with a property
of what it gives; where a package or a name is written twice, the later one takes the place of the
earlier, so that no table of a configuration has a key twice. -/

namespace CodecDocs

namespace Json.Reader

/-- What is read, if anything, has the property. -/
def Gives {α : Type} (P : α → Prop) (read : Reader α) : Prop :=
  ∀ text a rest, read text = .ok (a, rest) → P a

namespace Gives

variable {α β : Type} {P : α → Prop} {Q : β → Prop}

theorem any (read : Reader α) : Gives (fun _ => True) read := fun _ _ _ _ => trivial

theorem fail : Gives P Reader.fail := nofun

theorem pure {a : α} (h : P a) : Gives P (Pure.pure a) := by
  intro text b rest hread
  cases hread
  exact h

theorem bind {read : Reader α} {f : α → Reader β} (h : Gives P read)
    (hf : ∀ a, P a → Gives Q (f a)) : Gives Q (read >>= f) := by
  intro text b rest hread
  change (read text >>= fun r => f r.1 r.2) = .ok (b, rest) at hread
  cases hfirst : read text with
  | error path =>
    rw [hfirst] at hread
    cases hread
  | ok r =>
    rw [hfirst] at hread
    exact hf r.1 (h text r.1 r.2 hfirst) r.2 b rest hread

/-- A step whose result does not matter. -/
theorem skip (read : Reader α) {f : α → Reader β} (hf : ∀ a, Gives Q (f a)) :
    Gives Q (read >>= f) := (any read).bind fun a _ => hf a

theorem under {read : Reader α} (h : Gives P read) (step : Step) :
    Gives P (Reader.under step read) := by
  intro text a rest hread
  unfold Reader.under at hread
  split at hread
  · next result hr =>
    cases hread
    exact h text a rest hr
  · cases hread

theorem named {read : Reader α} (h : Gives P read) (name : String) :
    Gives P (Reader.named name read) := skip _ fun _ => h.under _

/-- Fields keep what each of them keeps. -/
theorem fields {field : String → α → Reader α} (h : ∀ name a, P a → Gives P (field name a))
    (rounds : ℕ) (first : Bool) {a : α} (ha : P a) :
    Gives P (Reader.fields field rounds first a) := by
  induction rounds generalizing first a with
  | zero => exact fail
  | succ rounds ih =>
    refine skip _ fun next => ?_
    cases next with
    | none => exact pure ha
    | some name => exact (h name a ha).bind fun b hb => ih false hb

theorem objectOf {field : String → α → Reader α} (h : ∀ name a, P a → Gives P (field name a))
    {a : α} (ha : P a) : Gives P (Reader.objectOf a field) :=
  skip _ fun _ => skip _ fun n => fields h n true ha

theorem item? {read : Reader α} (h : Gives P read) (i : ℕ) :
    Gives (fun found => ∀ a ∈ found, P a) (Reader.item? read i) := by
  have hitem : Gives (fun found => ∀ a ∈ found, P a)
      (Reader.under (.index i) read >>= fun a => Pure.pure (some a)) :=
    (h.under _).bind fun a ha => pure fun b hb => by rwa [← Option.mem_some_iff.mp hb]
  have hrest : Gives (fun found => ∀ a ∈ found, P a) (Reader.peek >>= fun next =>
      if next.isNone = true then (Reader.fail : Reader Unit) >>= fun _ =>
        Reader.under (.index i) read >>= fun a => Pure.pure (some a)
      else Reader.under (.index i) read >>= fun a => Pure.pure (some a)) := by
    refine skip _ fun next => ?_
    split_ifs
    · exact skip _ fun _ => hitem
    · exact hitem
  unfold Reader.item?
  refine skip _ fun next => ?_
  split_ifs
  · exact pure nofun
  · exact skip _ fun _ => hrest
  · exact hrest

end Gives

end Json.Reader

namespace Config

open Json.Reader

/-- Every package stands in the tables once, and every name in its package. -/
structure EachOnce (combinators : Table String (Table String CombinatorSpec)) : Prop where
  packages : combinators.Distinct
  names : ∀ p ∈ combinators, p.2.Distinct

theorem eachOnce_nil : EachOnce [] := ⟨Table.distinct_nil, nofun⟩

theorem EachOnce.insert {combinators : Table String (Table String CombinatorSpec)}
    (h : EachOnce combinators) (package : String) {specs : Table String CombinatorSpec}
    (hs : specs.Distinct) : EachOnce (combinators.insert package specs) := by
  refine ⟨h.packages.insert package specs, fun p hp => ?_⟩
  rcases Table.mem_of_mem_insert hp with hp | rfl
  · exact h.names p hp
  · exact hs

theorem eachOnce_getD {found : Option (Table String (Table String CombinatorSpec))}
    (h : ∀ combinators ∈ found, EachOnce combinators) : EachOnce (found.getD []) := by
  cases found with
  | none => exact eachOnce_nil
  | some combinators => exact h combinators rfl

theorem readCombinators_eachOnce : Gives EachOnce readCombinators := by
  have hnames : Gives Table.Distinct (objectOf [] fun name (specs : Table String CombinatorSpec) =>
      do return specs.insert name (← named name CombinatorSpec.read)) :=
    .objectOf (fun name specs hspecs => .skip _ fun spec => .pure (hspecs.insert name spec))
      Table.distinct_nil
  refine .objectOf (fun package combinators h => ?_) eachOnce_nil
  exact (hnames.named package).bind fun specs hspecs => .pure (h.insert package hspecs)

theorem readField_eachOnce (name : String) (d : Draft)
    (h : ∀ combinators ∈ d.combinators, EachOnce combinators) :
    Gives (fun d => ∀ combinators ∈ d.combinators, EachOnce combinators) (readField name d) := by
  unfold readField
  split
  · exact .skip _ fun _ => .skip _ fun info => .pure h
  · refine .skip _ fun _ => (readCombinators_eachOnce.named _).bind fun combinators hc => ?_
    exact .pure fun other hother => by rwa [← Option.mem_some_iff.mp hother]
  · exact Gives.under .fail _

theorem readObject_eachOnce : Gives (fun c => EachOnce c.combinators) readObject :=
  (Gives.objectOf readField_eachOnce (fun _ h => by cases h)).bind fun _ hd =>
    .pure (eachOnce_getD hd)

theorem readArray_eachOnce : Gives (fun c => EachOnce c.combinators) readArray := by
  have hend : ∀ (info : Option Info) (found : Option (Table String (Table String CombinatorSpec))),
      (∀ combinators ∈ found, EachOnce combinators) →
      Gives (fun c : Config => EachOnce c.combinators)
        (token ']' >>= fun _ => pure ⟨info.getD Info.empty, found.getD []⟩) :=
    fun info found h => .skip _ fun _ => .pure (eachOnce_getD h)
  refine .skip _ fun _ => .skip _ fun info => ?_
  split_ifs
  · exact (readCombinators_eachOnce.item? 1).bind fun found h => hend info found h
  · exact hend info none nofun

/-- A configuration that is read from text has every package once and every name in it once. -/
theorem eachOnce_of_parse {text : String} {c : Config} (h : parse text = .ok c) :
    EachOnce c.combinators := by
  have hread : Gives (fun c => EachOnce c.combinators) read := by
    refine .skip _ fun next => ?_
    split_ifs
    · exact readArray_eachOnce
    · exact readObject_eachOnce
  unfold parse at h
  split at h
  · next rest heq =>
    cases h
    exact hread _ _ _ heq
  · cases h

end Config

end CodecDocs
