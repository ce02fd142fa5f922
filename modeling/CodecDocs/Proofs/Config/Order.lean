import CodecDocs.Proofs.Config.Reading
import CodecDocs.Registry.Builtin
import Mathlib

/-! What a configuration adds to a registry. Each of its two passes registers what the entries
offer, an entry of the other kind offering nothing, and fails exactly if some entry has no
combinator to offer. As long as no name stands for another name of the same configuration, none of
this depends on the order in which packages and names are written. A configuration that is read from
text has none of them twice. -/

namespace CodecDocs

/-! ### Registries -/

/-- Whatever references stand for, the two combinators make the same of all arguments. -/
def Combinator.Alike (f g : Combinator) : Prop :=
  ∀ (m : Type → Type) [Monad m] [MonadExcept Fault m] (deref : Schema → m Schema)
    (args : List Schema), f.rule.apply deref args = g.rule.apply deref args

namespace Registry

/-- The same names are registered, with combinators that make the same of all arguments. -/
def Alike (r s : Registry) : Prop :=
  ∀ package name, Option.Rel Combinator.Alike (r.resolve? package name) (s.resolve? package name)

/-- Look-up finds the same combinators. -/
def SameLookup (r s : Registry) : Prop :=
  ∀ package name, r.resolve? package name = s.resolve? package name

theorem SameLookup.alike {r s : Registry} (h : r.SameLookup s) : r.Alike s := by
  intro package name
  rw [h package name]
  cases s.resolve? package name with
  | none => exact .none
  | some f => exact .some fun _ _ _ _ _ => rfl

theorem resolve?_register (r : Registry) (package name : String) (rule : Rule)
    (key : String × String) :
    (r.register package name rule).resolve? key.1 key.2 =
      if (package, name) = key then some ⟨package, name, rule⟩ else r.resolve? key.1 key.2 :=
  Table.get?_insert _ _ _ _

end Registry

/-- The registered combinator whose other name this is. -/
def CombinatorSpec.target? : CombinatorSpec → Option (String × String)
  | .schema _ => none
  | .alias target => qualified? target

def CombinatorSpec.isAlias : CombinatorSpec → Bool
  | .schema _ => false
  | .alias _ => true

namespace Config

/-! ### One pass over the entries -/

/-- What an entry has to offer: nothing, a combinator, or the reason why it has none. -/
abbrev Offer := Option (Except Refusal Rule)

/-- A schema is offered by the first pass. -/
def schemaOffer : CombinatorSpec → Offer
  | .schema fixed => some (fixed.schema.map .fixed)
  | .alias _ => none

/-- What another name stands for is offered by the second pass. -/
def aliasOffer (r : Registry) : CombinatorSpec → Offer
  | .schema _ => none
  | .alias target =>
    match qualified? target with
    | none => some (.error (.notQualified target))
    | some (package, name) =>
      match r.resolve? package name with
      | none => some (.error (.unregistered package name))
      | some combinator => some (.ok combinator.rule)

/-- Registers under a key what is offered there. -/
def place (r : Registry) (key : String × String) : Offer → Except Refusal Registry
  | none => .ok r
  | some offered => offered.map (r.register key.1 key.2)

/-- Some entry has no combinator although it should. -/
def Refused (offer : CombinatorSpec → Offer) (entries : List Entry) : Prop :=
  ∃ e ∈ entries, ∃ cause, offer e.2 = some (.error cause)

/-- The combinators that entries offer, under their keys. -/
def offered (offer : CombinatorSpec → Offer) (entries : List Entry) :
    Table (String × String) Combinator :=
  entries.filterMap fun e =>
    match offer e.2 with
    | some (.ok rule) => some (e.1, ⟨e.1.1, e.1.2, rule⟩)
    | _ => none

theorem offered_cons_ok {offer : CombinatorSpec → Offer} {e : Entry} {rule : Rule}
    (h : offer e.2 = some (.ok rule)) (entries : List Entry) :
    offered offer (e :: entries) = (e.1, ⟨e.1.1, e.1.2, rule⟩) :: offered offer entries := by
  simp [offered, h]

theorem offered_cons_of_ne {offer : CombinatorSpec → Offer} {e : Entry}
    (h : ∀ rule, offer e.2 ≠ some (.ok rule)) (entries : List Entry) :
    offered offer (e :: entries) = offered offer entries := by
  unfold offered
  refine List.filterMap_cons_none ?_
  split
  · next rule hrule => exact absurd hrule (h rule)
  · rfl

/-- Adding an entry is placing what it offers, in all registries that the pass can reach. -/
structure Pass (add : Registry → Entry → Except Refusal Registry)
    (offer : CombinatorSpec → Offer) (entries : List Entry) (reachable : Registry → Prop) :
    Prop where
  step : ∀ e ∈ entries, ∀ r, reachable r → add r e = place r e.1 (offer e.2)
  kept : ∀ e ∈ entries, ∀ r rule, reachable r → offer e.2 = some (.ok rule) →
    reachable (r.register e.1.1 e.1.2 rule)

namespace Pass

variable {add : Registry → Entry → Except Refusal Registry} {offer : CombinatorSpec → Offer}
  {entries : List Entry} {reachable : Registry → Prop} {r : Registry}

/-- One entry is refused, or the pass goes on with what it offers. -/
theorem addEach_cons {e : Entry} (h : Pass add offer (e :: entries) reachable) (hr : reachable r) :
    (∃ cause, offer e.2 = some (.error cause) ∧ (addEach add (e :: entries) r).2 ≠ none) ∨
      (∀ cause, offer e.2 ≠ some (.error cause)) ∧
        ∃ s, reachable s ∧ addEach add (e :: entries) r = addEach add entries s ∧
          r.entries.extend (offered offer (e :: entries)) =
            s.entries.extend (offered offer entries) := by
  have hstep := h.step e List.mem_cons_self r hr
  match ho : offer e.2 with
  | none =>
    have hadd : add r e = .ok r := by rw [hstep, ho, place]
    refine .inr ⟨nofun, r, hr, ?_, by rw [offered_cons_of_ne (by simp [ho])]⟩
    rw [addEach, hadd]
  | some (.error cause) =>
    have hadd : add r e = .error cause := by rw [hstep, ho, place, Except.map]
    refine .inl ⟨cause, rfl, ?_⟩
    rw [addEach, hadd]
    nofun
  | some (.ok rule) =>
    have hadd : add r e = .ok (r.register e.1.1 e.1.2 rule) := by rw [hstep, ho, place, Except.map]
    refine .inr ⟨nofun, _, h.kept e List.mem_cons_self r rule hr ho, ?_, ?_⟩
    · rw [addEach, hadd]
    · rw [offered_cons_ok ho]
      rfl

/-- A pass either refuses an entry or registers all that is offered. -/
theorem addEach_cases (h : Pass add offer entries reachable) (hr : reachable r) :
    Refused offer entries ∧ (addEach add entries r).2 ≠ none ∨
      ¬ Refused offer entries ∧
        addEach add entries r = (⟨r.entries.extend (offered offer entries)⟩, none) := by
  induction entries generalizing r with
  | nil =>
    have hnone : ¬ Refused offer [] := fun ⟨_, he, _⟩ => List.not_mem_nil he
    exact .inr ⟨hnone, rfl⟩
  | cons e entries ih =>
    have htail : Pass add offer entries reachable :=
      ⟨fun e he => h.step e (List.mem_cons_of_mem _ he),
        fun e he => h.kept e (List.mem_cons_of_mem _ he)⟩
    rcases h.addEach_cons hr with ⟨cause, hoffer, hfail⟩ | ⟨hfirst, s, hs, hrest, hextend⟩
    · exact .inl ⟨⟨e, List.mem_cons_self, cause, hoffer⟩, hfail⟩
    · have hiff : Refused offer (e :: entries) ↔ Refused offer entries := by
        simp [Refused, hfirst]
      rw [hiff, hrest, hextend]
      exact ih htail hs

end Pass

/-! ### Both passes -/

/-- No entry names what is itself another name in the configuration. -/
def Direct (c : Config) : Prop :=
  ∀ e ∈ c.entries, ∀ d ∈ c.entries, d.2.isAlias = true → e.2.target? ≠ some d.1

instance (c : Config) : Decidable c.Direct :=
  inferInstanceAs (Decidable (∀ e ∈ c.entries, ∀ d ∈ c.entries, d.2.isAlias = true →
    e.2.target? ≠ some d.1))

/-- Of a registry only the target matters for what a name stands for. -/
theorem aliasOffer_congr {r s : Registry} {spec : CombinatorSpec}
    (h : ∀ key, spec.target? = some key → r.resolve? key.1 key.2 = s.resolve? key.1 key.2) :
    aliasOffer r spec = aliasOffer s spec := by
  obtain fixed | target := spec
  · rfl
  · simp only [aliasOffer]
    split
    · rfl
    · next package name hq => rw [h (package, name) hq]

theorem isAlias_of_offer {r : Registry} {spec : CombinatorSpec} {offered : Except Refusal Rule}
    (h : aliasOffer r spec = some offered) : spec.isAlias = true := by
  obtain fixed | target := spec
  · cases h
  · rfl

theorem pass_schemas (entries : List Entry) :
    Pass addSchema schemaOffer entries fun _ => True where
  step := by
    rintro ⟨⟨package, name⟩, fixed | target⟩ - r -
    · simp only [addSchema, schemaOffer, place]
      cases fixed.schema <;> rfl
    · rfl
  kept _ _ _ _ _ _ := trivial

/-- In the second pass no entry comes to offer anything else: what is registered in it is no
target. -/
theorem pass_aliases {c : Config} (h : c.Direct) (r : Registry) :
    Pass addAlias (aliasOffer r) c.entries fun s =>
      ∀ e ∈ c.entries, aliasOffer s e.2 = aliasOffer r e.2 where
  step := by
    rintro ⟨⟨package, name⟩, fixed | target⟩ he s hs
    · rfl
    · rw [← hs _ he]
      simp only [addAlias, aliasOffer, Registry.alias?]
      cases hq : qualified? target with
      | none => rfl
      | some key => cases hk : s.resolve? key.1 key.2 <;> simp [place, hk, Except.map]
  kept := by
    intro e he s rule hs hoffer d hd
    rw [← hs d hd]
    refine aliasOffer_congr fun key hkey => ?_
    have hne : e.1 ≠ key := fun heq => h d hd e he (isAlias_of_offer hoffer) (heq ▸ hkey)
    rw [Registry.resolve?_register, if_neg hne]

/-- The registry after the first pass. -/
def withSchemas (c : Config) (r : Registry) : Registry :=
  ⟨r.entries.extend (offered schemaOffer c.entries)⟩

/-- The registry after both passes. -/
def withAll (c : Config) (r : Registry) : Registry :=
  ⟨(c.withSchemas r).entries.extend (offered (aliasOffer (c.withSchemas r)) c.entries)⟩

/-- One of the passes refuses an entry. -/
def IsRefused (c : Config) (r : Registry) : Prop :=
  Refused schemaOffer c.entries ∨ Refused (aliasOffer (c.withSchemas r)) c.entries

/-- A configuration either is refused or registers all that it offers. -/
theorem apply_cases {c : Config} (h : c.Direct) (r : Registry) :
    c.IsRefused r ∧ (c.apply r).2 ≠ none ∨
      ¬ c.IsRefused r ∧ c.apply r = (c.withAll r, none) := by
  rcases (pass_schemas c.entries).addEach_cases (r := r) trivial with ⟨href, hfail⟩ | ⟨hok, hfirst⟩
  · refine .inl ⟨.inl href, ?_⟩
    rw [apply]
    split
    · next heq => exact absurd (by rw [heq]) hfail
    · exact hfail
  · have hsecond : c.apply r = addEach addAlias c.entries (c.withSchemas r) := by
      rw [apply, hfirst]
      rfl
    rw [hsecond]
    rcases (pass_aliases h (c.withSchemas r)).addEach_cases (fun _ _ => rfl) with
      ⟨href, hfail⟩ | ⟨hok', hall⟩
    · exact .inl ⟨.inr href, hfail⟩
    · exact .inr ⟨fun href => href.elim hok hok', hall⟩

/-! ### Order -/

/-- The same but for the order of the packages and of the names in each of them. -/
structure Reordered (c d : Config) : Prop where
  info : c.info = d.info
  combinators : ∃ packages, c.combinators.Perm packages ∧
    List.Forall₂ (fun p q => p.1 = q.1 ∧ p.2.Perm q.2) packages d.combinators

theorem entries_eq (c : Config) :
    c.entries = c.combinators.flatMap fun p => p.2.map fun q => ((p.1, q.1), q.2) := rfl

theorem keys_entries (c : Config) :
    Table.keys c.entries = c.combinators.flatMap fun p => p.2.keys.map (Prod.mk p.1) := by
  rw [entries_eq, Table.keys, List.map_flatMap]
  simp only [Table.keys, List.map_map]
  rfl

theorem distinct_entries {c : Config} (h : EachOnce c.combinators) : Table.Distinct c.entries := by
  rw [Table.Distinct, keys_entries, List.nodup_flatMap]
  refine ⟨fun p hp => (h.names p hp).map fun _ _ heq => (Prod.mk.inj heq).2, ?_⟩
  refine List.Pairwise.imp ?_ (List.pairwise_map.mp h.packages)
  intro p q hne key hp hq
  obtain ⟨name, -, rfl⟩ := List.mem_map.mp hp
  obtain ⟨other, -, heq⟩ := List.mem_map.mp hq
  exact hne (congrArg Prod.fst heq).symm

theorem Reordered.entries {c d : Config} (h : c.Reordered d) : c.entries.Perm d.entries := by
  obtain ⟨packages, hperm, hsame⟩ := h.combinators
  have heach : (packages.flatMap fun p => p.2.map fun q => ((p.1, q.1), q.2)).Perm
      (d.combinators.flatMap fun p => p.2.map fun q => ((p.1, q.1), q.2)) := by
    generalize d.combinators = others at hsame
    clear hperm
    induction hsame with
    | nil => exact .nil
    | cons hpq _ ih =>
      obtain ⟨hpackage, hspecs⟩ := hpq
      rw [List.flatMap_cons, List.flatMap_cons, hpackage]
      exact (hspecs.map _).append ih
  rw [entries_eq, entries_eq]
  exact (hperm.flatMap_right _).trans heach

theorem keys_offered_sublist (offer : CombinatorSpec → Offer) (entries : List Entry) :
    (offered offer entries).keys.Sublist (Table.keys entries) := by
  induction entries with
  | nil => exact .slnil
  | cons e entries ih =>
    match ho : offer e.2 with
    | none | some (.error _) =>
      rw [offered_cons_of_ne (by simp [ho])]
      exact ih.cons _
    | some (.ok rule) =>
      rw [offered_cons_ok ho]
      exact ih.cons_cons _

/-- Entries in another order offer the same. -/
theorem sameLookup_extend {r s : Registry} (h : r.SameLookup s) (offer : CombinatorSpec → Offer)
    {entries others : List Entry} (hd : Table.Distinct entries) (hp : entries.Perm others) :
    Registry.SameLookup ⟨r.entries.extend (offered offer entries)⟩
      ⟨s.entries.extend (offered offer others)⟩ := by
  have hoffered : (offered offer entries).Distinct := (keys_offered_sublist offer entries).nodup hd
  have hperm : (offered offer entries).Perm (offered offer others) := hp.filterMap _
  have hothers : (offered offer others).Distinct := (hperm.map Prod.fst).nodup_iff.mp hoffered
  intro package name
  have hsame : r.entries.get? (package, name) = s.entries.get? (package, name) := h package name
  simp only [Registry.resolve?]
  rw [Table.get?_extend hoffered, Table.get?_extend hothers, hsame,
    Table.get?_eq_of_perm hoffered hperm]

theorem refused_perm {offer : CombinatorSpec → Offer} {entries others : List Entry}
    (h : entries.Perm others) : Refused offer entries ↔ Refused offer others := by
  simp only [Refused, h.mem_iff]

section Reordered

variable {c d : Config} (h : c.Reordered d) (hc : EachOnce c.combinators) (r : Registry)

include h hc

theorem sameLookup_withSchemas : (c.withSchemas r).SameLookup (d.withSchemas r) :=
  sameLookup_extend (fun _ _ => rfl) schemaOffer (distinct_entries hc) h.entries

theorem aliasOffer_withSchemas : aliasOffer (c.withSchemas r) = aliasOffer (d.withSchemas r) :=
  funext fun _ => aliasOffer_congr fun key _ => sameLookup_withSchemas h hc r key.1 key.2

theorem sameLookup_withAll : (c.withAll r).SameLookup (d.withAll r) := by
  rw [withAll, withAll, ← aliasOffer_withSchemas h hc]
  exact sameLookup_extend (sameLookup_withSchemas h hc r) _ (distinct_entries hc) h.entries

theorem isRefused_iff : c.IsRefused r ↔ d.IsRefused r := by
  rw [IsRefused, IsRefused, ← aliasOffer_withSchemas h hc, refused_perm h.entries,
    refused_perm h.entries]

end Reordered

theorem Direct.reordered {c d : Config} (h : c.Reordered d) (hc : c.Direct) : d.Direct := by
  intro e he f hf
  exact hc e (h.entries.mem_iff.mpr he) f (h.entries.mem_iff.mpr hf)

/-- The order in which a configuration is written does not matter: it is refused in both orders or
in none, and otherwise the same names are registered, with combinators that make the same of all
arguments. -/
theorem apply_reordered {c d : Config} (h : c.Reordered d) (hc : EachOnce c.combinators)
    (hdirect : c.Direct) (r : Registry) :
    ((c.apply r).2 = none ↔ (d.apply r).2 = none) ∧
      ((c.apply r).2 = none → (c.apply r).1.Alike (d.apply r).1) := by
  rcases apply_cases hdirect r with ⟨href, hfail⟩ | ⟨hok, hall⟩
  · rcases apply_cases (hdirect.reordered h) r with ⟨-, hfail'⟩ | ⟨hok', -⟩
    · exact ⟨iff_of_false hfail hfail', fun hnone => absurd hnone hfail⟩
    · exact absurd ((isRefused_iff h hc r).mp href) hok'
  · rcases apply_cases (hdirect.reordered h) r with ⟨href', -⟩ | ⟨-, hall'⟩
    · exact absurd ((isRefused_iff h hc r).mpr href') hok
    · rw [hall, hall']
      exact ⟨Iff.rfl, fun _ => (sameLookup_withAll h hc r).alike⟩

/-- A name that is built in comes to stand for a schema of a later package. -/
def mailConfig : Config :=
  ⟨Info.empty,
    [("io-ts", [("string", .alias "mail#Email")]),
      ("mail", [("Email", .schema ⟨some .string, none, [("format", .string "email")]⟩),
        ("Id", .alias "io-ts#number")])]⟩

def mailConfigBackwards : Config :=
  ⟨Info.empty,
    [("mail", [("Id", .alias "io-ts#number"),
        ("Email", .schema ⟨some .string, none, [("format", .string "email")]⟩)]),
      ("io-ts", [("string", .alias "mail#Email")])]⟩

/-- The lines of a file with the configuration. -/
def mailLines : List String :=
  ["\x7b\"combinators\": \x7b",
    "\"io-ts\": \x7b\"string\": \x7b\"alias\": \"mail#Email\"\x7d\x7d,",
    "\"mail\": \x7b\"Email\": \x7b\"schema\":",
    "\x7b\"type\": \"string\", \"format\": \"email\"\x7d\x7d,",
    "\"Id\": \x7b\"alias\": \"io-ts#number\"\x7d\x7d\x7d\x7d"]

theorem parse_mailLines : parse (.ofList (mailLines.flatMap String.toList)) = .ok mailConfig := by
  rw [parse, String.toList_ofList]
  cbv

theorem apply_reordered_mail :
    parse (.ofList (mailLines.flatMap String.toList)) = .ok mailConfig ∧
      mailConfig.Reordered mailConfigBackwards ∧ EachOnce mailConfig.combinators ∧
      mailConfig.Direct ∧ (mailConfig.apply Registry.builtin).2 = none ∧
      (mailConfigBackwards.apply Registry.builtin).2 = none ∧
      (mailConfig.apply Registry.builtin).1.Alike
        (mailConfigBackwards.apply Registry.builtin).1 := by
  have hreordered : mailConfig.Reordered mailConfigBackwards :=
    ⟨rfl, _, .swap _ _ _, .cons ⟨rfl, .swap _ _ _⟩ (.cons ⟨rfl, .refl _⟩ .nil)⟩
  have honce := eachOnce_of_parse parse_mailLines
  have hdirect : mailConfig.Direct := by decide
  have hok : (mailConfig.apply Registry.builtin).2 = none := by decide
  obtain ⟨hiff, halike⟩ := apply_reordered hreordered honce hdirect Registry.builtin
  exact ⟨parse_mailLines, hreordered, honce, hdirect, hok, hiff.mp hok, halike hok⟩

end Config

end CodecDocs
