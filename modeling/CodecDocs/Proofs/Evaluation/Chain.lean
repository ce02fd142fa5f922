import CodecDocs.Proofs.Evaluation.Depth

/-! What references stand for. A reference leads to what its name expands to, which may be a
reference again, and so on along a chain. Dereferencing arrives at the first schema of the chain
that is no reference and gathers the notes on the way, where earlier ones win; a chain that comes
back to a name is refused as circular. -/

namespace CodecDocs

open Eval

/-! ### Chains -/

/-- The name that a reference refers to. -/
def Schema.target? : Schema → Option Target
  | .reference name origin _ => some (name, origin)
  | _ => none

/-- A reference and the schema that its name expands to. -/
def Setting.Expands (s : Setting) (r next : Schema) : Prop :=
  ∃ target doc, r.target? = some target ∧
    (s.expand target.1 target.2 .start).1 = .ok (next, doc)

/-- A schema as it is found at the end of a chain: the last one, which is no reference, with the
first comment of the chain and with the first annotation for each key. -/
structure Schema.EndOf (chain : List Schema) (found : Schema) : Prop where
  last : ∃ last, chain.getLast? = some last ∧ last.target? = none ∧
    found = last.withNotes found.notes
  comment : found.notes.comment = chain.findSome? (·.notes.comment)
  annotation : ∀ key,
    found.notes.annotations.get? key = chain.findSome? (·.notes.annotations.get? key)

/-- A chain comes to a name for the second time, or to one of the names `E`. -/
def Schema.Revisits (E : List Target) (chain : List Schema) : Prop :=
  (∃ target ∈ chain.filterMap target?, target ∈ E) ∨ ¬ (chain.filterMap target?).Nodup

namespace Schema

variable {E : List Target} {target : Target} {r x : Schema} {chain : List Schema}

theorem target?_eq_some : r.target? = some target ↔
    ∃ notes, r = .reference target.1 target.2 notes := by
  cases r <;> simp [target?, Prod.ext_iff]

theorem target?_refer (name : String) (origin : Origin) :
    (refer name origin).target? = some (name, origin) := rfl

@[simp] theorem target?_withNotes (x : Schema) (n : Notes) :
    (x.withNotes n).target? = x.target? := by
  cases x <;> rfl

theorem EndOf.target? {found : Schema} (h : found.EndOf chain) : found.target? = none := by
  obtain ⟨last, -, hlast, heq⟩ := h.last
  rw [heq, target?_withNotes, hlast]

theorem endOf_single (h : x.target? = none) : x.EndOf [x] where
  last := ⟨x, rfl, h, (withNotes_notes x).symm⟩
  comment := by cases hc : x.notes.comment <;> simp [hc]
  annotation key := by cases ha : x.notes.annotations.get? key <;> simp [ha]

/-- The notes of a reference come before those on the rest of the way. -/
theorem EndOf.cons {found : Schema} (h : found.EndOf chain) (hr : r.notes.Keyed) :
    (found.withNotes (found.notes.under r.notes)).EndOf (r :: chain) where
  last := by
    obtain ⟨last, hlast, hnone, heq⟩ := h.last
    refine ⟨last, by rw [List.getLast?_cons, hlast]; rfl, hnone, ?_⟩
    rw [notes_withNotes, heq, withNotes_withNotes, notes_withNotes]
  comment := by
    rw [notes_withNotes, Notes.under, h.comment, List.findSome?_cons]
    cases r.notes.comment <;> rfl
  annotation key := by
    rw [notes_withNotes, Notes.under, Table.get?_extend hr.1, h.annotation, List.findSome?_cons]
    cases r.notes.annotations.get? key <;> rfl

/-- A chain that comes back to a name does so after its first reference, unless that one does. -/
theorem Revisits.tail (h : Revisits E (r :: chain)) (hr : r.target? = some target)
    (ht : target ∉ E) : Revisits (target :: E) chain := by
  rw [Revisits, List.filterMap_cons_some hr] at h
  rcases h with ⟨t, hmem, htE⟩ | hdup
  · rcases List.mem_cons.mp hmem with rfl | hmem
    · exact absurd htE ht
    · exact .inl ⟨t, hmem, List.mem_cons_of_mem _ htE⟩
  · rw [List.nodup_cons, not_and_or, not_not] at hdup
    exact hdup.imp (fun hmem => ⟨target, hmem, List.mem_cons_self⟩) id

theorem Revisits.single (h : Revisits E [r]) : ∃ target, r.target? = some target ∧ target ∈ E := by
  cases ht : r.target? with
  | none => simp [Revisits, ht] at h
  | some target => simpa [Revisits, ht] using h

end Schema

/-! ### One name after the other -/

namespace Setting

variable {s : Setting} {slack : Slack} {E E' : List Target} {name : String} {origin : Origin}

theorem approximates_expandWith_beyond (hs : s.Keyed) {n m : ℕ} (hnm : n ≤ m)
    (hb : n = m ∨ slack.bound) (hE : Covers slack E E') :
    Approximates slack E E' (fun found => found.1.Keyed) (s.expandWith (s.beyond n) name origin)
      (s.expandWith (s.beyond m) name origin) :=
  approximates_expandWith hs fun _ d _ _ => (approximates_beyond hs hnm hb hE).1 d.init d.moduleId

theorem expand_start (s : Setting) (name : String) (origin : Origin) :
    (s.expand name origin .start).1 =
      (s.expandWith (s.beyond s.depthBound) name origin ⟨[(name, origin)], []⟩).1 :=
  guarded_fst _ List.not_mem_nil []

/-- What a name expands to within others is what it expands to on its own. -/
theorem expand_of_expandWith (hs : s.Keyed) {n : ℕ} (hn : n ≤ s.depthBound) {asked : List Query}
    {found : Schema × Option DocComment}
    (h : (s.expandWith (s.beyond n) name origin ⟨(name, origin) :: E, asked⟩).1 = .ok found) :
    (s.expand name origin .start).1 = .ok found ∧ found.1.Keyed := by
  have hcovers : Covers ⟨True, True⟩ ((name, origin) :: E) [(name, origin)] :=
    ⟨by simp, .inl trivial⟩
  rw [expand_start]
  exact (approximates_expandWith_beyond hs hn (.inr trivial) hcovers).result h

/-- Where a name is expanded within others, it expands to what it does on its own, unless it comes
upon one of them. -/
theorem expandWith_of_expand (hs : s.Keyed) {n : ℕ} (hn : s.depthBound ≤ n)
    {found : Schema × Option DocComment} (h : (s.expand name origin .start).1 = .ok found)
    (E : List Target) (asked : List Query) :
    ∃ outcome more, s.expandWith (s.beyond n) name origin ⟨(name, origin) :: E, asked⟩ =
        (outcome, ⟨(name, origin) :: E, more⟩) ∧
      (outcome = .ok found ∨
        ∃ target : Target, outcome = .error (.circular target.1 target.2)) := by
  rw [expand_start] at h
  have hdeep : (s.expandWith (s.beyond n) name origin ⟨[(name, origin)], []⟩).1 = .ok found :=
    ((approximates_expandWith_beyond hs hn (.inr trivial) (.refl .deeper _)).result h).1
  have hcovers : Covers ⟨True, False⟩ ((name, origin) :: E) [(name, origin)] :=
    ⟨by simp, .inl trivial⟩
  obtain ⟨outcome, more, heq, hends⟩ :=
    approximates_expandWith_beyond hs (le_refl n) (.inl rfl) hcovers asked
  refine ⟨outcome, more, heq, ?_⟩
  rcases hends with ⟨e, rfl, he⟩ | ⟨hsame, -⟩
  · cases e with
    | circular name origin => exact .inr ⟨(name, origin), rfl⟩
    | _ => exact he.elim
  · obtain ⟨_, hsame⟩ := hsame []
    rw [hsame] at hdeep
    exact .inl hdeep

/-! ### Whole chains -/

theorem deref_self {schema : Schema} (h : schema.target? = none) (n : ℕ) (session : Session) :
    (s.beyond (n + 1)).deref schema session = (.ok schema, session) := by
  cases schema with
  | reference name origin notes => cases h
  | _ => rfl

/-- What is found at some depth stands at the end of a chain, by induction on the depth. -/
theorem exists_chain_of_deref (hs : s.Keyed) {n : ℕ} (hn : n ≤ s.depthBound) {schema : Schema}
    (hx : schema.Keyed) {asked : List Query} {found : Schema}
    (h : ((s.beyond n).deref schema ⟨E, asked⟩).1 = .ok found) :
    ∃ rest, (schema :: rest).IsChain s.Expands ∧ found.EndOf (schema :: rest) := by
  induction n generalizing schema E asked found with
  | zero => cases h
  | succ n ih =>
    cases htarget : schema.target? with
    | none =>
      rw [deref_self htarget] at h
      cases h
      exact ⟨[], .singleton _, Schema.endOf_single htarget⟩
    | some target =>
      obtain ⟨notes, rfl⟩ := Schema.target?_eq_some.mp htarget
      obtain ⟨y, after, hguarded, hfound⟩ := exists_of_bind_ok h
      cases hfound
      have hfst : (guarded _ _ ⟨E, asked⟩).1 = .ok y := congrArg Prod.fst hguarded
      obtain ⟨ht, hinner⟩ := ok_of_guarded hfst
      obtain ⟨⟨next, doc⟩, between, hexpand, hderef⟩ := exists_of_bind_ok hinner
      have hstep := expand_of_expandWith hs (by omega) (congrArg Prod.fst hexpand)
      obtain ⟨rest, hchain, hend⟩ := ih (by omega) hstep.2 hderef
      exact ⟨next :: rest, .cons_cons ⟨target, doc, htarget, hstep.1⟩ hchain, hend.cons hx.own⟩

theorem deref_inside {r : Schema} {target : Target} (hr : r.target? = some target)
    (ht : target ∈ E) (n : ℕ) (asked : List Query) :
    ((s.beyond (n + 1)).deref r ⟨E, asked⟩).1 = .error (.circular target.1 target.2) := by
  obtain ⟨notes, rfl⟩ := Schema.target?_eq_some.mp hr
  exact congrArg Prod.fst (bind_of_error (guarded_inside _ ht asked) _)

/-- A reference fails where its name expands to something that cannot be dereferenced. -/
theorem deref_outside {r : Schema} {target : Target} (hr : r.target? = some target)
    (ht : target ∉ E) {n : ℕ} {asked : List Query} {e : Fault}
    (h : ((do (s.beyond n).deref (← s.expandWith (s.beyond n) target.1 target.2).1)
      ⟨target :: E, asked⟩).1 = .error e) :
    ((s.beyond (n + 1)).deref r ⟨E, asked⟩).1 = .error e := by
  obtain ⟨notes, rfl⟩ := Schema.target?_eq_some.mp hr
  cases ho : guarded target (do
      (s.beyond n).deref (← s.expandWith (s.beyond n) target.1 target.2).1) ⟨E, asked⟩ with
  | mk outcome after =>
    obtain rfl : outcome = .error e := by
      rw [← h, ← guarded_fst _ ht, ho]
    exact congrArg Prod.fst (bind_of_error ho _)

/-- A chain that comes back to a name is circular at each depth beyond its length, by induction on
the chain: the names passed are being expanded. -/
theorem circular_of_revisits (hs : s.Keyed) {schema : Schema} {rest : List Schema}
    (hchain : (schema :: rest).IsChain s.Expands) (hback : Schema.Revisits E (schema :: rest))
    {n : ℕ} (hn : s.depthBound + rest.length < n) (asked : List Query) :
    ∃ target : Target, ((s.beyond n).deref schema ⟨E, asked⟩).1 =
      .error (.circular target.1 target.2) := by
  induction rest generalizing schema E n asked with
  | nil =>
    obtain ⟨n, rfl⟩ : ∃ k, n = k + 1 := ⟨n - 1, by omega⟩
    obtain ⟨target, htarget, ht⟩ := hback.single
    exact ⟨target, deref_inside htarget ht n asked⟩
  | cons next rest ih =>
    rw [List.length_cons] at hn
    obtain ⟨n, rfl⟩ : ∃ k, n = k + 1 := ⟨n - 1, by omega⟩
    obtain ⟨⟨target, doc, htarget, hexpand⟩, hchain⟩ := List.isChain_cons_cons.mp hchain
    by_cases ht : target ∈ E
    · exact ⟨target, deref_inside htarget ht n asked⟩
    obtain ⟨outcome, more, heq, hends⟩ :=
      expandWith_of_expand hs (n := n) (by omega) hexpand E asked
    rcases hends with rfl | ⟨other, rfl⟩
    · obtain ⟨other, hother⟩ := ih hchain (hback.tail htarget ht) (n := n) (by omega) more
      exact ⟨other, deref_outside htarget ht (by rw [bind_of_ok heq, hother])⟩
    · exact ⟨other, deref_outside htarget ht (by rw [bind_of_error heq])⟩

/-- A schema that is no reference stands for itself. What any schema is found to stand for is at the
end of its chain. A chain that comes back to a name is circular, within all bounds that are large
enough and, unless an oracle exhausts it, within the bound of the project. -/
theorem deref_follows_chain (hs : s.Keyed) {schema : Schema} (hx : schema.Keyed)
    (session : Session) :
    (schema.target? = none → s.deref schema session = (.ok schema, session)) ∧
    (∀ found, (s.deref schema session).1 = .ok found → found.target? = none ∧
      ∃ rest, (schema :: rest).IsChain s.Expands ∧ found.EndOf (schema :: rest)) ∧
    ∀ rest, (schema :: rest).IsChain s.Expands →
      Schema.Revisits session.expanding (schema :: rest) →
        (∃ bound, ∀ n ≥ bound, ∃ target : Target,
          ((s.beyond n).deref schema session).1 = .error (.circular target.1 target.2)) ∧
        (s.oracle = none ∨ Ended (s.deref schema session).1 → ∃ target : Target,
          (s.deref schema session).1 = .error (.circular target.1 target.2)) := by
  refine ⟨fun h => ?_, fun found h => ?_, fun rest hchain hback => ?_⟩
  · obtain ⟨n, hn⟩ : ∃ n, s.depthBound = n + 1 :=
      ⟨s.depthBound - 1, by have := s.space_le_depthBound []; omega⟩
    rw [deref, hn]
    exact deref_self h n session
  · obtain ⟨rest, hchain, hend⟩ := exists_chain_of_deref hs le_rfl hx h
    exact ⟨hend.target?, rest, hchain, hend⟩
  · have hcircular : ∀ n ≥ s.depthBound + rest.length + 1, ∃ target : Target,
        ((s.beyond n).deref schema session).1 = .error (.circular target.1 target.2) :=
      fun n hn => circular_of_revisits hs hchain hback hn session.asked
    refine ⟨⟨_, hcircular⟩, fun hbound => ?_⟩
    obtain ⟨target, htarget⟩ := hcircular _ le_rfl
    have hended : Ended ((s.beyond (s.depthBound + rest.length + 1)).deref schema session).1 := by
      intro hexhausted
      rw [htarget] at hexhausted
      cases hexhausted
    exact ⟨target, (deref_eq_of_le hs hx hbound (by omega) hended).trans htarget⟩

end Setting

/-- Other names for an array in two modules, and two names for one another. -/
def aliasSources : List (String × String) :=
  [("a.ts", "import { B } from './b'; const A = B; const Loop = Again; const Again = Loop"),
    ("b.ts", "import { nonEmptyArray } from 'io-ts-types'; " ++
      "export const B = C; const C = nonEmptyArray('x')")]

/-- A reference with notes of its own, among them one that its array has as well. -/
def notedAlias : Schema :=
  .reference "A" (.source "a.ts") ⟨none, [("title", .string "few"), ("minItems", .nat 2)]⟩

theorem Setting.deref_follows_chain_aliases :
    ∃ p, Project.ofSources aliasSources = .ok p ∧ (Setting.mk p .builtin none).Keyed ∧
      notedAlias.Keyed ∧
      (∃ found rest, ((Setting.mk p .builtin none).deref notedAlias .start).1 = .ok found ∧
        found.target? = none ∧
        (notedAlias :: rest).IsChain (Setting.mk p .builtin none).Expands ∧
        found.EndOf (notedAlias :: rest)) ∧
      ∃ rest, (Schema.refer "Loop" (.source "a.ts") :: rest).IsChain
          (Setting.mk p .builtin none).Expands ∧
        Schema.Revisits [] (Schema.refer "Loop" (.source "a.ts") :: rest) ∧
        ∃ target : Target, ((Setting.mk p .builtin none).deref
          (Schema.refer "Loop" (.source "a.ts")) .start).1 =
            .error (.circular target.1 target.2) := by
  have hrun : ((Project.ofSources aliasSources).toOption.bind fun p => do
      let found ← ((Setting.mk p .builtin none).deref notedAlias .start).1.toOption
      let next ← ((Setting.mk p .builtin none).expand "Loop" (.source "a.ts") .start).1.toOption
      let last ← ((Setting.mk p .builtin none).expand "Again" (.source "a.ts") .start).1.toOption
      return (found.kindName, next.1.target?, last.1.target?)) =
        some ("array", some ("Again", .source "a.ts"), some ("Loop", .source "a.ts")) := by
    decide +kernel
  obtain ⟨p, hp, hrun⟩ := Option.bind_eq_some_iff.mp hrun
  obtain ⟨found, hfound, hrun⟩ := Option.bind_eq_some_iff.mp hrun
  obtain ⟨next, hnext, hrun⟩ := Option.bind_eq_some_iff.mp hrun
  obtain ⟨last, hlast, hrun⟩ := Option.bind_eq_some_iff.mp hrun
  obtain ⟨-, hagain, hloop⟩ : _ ∧ next.1.target? = some ("Again", .source "a.ts") ∧
      last.1.target? = some ("Loop", .source "a.ts") := by simpa using hrun
  have hs := keyed_builtin p
  have hchain : [Schema.refer "Loop" (.source "a.ts"), next.1, last.1].IsChain
      (Setting.mk p .builtin none).Expands :=
    .cons_cons ⟨_, next.2, rfl, ok_of_toOption hnext⟩
      (.cons_cons ⟨_, last.2, hagain, ok_of_toOption hlast⟩ (.singleton _))
  have hback : Schema.Revisits [] [Schema.refer "Loop" (.source "a.ts"), next.1, last.1] := by
    refine .inr ?_
    rw [List.filterMap_cons_some (Schema.target?_refer _ _), List.filterMap_cons_some hagain,
      List.filterMap_cons_some hloop]
    decide
  have hx : notedAlias.Keyed := by decide
  obtain ⟨hnone, rest, hrest⟩ :=
    (deref_follows_chain hs hx .start).2.1 found (ok_of_toOption hfound)
  exact ⟨p, ok_of_toOption hp, hs, hx, ⟨found, rest, ok_of_toOption hfound, hnone, hrest⟩,
    _, hchain, hback, ((deref_follows_chain hs (Schema.keyed_refer _ _) .start).2.2 _ hchain
      hback).2 (.inl rfl)⟩

end CodecDocs
