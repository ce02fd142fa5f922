import CodecDocs.Document
import CodecDocs.Proofs.Worklist
import CodecDocs.Proofs.Schema.Nodes

/-! The loop that expands names until none waits, apart from how a name is expanded. It is said once
what the loop does to its worklist, one name after the other; which names it comes to, with which
tokens, and what is seen at its end follow from that for any outcomes. -/

namespace CodecDocs

open Worklist

/-- A schema leaves the names that it refers to; a failure leaves nothing. -/
def Worklist.advance (w : Worklist) : Except Fault Schema → Worklist
  | .ok schema => w.visitAll schema
  | .error _ => w

/-- The names of a worklist are taken one by one, with these outcomes. -/
inductive Drained : Worklist → List Expansion → Worklist → Prop
  | stop (w : Worklist) : Drained w [] w
  | step {w rest last : Worklist} {target : Target} {outcome : Except Fault Schema}
    {expansions : List Expansion} (next : w.takeNext = some (target, rest))
    (more : Drained (rest.advance outcome) expansions last) :
    Drained w (⟨target, (rest.token? target).getD target.1, outcome⟩ :: expansions) last

namespace Setting

variable (s : Setting)

theorem drain_of_none {w : Worklist} (h : w.takeNext = none) (limit : ℕ) (session : Session) :
    s.drain limit w session = ((w, []), session) := by
  cases limit with
  | zero => rfl
  | succ limit => simp only [drain, h]; rfl

/-- One round of the loop. -/
theorem drain_succ {w rest : Worklist} {target : Target} (h : w.takeNext = some (target, rest))
    (limit : ℕ) (session : Session) :
    s.drain (limit + 1) w session =
      let made := s.component target session
      let more := s.drain limit (rest.advance made.1) made.2
      ((more.1.1, ⟨target, (rest.token? target).getD target.1, made.1⟩ :: more.1.2), more.2) := by
  simp only [drain, h]
  rfl

theorem drained_drain (limit : ℕ) (w : Worklist) (session : Session) :
    Drained w (s.drain limit w session).1.2 (s.drain limit w session).1.1 := by
  induction limit generalizing w session with
  | zero => exact .stop w
  | succ limit ih =>
    cases h : w.takeNext with
    | none =>
      rw [s.drain_of_none h]
      exact .stop w
    | some next =>
      obtain ⟨target, rest⟩ := next
      rw [s.drain_succ h]
      exact .step h (ih _ _)

/-- More rounds than it takes change nothing. -/
theorem drain_of_finished {limit : ℕ} {w : Worklist} {session : Session}
    (h : (s.drain limit w session).1.1.queue = []) (more : ℕ) :
    s.drain (limit + more) w session = s.drain limit w session := by
  induction limit generalizing w session with
  | zero =>
    have hnone : w.takeNext = none := by
      have hq : w.queue = [] := h
      simp [takeNext, hq]
    rw [s.drain_of_none hnone, s.drain_of_none hnone]
  | succ limit ih =>
    cases hw : w.takeNext with
    | none => rw [s.drain_of_none hw, s.drain_of_none hw]
    | some next =>
      obtain ⟨target, rest⟩ := next
      rw [s.drain_succ hw] at h
      rw [Nat.add_right_comm, s.drain_succ hw, s.drain_succ hw]
      dsimp only
      rw [ih h]

end Setting

namespace Drained

variable {w last : Worklist} {es : List Expansion} {taken : List Target}

theorem seen_advance (w : Worklist) (outcome : Except Fault Schema) :
    w.seen <+: (w.advance outcome).seen := by
  cases outcome with
  | ok schema => exact seen_visitTargets w _
  | error e => exact List.prefix_rfl

theorem consistent_advance (h : Consistent taken w) (outcome : Except Fault Schema) :
    Consistent taken (w.advance outcome) := by
  cases outcome with
  | ok schema => exact h.visitTargets _
  | error e => exact h

/-- What was seen stays seen, in its place and with its token. -/
theorem seen (h : Drained w es last) (hc : Consistent taken w) : w.seen <+: last.seen := by
  induction h generalizing taken with
  | stop w => exact List.prefix_rfl
  | step next more ih =>
    obtain ⟨hrest, hseen, -⟩ := hc.takeNext next
    rw [← hseen]
    exact (seen_advance _ _).trans (ih (consistent_advance hrest _))

theorem consistent (h : Drained w es last) (hc : Consistent taken w) :
    Consistent (taken ++ es.map Expansion.target) last := by
  induction h generalizing taken with
  | stop w => simpa using hc
  | step next more ih =>
    obtain ⟨hrest, -, -⟩ := hc.takeNext next
    have := ih (consistent_advance hrest _)
    rwa [List.append_assoc] at this

/-- The token of an expansion is the one that its name has in the end. -/
theorem token? (h : Drained w es last) (hc : Consistent taken w) :
    ∀ e ∈ es, last.token? e.target = some e.token := by
  induction h generalizing taken with
  | stop w => simp
  | @step w rest last target outcome es next more ih =>
    obtain ⟨hrest, hseen, hmem⟩ := hc.takeNext next
    have hadvance := consistent_advance hrest outcome
    refine List.forall_mem_cons.mpr ⟨?_, ih hadvance⟩
    obtain ⟨token, ht⟩ := exists_token (w := rest) (hseen ▸ hmem)
    simp only [ht, Option.getD_some]
    exact token?_of_prefix ((seen_advance _ _).trans (more.seen hadvance)) ht

/-- What the schema of an expansion refers to is seen in the end. -/
theorem visited (h : Drained w es last) (hc : Consistent taken w) :
    ∀ e ∈ es, ∀ schema, e.outcome = .ok schema → ∀ t, schema.Refers t → t ∈ last.seen.keys := by
  induction h generalizing taken with
  | stop w => simp
  | @step w rest last target outcome es next more ih =>
    obtain ⟨hrest, -, -⟩ := hc.takeNext next
    have hadvance := consistent_advance hrest outcome
    refine List.forall_mem_cons.mpr ⟨?_, ih hadvance⟩
    rintro schema rfl t ht
    have hnext : t ∈ (rest.visitAll schema).seen.keys :=
      mem_keys_visitTargets.mpr (.inr (Schema.mem_references.mpr ht))
    exact ((more.seen hadvance).map Prod.fst).subset hnext

/-- A set with the names at the start that is closed under what the schemas refer to holds
everything that is ever seen. -/
theorem seen_subset (h : Drained w es last) (hc : Consistent taken w) {S : Set Target}
    (hw : ∀ t ∈ w.seen.keys, t ∈ S)
    (hS : ∀ e ∈ es, e.target ∈ S → ∀ schema, e.outcome = .ok schema →
      ∀ t, schema.Refers t → t ∈ S) : ∀ t ∈ last.seen.keys, t ∈ S := by
  induction h generalizing taken with
  | stop w => exact hw
  | @step w rest last target outcome es next more ih =>
    obtain ⟨hrest, hseen, hmem⟩ := hc.takeNext next
    rw [List.forall_mem_cons] at hS
    refine ih (consistent_advance hrest _) (fun t ht => ?_) hS.2
    rw [← hseen] at hw hmem
    cases outcome with
    | error e => exact hw t ht
    | ok schema =>
      rcases mem_keys_visitTargets.mp ht with ht | ht
      · exact hw t ht
      · exact hS.1 (hw target hmem) schema rfl t (Schema.mem_references.mp ht)

/-! ### When nothing waits any more -/

theorem keys_of_finished (h : Drained w es last) (hc : Consistent [] w) (hq : last.queue = []) :
    last.seen.keys = es.map Expansion.target := by
  rw [(h.consistent hc).order, hq, List.nil_append, List.append_nil]

theorem values_of_finished (h : Drained w es last) (hc : Consistent [] w) (hq : last.queue = []) :
    last.seen.values = es.map Expansion.token :=
  Table.values_eq_map (h.consistent hc).distinct (h.keys_of_finished hc hq) (h.token? hc)

theorem nodup_targets (h : Drained w es last) (hc : Consistent [] w) :
    (es.map Expansion.target).Nodup := by
  have := (h.consistent hc).distinct
  rw [Table.Distinct, (h.consistent hc).order, List.nil_append] at this
  exact (List.nodup_append.mp this).1

end Drained

/-! ### Surveys -/

/-- Every name has been expanded; see `Setting.survey_of_finished`. -/
def Survey.Finished (v : Survey) : Prop := v.worklist.queue = []

instance (v : Survey) : Decidable v.Finished := inferInstanceAs (Decidable (v.worklist.queue = []))

namespace Setting

variable (s : Setting) (options : DocumentOptions) (entry : String)

/-- Where expansion starts: at the exports that are no specifications, if these are asked for, and
at what the schemas of the operations refer to. -/
def IsRoot (operations : List Operation) (target : Target) : Prop :=
  (options.exports = true ∧
    ∃ d ∈ s.project.exportedDefinitions entry, d.isSpec = false ∧ target = d.target) ∨
  ∃ o ∈ operations, ∃ schema ∈ o.schemas, schema.Refers target

theorem visitSchemas (schemas : List Schema) (w : Worklist) :
    schemas.foldl visitAll w = w.visitTargets (schemas.flatMap Schema.references) := by
  induction schemas generalizing w with
  | nil => rfl
  | cons schema schemas ih =>
    rw [List.foldl_cons, ih, List.flatMap_cons, visitTargets_append]
    rfl

theorem visitOperations (operations : List Operation) (w : Worklist) :
    operations.foldl (fun w o => o.schemas.foldl visitAll w) w =
      w.visitTargets (operations.flatMap fun o => o.schemas.flatMap Schema.references) := by
  induction operations generalizing w with
  | nil => rfl
  | cons o operations ih =>
    rw [List.foldl_cons, ih, List.flatMap_cons, visitTargets_append, visitSchemas]

theorem roots_eq (operations : List Operation) :
    s.roots options entry operations = Worklist.empty.visitTargets
      ((if options.exports then
          ((s.project.exportedDefinitions entry).filter fun d => !d.isSpec).map Definition.target
        else []) ++ operations.flatMap fun o => o.schemas.flatMap Schema.references) := by
  rw [roots, visitOperations, visitTargets_append]
  split_ifs <;> rfl

theorem consistent_roots (operations : List Operation) :
    Consistent [] (s.roots options entry operations) := by
  rw [roots_eq]
  exact consistent_empty.visitTargets _

theorem mem_keys_roots {operations : List Operation} {target : Target} :
    target ∈ (s.roots options entry operations).seen.keys ↔
      s.IsRoot options entry operations target := by
  rw [roots_eq, mem_keys_visitTargets]
  simp only [Worklist.empty, Table.keys_nil, List.not_mem_nil, false_or, List.mem_append,
    List.mem_flatMap, Schema.mem_references, IsRoot]
  refine or_congr_left ?_
  split_ifs with h
  · simp only [List.mem_map, List.mem_filter, Bool.not_eq_true', h, true_and]
    constructor
    · rintro ⟨d, ⟨hd, hs⟩, rfl⟩
      exact ⟨d, hd, hs, rfl⟩
    · rintro ⟨d, hd, hs, rfl⟩
      exact ⟨d, ⟨hd, hs⟩, rfl⟩
  · simp [h]

variable (limit : ℕ) (session : Session)

theorem survey_apply :
    s.survey limit options entry session =
      let made := ((s.project.exportedDefinitions entry).filter Definition.isSpec).mapM
        s.specRoutes session
      let out := s.drain limit (s.roots options entry (Route.operations made.1.flatten)) made.2
      (⟨made.1.flatten, out.1.1, out.1.2⟩, out.2) := rfl

/-- What a survey does to its worklist. -/
theorem drained_survey :
    Drained (s.roots options entry (s.survey limit options entry session).1.operations)
      (s.survey limit options entry session).1.expansions
      (s.survey limit options entry session).1.worklist :=
  s.drained_drain _ _ _

/-- A survey that has finished is the one without a bound: no larger bound changes it. -/
theorem survey_of_finished (h : (s.survey limit options entry session).1.Finished) (more : ℕ) :
    s.survey (limit + more) options entry session = s.survey limit options entry session := by
  rw [survey_apply] at h
  rw [survey_apply, survey_apply]
  dsimp only
  rw [s.drain_of_finished h more]

end Setting

open Script in
/-- A module with a codec that refers to itself, to another one and to one that fails. -/
def forest : Project :=
  let here : Span := default
  let tree := .array [.ident "Tree" here, .ident "Leaf" here, .ident "Gone" here] here
  Project.assemble [("forest.ts", "", [.declares ⟨"Tree", some tree, true, none, here⟩,
    .declares ⟨"Leaf", some (.string "leaf" here), false, none, here⟩,
    .declares ⟨"Gone", some (.regex here), false, none, here⟩])]

def forestSurvey : Survey :=
  ((Setting.mk forest .empty none).survey 3 ⟨.empty, true⟩ "forest.ts" .start).1

end CodecDocs
