import CodecDocs.Proofs.Document.Drain
import CodecDocs.Proofs.Evaluation.History
import Mathlib.Data.Set.Insert
import Mathlib.Order.Bounds.Defs

/-! The names that a document comes to. They are the least set that has the roots and, with every
name that expands, what its schema refers to; each name is expanded once. What a name expands to is
a matter of the setting alone, since evaluation carries no history. -/

namespace CodecDocs.Setting

variable (s : Setting)

/-- A name that expands leads to what its canonical schema refers to. -/
def Leads (target next : Target) : Prop :=
  ∃ schema doc, (s.expand target.1 target.2 Session.start).1 = .ok (schema, doc) ∧
    (schema.withComment doc).canonical.Refers next

/-- The sets of names with the roots and all that they lead to. -/
def ClosedUnder (options : DocumentOptions) (entry : String) (operations : List Operation) :
    Set (Set Target) :=
  {S | (∀ target, s.IsRoot options entry operations target → target ∈ S) ∧
    ∀ target ∈ S, ∀ next, s.Leads target next → next ∈ S}

/-! ### Outcomes -/

/-- What becomes of a name, whatever was asked before. -/
def outcomeOf (target : Target) : Except Fault Schema := (s.component target Session.start).1

theorem component_apply (target : Target) (session : Session) :
    (s.component target session).1 =
      (s.expand target.1 target.2 session).1.map fun found =>
        (found.1.withComment found.2).canonical := by
  cases h : s.expand target.1 target.2 session with
  | mk outcome after =>
    cases outcome with
    | ok found => rw [component, Eval.bind_of_ok h]; rfl
    | error e => rw [component, Eval.bind_of_error h]; rfl

theorem leads_iff {target next : Target} :
    s.Leads target next ↔ ∃ schema, s.outcomeOf target = .ok schema ∧ schema.Refers next := by
  unfold Leads outcomeOf
  rw [component_apply]
  cases (s.expand target.1 target.2 Session.start).1 with
  | error e => simp [Except.map]
  | ok found => simp [Except.map, Prod.ext_iff]

theorem drain_outcomes (limit : ℕ) (w : Worklist) (asked : List Query) :
    ∀ e ∈ (s.drain limit w ⟨[], asked⟩).1.2, e.outcome = s.outcomeOf e.target := by
  induction limit generalizing w asked with
  | zero =>
    intro e he
    cases he
  | succ limit ih =>
    cases h : w.takeNext with
    | none => simp [s.drain_of_none h]
    | some next =>
      obtain ⟨target, rest⟩ := next
      obtain ⟨outcome, more, ho⟩ := Eval.steady_iff.mp (s.steady_component target) []
      have hstart : s.outcomeOf target = outcome := by rw [outcomeOf, Session.start, ho]
      rw [s.drain_succ h, ho]
      refine List.forall_mem_cons.mpr ⟨hstart.symm, ?_⟩
      exact ih _ _

theorem survey_outcomes (options : DocumentOptions) (entry : String) (limit : ℕ)
    (asked : List Query) :
    ∀ e ∈ (s.survey limit options entry ⟨[], asked⟩).1.expansions,
      e.outcome = s.outcomeOf e.target := by
  have hroutes := Session.Steady.mapM s.steady_specRoutes
    ((s.project.exportedDefinitions entry).filter Definition.isSpec)
  obtain ⟨routes, more, hr⟩ := hroutes []
  rw [survey_apply]
  dsimp only
  rw [hr]
  exact s.drain_outcomes limit _ _

/-! ### The least closed set -/

/-- Expansion comes to the least set of names that has the roots and all that its names lead to, and
to each of them once; what becomes of a name does not depend on the others. No larger bound changes
any of this. -/
theorem expanded_isLeast (options : DocumentOptions) (entry : String) (limit : ℕ)
    (asked : List Query) (v : Survey) (hv : (s.survey limit options entry ⟨[], asked⟩).1 = v)
    (hf : v.Finished) :
    IsLeast (s.ClosedUnder options entry v.operations)
      {target | target ∈ v.expansions.map Expansion.target} ∧
    (v.expansions.map Expansion.target).Nodup ∧
    (∀ e ∈ v.expansions, e.outcome = s.outcomeOf e.target) ∧
    ∀ more, (s.survey (limit + more) options entry ⟨[], asked⟩).1 = v := by
  have houtcome := s.survey_outcomes options entry limit asked
  have hd := s.drained_survey options entry limit ⟨[], asked⟩
  have hc := s.consistent_roots options entry
    (s.survey limit options entry ⟨[], asked⟩).1.operations
  rw [hv] at houtcome hd hc
  have hbound : ∀ more, (s.survey (limit + more) options entry ⟨[], asked⟩).1 = v := fun more => by
    rw [s.survey_of_finished options entry limit ⟨[], asked⟩ (by rwa [hv]), hv]
  have hkeys := hd.keys_of_finished hc hf
  refine ⟨⟨⟨fun target hroot => ?_, fun target ht next hl => ?_⟩, fun S hS target ht => ?_⟩,
    hd.nodup_targets hc, houtcome, hbound⟩
  · have hmem := (s.mem_keys_roots options entry).mpr hroot
    have := ((hd.seen hc).map Prod.fst).subset hmem
    exact hkeys ▸ this
  · obtain ⟨e, he, rfl⟩ := List.mem_map.mp ht
    obtain ⟨schema, hs, hr⟩ := s.leads_iff.mp hl
    have := hd.visited hc e he schema ((houtcome e he).trans hs) next hr
    exact hkeys ▸ this
  · have hroots := fun x hx => hS.1 x ((s.mem_keys_roots options entry).mp hx)
    refine hd.seen_subset hc hroots ?_ target ?_
    · intro e he hmem schema hok next hr
      exact hS.2 e.target hmem next (s.leads_iff.mpr ⟨schema, (houtcome e he).symm.trans hok, hr⟩)
    · rw [hkeys]
      exact ht

/-- The codec that refers to itself and the one that fails are expanded, once each. -/
theorem expanded_isLeast_forest :
    IsLeast ((Setting.mk forest .empty none).ClosedUnder ⟨.empty, true⟩ "forest.ts" [])
      {("Tree", .source "forest.ts"), ("Leaf", .source "forest.ts"),
        ("Gone", .source "forest.ts")} := by
  have hf : forestSurvey.Finished := by decide
  have h := (Setting.mk forest .empty none).expanded_isLeast ⟨.empty, true⟩ "forest.ts" 3 []
    forestSurvey rfl hf
  have htargets : forestSurvey.expansions.map Expansion.target =
      [("Tree", .source "forest.ts"), ("Leaf", .source "forest.ts"),
        ("Gone", .source "forest.ts")] := by decide
  have hset : {target | target ∈ forestSurvey.expansions.map Expansion.target} =
      ({("Tree", .source "forest.ts"), ("Leaf", .source "forest.ts"),
        ("Gone", .source "forest.ts")} : Set Target) := by
    rw [htargets]
    ext target
    simp
  exact hset ▸ h.1

end CodecDocs.Setting
