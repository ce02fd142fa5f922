import CodecDocs.Proofs.Evaluation.Referent
import Mathlib.Algebra.Order.BigOperators.Group.List
import Mathlib.Logic.Relation
import Mathlib.Tactic.Linarith

/-! Evaluation ends. It leaves an expression in three ways: it expands a name, which is not being
expanded yet; it evaluates the body of a function that is called; and it looks through other names,
which has a bound of its own. Where no function leads back to itself by calls, the definitions not
yet being expanded and the calls still ahead bound the depth of evaluation, so that the bound of the
project is never exhausted and a larger one changes nothing. -/

namespace CodecDocs

open Eval Script

/-- What is called in the expression that a call of a definition amounts to. -/
def Definition.callees (d : Definition) : List Expr :=
  ((Setting.callBody? d).map Expr.callees).getD []

namespace Setting

variable {s : Setting} {f g : Definition}

/-! ### Calls -/

/-- The body of one function without parameters has a call that leads to the body of another. -/
def Calls (s : Setting) (f g : Definition) : Prop :=
  ∃ callee ∈ f.callees, s.referent callee f.moduleId = .ok (.definition g) ∧ (callBody? g).isSome

theorem Calls.mem_definitions (h : s.Calls f g) : g ∈ s.project.definitions := by
  obtain ⟨callee, -, hg, -⟩ := h
  exact holds_of_referentWithin _ hg

open Classical in
/-- The number of definitions that calls lead to from a definition. -/
noncomputable def callRank (s : Setting) (f : Definition) : ℕ :=
  s.project.definitions.countP fun g => decide (Relation.TransGen s.Calls f g)

theorem callRank_le (s : Setting) (f : Definition) :
    s.callRank f ≤ s.project.definitions.length := List.countP_le_length

/-- A call leads to fewer definitions: where there are no cycles, not to its own. -/
theorem callRank_lt (hc : ∀ f, ¬ Relation.TransGen s.Calls f f) (h : s.Calls f g) :
    s.callRank g < s.callRank f := by
  classical
  refine countP_lt_countP (fun x _ hx => ?_) h.mem_definitions ?_ ?_
  · rw [decide_eq_true_eq] at hx ⊢
    exact .head h hx
  · exact decide_eq_false (hc g)
  · exact decide_eq_true (.single h)

/-- All calls in an expression of a module lead to fewer than so many definitions. -/
def CallsBelow (s : Setting) (r : ℕ) (e : Expr) (id : String) : Prop :=
  ∀ callee ∈ e.callees, ∀ d, s.referent callee id = .ok (.definition d) →
    (callBody? d).isSome → s.callRank d < r

theorem callsBelow_body (hc : ∀ f, ¬ Relation.TransGen s.Calls f f) {body : Expr}
    (h : callBody? f = some body) : s.CallsBelow (s.callRank f) body f.moduleId := by
  intro callee hcallee d hd hb
  exact callRank_lt hc ⟨callee, by rwa [Definition.callees, h], hd, hb⟩

theorem callsBelow_all (s : Setting) (e : Expr) (id : String) :
    s.CallsBelow (s.project.definitions.length + 1) e id :=
  fun _ _ d _ _ => Nat.lt_succ_of_le (s.callRank_le d)

/-- Whether calls in the bodies of functions lead from higher to lower ranks. -/
def callsDescend (s : Setting) (rank : Definition → ℕ) : Bool :=
  s.project.definitions.all fun f => f.callees.all fun callee =>
    match s.referent callee f.moduleId with
    | .ok (.definition g) => (callBody? g).isNone || rank g < rank f
    | _ => true

theorem rank_lt_of_calls {rank : Definition → ℕ} (h : s.callsDescend rank)
    (hf : f ∈ s.project.definitions) (hfg : s.Calls f g) : rank g < rank f := by
  obtain ⟨callee, hcallee, hg, hb⟩ := hfg
  have hdown := List.all_eq_true.mp (List.all_eq_true.mp h f hf) callee hcallee
  rw [hg] at hdown
  simpa [Option.isSome_iff_ne_none.mp hb] using hdown

/-- Ranks that descend rule out cycles of calls. -/
theorem not_transGen_of_callsDescend {rank : Definition → ℕ} (h : s.callsDescend rank)
    (f : Definition) : ¬ Relation.TransGen s.Calls f f := by
  intro hcycle
  have hmem : f ∈ s.project.definitions := by
    cases hcycle with
    | single hlast | tail _ hlast => exact hlast.mem_definitions
  have hlt : ∀ {g}, Relation.TransGen s.Calls f g →
      g ∈ s.project.definitions ∧ rank g < rank f := by
    intro g hg
    induction hg with
    | single hfirst => exact ⟨hfirst.mem_definitions, rank_lt_of_calls h hmem hfirst⟩
    | tail _ hnext ih => exact ⟨hnext.mem_definitions, (rank_lt_of_calls h ih.1 hnext).trans ih.2⟩
  exact lt_irrefl _ (hlt hcycle).2

/-! ### Names to be expanded -/

/-- What evaluation refers to: definitions of the project and exports of packages. -/
def Named (s : Setting) (target : Target) : Prop :=
  (∃ d ∈ s.project.definitions, d.target = target) ∨ ∃ package, target.2 = .package package

/-- The number of definitions that are not being expanded. -/
def freshTargets (s : Setting) (E : List Target) : ℕ :=
  s.project.definitions.countP fun d => !E.contains d.target

theorem freshTargets_le (s : Setting) (E : List Target) :
    s.freshTargets E ≤ s.project.definitions.length := List.countP_le_length

theorem freshTargets_lt {d : Definition} {E : List Target} (hd : d ∈ s.project.definitions)
    (h : d.target ∉ E) : s.freshTargets (d.target :: E) < s.freshTargets E := by
  refine countP_lt_countP (fun x _ hx => ?_) hd (by simp) (by simpa using h)
  have hx : x.target ∉ d.target :: E := by simpa using hx
  simpa using fun he => hx (List.mem_cons_of_mem _ he)

/-- The depth that evaluation may take under names being expanded: from one name to the next it
leaves each definition at most once. -/
def room (s : Setting) (E : List Target) : ℕ :=
  s.freshTargets E * (s.project.definitions.length + 3)

theorem room_le (s : Setting) (E : List Target) :
    s.room E ≤ s.project.definitions.length * (s.project.definitions.length + 3) :=
  Nat.mul_le_mul_right _ (s.freshTargets_le E)

theorem room_cons {d : Definition} {E : List Target} (hd : d ∈ s.project.definitions)
    (h : d.target ∉ E) :
    s.room (d.target :: E) + (s.project.definitions.length + 3) ≤ s.room E := by
  have hlt := Nat.mul_le_mul_right (s.project.definitions.length + 3) (freshTargets_lt hd h)
  rwa [Nat.succ_mul] at hlt

/-! ### Bounds that suffice -/

/-- Two bounds that leave room enough agree and are not exhausted. The induction is on the lesser
bound: a call takes from the rank of the calls, a name from the room, and both take a step. -/
theorem agree_of_room (hs : s.Legible False s.Named) (hc : ∀ f, ¬ Relation.TransGen s.Calls f f)
    (k : ℕ) : ∀ n ≥ k, ∀ m ≥ k, ∀ E,
    (∀ r e id, s.CallsBelow r e id → s.room E + r + 3 ≤ k →
      Agree E False (Schema.Sound s.Named) ((s.beyond n).evaluate e id)
        ((s.beyond m).evaluate e id)) ∧
    ∀ x : Schema, x.Sound s.Named → s.room E + 2 ≤ k →
      Agree E False (Schema.Sound s.Named) ((s.beyond n).deref x) ((s.beyond m).deref x) := by
  induction k with
  | zero => exact fun _ _ _ _ _ => ⟨fun _ _ _ _ h => by omega, fun _ _ h => by omega⟩
  | succ k ih =>
    intro n hn m hm E
    obtain ⟨n, rfl⟩ : ∃ i, n = i + 1 := ⟨n - 1, by omega⟩
    obtain ⟨m, rfl⟩ : ∃ i, m = i + 1 := ⟨m - 1, by omega⟩
    replace ih := ih n (by omega) m (by omega)
    constructor
    · intro r e id hbelow hk
      refine s.agree_within id e.span (agree_form hs (fun x hx => (ih E).2 x hx (by omega)) e ?_)
      intro callee hcallee d body hd hb
      have hr := hbelow callee hcallee d hd (by rw [hb]; rfl)
      exact (ih E).1 _ body d.moduleId (callsBelow_body hc hb) (by omega)
    · intro x hx hk
      refine (agree_derefWith hs x ?_).mono fun _ hy => hy hx
      rintro name origin notes rfl ht
      rcases Schema.sound_reference.mp hx with ⟨d, hd, heq⟩ | ⟨package, hpackage⟩
      · rw [← heq] at ht ⊢
        have hroom := room_cons hd ht
        exact ⟨fun _ d _ _ => (ih _).1 _ d.init d.moduleId (s.callsBelow_all _ _) (by omega),
          fun y hy _ => (ih _).2 y hy (by omega)⟩
      · -- an export of a package comes out as all values, whatever room is left
        obtain ⟨n, rfl⟩ : ∃ i, n = i + 1 := ⟨n - 1, by omega⟩
        obtain ⟨m, rfl⟩ : ∃ i, m = i + 1 := ⟨m - 1, by omega⟩
        refine ⟨fun id _ hid => ?_, fun y hy hany => ?_⟩
        · rw [hpackage] at hid
          cases hid
        · rw [hany package hpackage]
          exact .pure (Schema.sound_any _)

/-! ### The bound of a project -/

/-- The names that modules declare or import, by their number. -/
def nameCount (s : Setting) : ℕ :=
  (s.project.modules.map fun e => e.2.declarations.length + e.2.imports.length).sum

theorem nameCount_le_depthBound (s : Setting) :
    (s.nameCount + 30) * (s.nameCount + 30) ≤ s.depthBound := by
  have hsum : ∀ (l : Table String SourceModule) (n : ℕ),
      l.foldl (fun n e => n + (e.2.declarations.length + e.2.imports.length)) n =
        (l.map fun e => e.2.declarations.length + e.2.imports.length).sum + n := by
    intro l
    induction l with
    | nil => simp
    | cons e l ih =>
      intro n
      rw [List.foldl_cons, ih, List.map_cons, List.sum_cons]
      omega
  have hnames := hsum s.project.modules 30
  unfold depthBound nameCount
  rw [← hnames]
  exact Nat.le_add_right _ _

theorem length_definitions_le (s : Setting) : s.project.definitions.length ≤ s.nameCount := by
  rw [nameCount, Project.definitions, List.length_flatMap]
  refine List.sum_le_sum fun e _ => ?_
  exact (List.length_filterMap_le _ _).trans (Nat.le_add_right _ _)

theorem room_le_depthBound (s : Setting) (E : List Target) :
    s.room E + (s.project.definitions.length + 1) + 4 ≤ s.depthBound := by
  have hroom := s.room_le E
  have hnames := s.length_definitions_le
  set d := s.project.definitions.length
  calc s.room E + (d + 1) + 4 ≤ d * (d + 3) + (d + 1) + 4 := by omega
    _ ≤ (d + 30) * (d + 30) := by nlinarith
    _ ≤ (s.nameCount + 30) * (s.nameCount + 30) := by gcongr
    _ ≤ s.depthBound := s.nameCount_le_depthBound

section Bound

variable (hs : s.Legible False s.Named) (hc : ∀ f, ¬ Relation.TransGen s.Calls f f)
include hs hc

/-- Names agree whatever is being expanded, also one step below the bound of the project. -/
theorem nameAgrees_of_depthBound {n m : ℕ} (hn : s.depthBound ≤ n + 1) (hm : s.depthBound ≤ m + 1)
    (E : List Target) (target : Target) :
    s.NameAgrees E False s.Named (s.beyond n) (s.beyond m) target := by
  intro _
  have hroom := s.room_le_depthBound (target :: E)
  have hagree := agree_of_room hs hc (s.depthBound - 1) n (by omega) m (by omega) (target :: E)
  exact ⟨fun _ d _ _ => hagree.1 _ d.init d.moduleId (s.callsBelow_all _ _) (by omega),
    fun y hy _ => hagree.2 y hy (by omega)⟩

theorem agree_evaluate {n : ℕ} (hn : s.depthBound ≤ n) (E : List Target) (e : Expr) (id : String) :
    Agree E False (Schema.Sound s.Named) (s.evaluate e id) ((s.beyond n).evaluate e id) := by
  have hroom := s.room_le_depthBound E
  exact (agree_of_room hs hc s.depthBound _ le_rfl n hn E).1 _ e id (s.callsBelow_all e id)
    (by omega)

theorem agree_guarded_expandWith {n : ℕ} (hn : s.depthBound ≤ n) (E : List Target) (name : String)
    (origin : Origin) : Agree E False (fun found => found.1.Sound s.Named) (s.expand name origin)
      (Eval.guarded (name, origin) (s.expandWith (s.beyond n) name origin)) :=
  NameAgrees.expand hs (nameAgrees_of_depthBound hs hc (by omega) (by omega) E (name, origin))

theorem agree_deref {n : ℕ} (hn : s.depthBound ≤ n) (E : List Target) (x : Schema) :
    Agree E False (fun y => x.Sound s.Named → y.Sound s.Named) (s.deref x)
      ((s.beyond n).deref x) := by
  have hroom := s.room_le_depthBound E
  obtain ⟨k, hk⟩ : ∃ k, s.depthBound = k + 1 := ⟨s.depthBound - 1, by omega⟩
  obtain ⟨n, rfl⟩ : ∃ k, n = k + 1 := ⟨n - 1, by omega⟩
  rw [deref, hk]
  exact agree_derefWith hs x fun name origin _ _ =>
    nameAgrees_of_depthBound hs hc (by omega) (by omega) E (name, origin)

end Bound

end Setting

/-- An evaluation that agrees with another one, where no bound may be exhausted. -/
theorem Eval.Agree.ended {α : Type} {post : α → Prop} {act act' : Eval α} {session : Session}
    (h : Agree session.expanding False post act act') :
    Ended (act session).1 ∧ act' session = act session := by
  obtain ⟨outcome, more, heq, heq', -, hends⟩ := h session.asked
  rw [heq, heq']
  exact ⟨hends, rfl⟩

namespace Setting

variable {s : Setting}

/-- Evaluation, expansion and dereferencing end within the bound of the project, and the same way
within any larger one. A name that is being expanded already is refused as circular. -/
theorem evaluation_ends (hp : s.project.Ends) (hr : s.registry.Standard) (ho : s.oracle = none)
    (hc : ∀ f, ¬ Relation.TransGen s.Calls f f) (session : Session) :
    (∀ e id, Ended (s.evaluate e id session).1 ∧
      ∀ n ≥ s.depthBound, (s.beyond n).evaluate e id session = s.evaluate e id session) ∧
    (∀ name origin, Ended (s.expand name origin session).1 ∧
      ∀ n ≥ s.depthBound, Eval.guarded (name, origin) (s.expandWith (s.beyond n) name origin)
        session = s.expand name origin session) ∧
    (∀ schema, Ended (s.deref schema session).1 ∧
      ∀ n ≥ s.depthBound, (s.beyond n).deref schema session = s.deref schema session) ∧
    ∀ name origin, (name, origin) ∈ session.expanding →
      s.expand name origin session = (.error (.circular name origin), session) ∧
      ∀ notes, s.deref (.reference name origin notes) session =
          (.error (.circular name origin), session) ∧
        ∀ n, (s.beyond (n + 1)).deref (.reference name origin notes) session =
          (.error (.circular name origin), session) := by
  have hs : s.Legible False s.Named :=
    legible ho hr.plain (fun d hd => .inl ⟨d, hd, rfl⟩) (fun package _ _ => .inr ⟨package, rfl⟩)
      (.inr hp)
  refine ⟨fun e id => ?_, fun name origin => ?_, fun schema => ?_, fun name origin hin => ?_⟩
  · exact ⟨(agree_evaluate hs hc le_rfl _ e id).ended.1,
      fun n hn => (agree_evaluate hs hc hn _ e id).ended.2⟩
  · exact ⟨(agree_guarded_expandWith hs hc le_rfl _ name origin).ended.1,
      fun n hn => (agree_guarded_expandWith hs hc hn _ name origin).ended.2⟩
  · exact ⟨(agree_deref hs hc le_rfl _ schema).ended.1,
      fun n hn => (agree_deref hs hc hn _ schema).ended.2⟩
  · have hcircular : ∀ notes n, (s.beyond (n + 1)).deref (.reference name origin notes) session =
        (.error (.circular name origin), session) :=
      fun _ _ => bind_of_error (guarded_inside _ hin session.asked) _
    refine ⟨guarded_inside _ hin session.asked, fun notes => ⟨?_, hcircular notes⟩⟩
    rw [← (agree_deref hs hc (Nat.le_succ _) _ _).ended.2, hcircular]

end Setting

/-- Spreads and other names that lead back to themselves, and functions that call one another. -/
def cycleSources : List (String × String) :=
  [("a.ts", "import { make } from './b'; export const A = { ...B }; " ++
      "const B = { own: make(), ...A }; const C = D; const D = C"),
    ("b.ts", "import { A } from './a'; export const make = () => inner(); " ++
      "const inner = () => [A, make]")]

theorem Setting.evaluation_ends_cycles :
    ∃ p, Project.ofSources cycleSources = .ok p ∧ p.Ends ∧
      (∀ f, ¬ Relation.TransGen (Setting.mk p .builtin none).Calls f f) ∧
      Ended ((Setting.mk p .builtin none).expand "A" (.source "a.ts") .start).1 ∧
      (Setting.mk p .builtin none).expand "A" (.source "a.ts") ⟨[("A", .source "a.ts")], []⟩ =
        (.error (.circular "A" (.source "a.ts")), ⟨[("A", .source "a.ts")], []⟩) := by
  have hrun : (Project.ofSources cycleSources).toOption.map (fun p => decide p.Ends &&
      (Setting.mk p .builtin none).callsDescend fun d => if d.name = "make" then 1 else 0) =
        some true := by decide +kernel
  cases hp : Project.ofSources cycleSources with
  | error e =>
    rw [hp] at hrun
    cases hrun
  | ok p =>
    rw [hp] at hrun
    have hboth := Bool.and_eq_true_iff.mp (Option.some.inj hrun)
    have hends := of_decide_eq_true hboth.1
    have hcalls := not_transGen_of_callsDescend hboth.2
    have hall := evaluation_ends (s := ⟨p, .builtin, none⟩) hends (.inl rfl) rfl hcalls
    exact ⟨p, rfl, hends, hcalls, ((hall .start).2.1 "A" (.source "a.ts")).1,
      ((hall ⟨[("A", .source "a.ts")], []⟩).2.2.2 "A" (.source "a.ts") List.mem_cons_self).1⟩

end CodecDocs
