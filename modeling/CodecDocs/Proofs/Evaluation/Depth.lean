import CodecDocs.Proofs.Evaluation.Approximation
import CodecDocs.Proofs.Evaluation.Termination

/-! The bound on the depth of evaluation. An evaluation that ends at some depth ends alike at every
greater one, and also within fewer names, unless a name stops it. Without an oracle the bound of the
project is depth enough for all that ends at any depth: a name is not expanded within itself, and a
call that comes to an end makes no call of its own function under the same names. -/

namespace CodecDocs

open Eval
open Script (Expr)

/-- A larger bound, within the same names. -/
def Slack.deeper : Slack := ⟨False, True⟩

namespace Eval.Approximates

variable {α : Type} {slack : Slack} {E E' : List Target} {post : α → Prop}
  {first act act' : Eval α}

/-- An evaluation that does not end approximates one with a larger bound. -/
theorem of_not_ended (ha : act.Steady) (h : ¬ Ended (act ⟨E, []⟩).1) (hb : slack.bound) :
    Approximates slack E E' post act act' := by
  intro asked
  obtain ⟨outcome, more, heq⟩ := steady_iff.mp ha E
  rw [heq, Ended, not_not] at h
  exact ⟨outcome, asked ++ more, heq asked, .inl ⟨.exhausted, h, hb⟩⟩

/-- Two evaluations that an ending one approximates end alike. -/
theorem join (h : Approximates slack E E post first act)
    (h' : Approximates slack E E' post first act') (hn : ¬ slack.names)
    (he : Ended (first ⟨E, []⟩).1) : Approximates slack E E' post act act' := by
  intro asked
  obtain ⟨outcome, more, heq, hends⟩ := h []
  obtain ⟨outcome', more', heq', hends'⟩ := h' []
  obtain rfl : outcome' = outcome := congrArg Prod.fst (heq'.symm.trans heq)
  have hlasts : ¬ ∃ e, outcome' = .error e ∧ e.Halts slack := by
    rintro ⟨e, rfl, hhalts⟩
    cases e with
    | exhausted => exact he (by rw [heq])
    | circular => exact hn hhalts
    | _ => exact hhalts
  obtain ⟨hact, -⟩ := hends.resolve_left hlasts
  obtain ⟨further, hact⟩ := hact asked
  exact ⟨outcome', further, hact, .inr (hends'.resolve_left hlasts)⟩

end Eval.Approximates

namespace Setting

variable {s : Setting} {slack : Slack} {E E' : List Target}

/-- Evaluation within fewer names and with a larger bound goes further, by induction on the lesser
bound. -/
theorem approximates_beyond (hs : s.Keyed) {n m : ℕ} (hnm : n ≤ m) (hb : n = m ∨ slack.bound)
    (hE : Covers slack E E') :
    (∀ e id, Approximates slack E E' Schema.Keyed ((s.beyond n).evaluate e id)
      ((s.beyond m).evaluate e id)) ∧
    ∀ x : Schema, x.Keyed → Approximates slack E E' Schema.Keyed ((s.beyond n).deref x)
      ((s.beyond m).deref x) := by
  induction n generalizing m E E' with
  | zero =>
    rcases hb with rfl | hb
    · exact ⟨fun _ _ => .throw _, fun _ _ => .throw _⟩
    · exact ⟨fun _ _ => .halt hb, fun _ _ => .halt hb⟩
  | succ n ih =>
    obtain ⟨m, rfl⟩ : ∃ k, m = k + 1 := ⟨m - 1, by omega⟩
    replace ih := fun {A B} (hAB : Covers slack A B) =>
      ih (Nat.le_of_succ_le_succ hnm) (hb.imp_left Nat.succ.inj) hAB
    refine ⟨fun e id => ?_, fun x hx => ?_⟩
    · exact s.approximates_within id e.span
        (approximates_form hs ⟨fun d _ body _ => (ih hE).1 body d.moduleId, (ih hE).2⟩ e)
    · refine approximates_derefWith hE hx fun name origin _ _ _ => ⟨Schema.Keyed, ?_, ?_⟩
      · exact approximates_expandWith hs fun _ d _ _ => (ih (hE.cons _)).1 d.init d.moduleId
      · exact (ih (hE.cons _)).2

/-- What an expression evaluates to has no table with a key twice. -/
theorem keyed_of_evaluate (hs : s.Keyed) {e : Expr} {id : String} {session : Session}
    {schema : Schema} (h : (s.evaluate e id session).1 = .ok schema) : schema.Keyed := by
  have hself := (approximates_beyond hs (le_refl s.depthBound) (.inl rfl)
    (.refl .deeper session.expanding)).1 e id
  have hresult : (s.evaluate e id session).1 = .ok schema ∧ schema.Keyed := hself.result h
  exact hresult.2

/-! ### Names that may be expanded -/

/-- The names that modules declare or import. -/
def knownNames (s : Setting) : List Target :=
  s.project.modules.flatMap fun e =>
    (e.2.declarations.map Prod.fst ++ e.2.imports.map Prod.fst).map fun name => (name, .source e.1)

theorem length_knownNames (s : Setting) : s.knownNames.length = s.nameCount := by
  simp [knownNames, nameCount, List.length_flatMap]

/-- Only a name that its module knows stands for a definition. -/
theorem mem_knownNames {name id : String} {d : Definition}
    (h : s.project.resolve name id = .ok (.definition d)) : (name, .source id) ∈ s.knownNames := by
  have hmem : ∀ {m : SourceModule}, s.project.module? id = some m →
      name ∈ m.declarations.map Prod.fst ++ m.imports.map Prod.fst →
      (name, .source id) ∈ s.knownNames := fun hm hname =>
    List.mem_flatMap.mpr ⟨_, Table.mem_of_get? hm, List.mem_map_of_mem hname⟩
  rw [Project.resolve, Project.stepBound] at h
  cases Project.nameCase s.project name id with
  | lost none =>
    rw [Project.nameWithin_lost _ none] at h
    cases h
  | declared found entry =>
    have hentry := List.mem_map_of_mem (f := Prod.fst) (Table.mem_of_get? entry)
    exact hmem found (List.mem_append_left _ hentry)
  | unknown found undeclared unimported =>
    rw [Project.nameWithin_unknown _ found undeclared unimported] at h
    cases h
  | asks found undeclared imported asks =>
    have hentry := List.mem_map_of_mem (f := Prod.fst) (Table.mem_of_get? imported)
    exact hmem found (List.mem_append_right _ hentry)
  | answer found undeclared imported silent =>
    have hentry := List.mem_map_of_mem (f := Prod.fst) (Table.mem_of_get? imported)
    exact hmem found (List.mem_append_right _ hentry)

/-- The depth that names not being expanded give: from one to the next each definition is called at
most once. -/
def space (s : Setting) (E : List Target) : ℕ :=
  (s.knownNames.countP fun target => !E.contains target) * (s.project.definitions.length + 3)

theorem space_cons {target : Target} (hk : target ∈ s.knownNames) (hE : target ∉ E) :
    s.space (target :: E) + (s.project.definitions.length + 3) ≤ s.space E := by
  have hlt : s.knownNames.countP (fun t => !(target :: E).contains t) <
      s.knownNames.countP fun t => !E.contains t := by
    refine countP_lt_countP (fun t _ ht => ?_) hk (by simp) (by simpa using hE)
    have ht : t ∉ target :: E := by simpa using ht
    simpa using fun he => ht (List.mem_cons_of_mem _ he)
  have hle := Nat.mul_le_mul_right (s.project.definitions.length + 3) hlt
  rwa [Nat.succ_mul] at hle

theorem space_le_depthBound (s : Setting) (E : List Target) :
    s.space E + s.project.definitions.length + 3 ≤ s.depthBound := by
  have hcount : (s.knownNames.countP fun target => !E.contains target) ≤ s.nameCount :=
    s.length_knownNames ▸ List.countP_le_length
  have hnames := s.length_definitions_le
  calc s.space E + s.project.definitions.length + 3
      ≤ s.nameCount * (s.nameCount + 3) + s.nameCount + 3 := by
        unfold space
        gcongr
    _ ≤ (s.nameCount + 30) * (s.nameCount + 30) := by nlinarith
    _ ≤ s.depthBound := s.nameCount_le_depthBound

/-! ### Calls that end -/

/-- How many calls end at a depth, while some names are being expanded. -/
def endedCalls (s : Setting) (E : List Target) (n : ℕ) : ℕ :=
  s.project.definitions.countP fun d => (callBody? d).any fun body =>
    decide (Ended ((s.beyond n).evaluate body d.moduleId ⟨E, []⟩).1)

/-- What ends at some depth ends at each greater one. -/
theorem ended_of_le (hs : s.Keyed) {n m : ℕ} (hnm : n ≤ m) {e : Expr} {id : String}
    (h : Ended ((s.beyond n).evaluate e id ⟨E, []⟩).1) :
    Ended ((s.beyond m).evaluate e id ⟨E, []⟩).1 := by
  have hle := (approximates_beyond hs hnm (.inr trivial) (.refl .deeper E)).1 e id
  rwa [hle.outcome_eq not_false h]

/-- What ends does so at some depth for the first time. -/
theorem exists_first_ended {n : ℕ} {e : Expr} {id : String}
    (h : Ended ((s.beyond n).evaluate e id ⟨E, []⟩).1) :
    ∃ k < n, ¬ Ended ((s.beyond k).evaluate e id ⟨E, []⟩).1 ∧
      Ended ((s.beyond (k + 1)).evaluate e id ⟨E, []⟩).1 := by
  induction n with
  | zero => exact absurd rfl h
  | succ n ih =>
    by_cases hn : Ended ((s.beyond n).evaluate e id ⟨E, []⟩).1
    · obtain ⟨k, hk, hfirst⟩ := ih hn
      exact ⟨k, by omega, hfirst⟩
    · exact ⟨n, by omega, hn, h⟩

/-- A call that ends between two depths counts only for the greater one. -/
theorem endedCalls_lt (hs : s.Keyed) {d : Definition} (hd : d ∈ s.project.definitions)
    {body : Expr} (hbody : callBody? d = some body) {k n : ℕ} (hkn : k ≤ n)
    (hk : ¬ Ended ((s.beyond k).evaluate body d.moduleId ⟨E, []⟩).1)
    (hn : Ended ((s.beyond n).evaluate body d.moduleId ⟨E, []⟩).1) :
    s.endedCalls E k < s.endedCalls E n := by
  refine countP_lt_countP (fun x _ hx => ?_) hd (by simp [hbody, hk]) (by simp [hbody, hn])
  rw [Option.any_eq_true] at hx ⊢
  obtain ⟨body, hb, hended⟩ := hx
  exact ⟨body, hb, decide_eq_true (ended_of_le hs hkn (of_decide_eq_true hended))⟩

theorem endedCalls_le (s : Setting) (E : List Target) (n : ℕ) :
    s.endedCalls E n ≤ s.project.definitions.length := List.countP_le_length

/-! ### Bounds that suffice -/

/-- Without an oracle, a name that stands for no definition expands to all values or not at all. -/
theorem approximates_expandWith_other (ho : s.oracle = none) {b b' : Beyond} {name : String}
    {origin : Origin}
    (hd : ∀ id d, origin = .source id → s.project.resolve name id ≠ .ok (.definition d)) :
    Approximates slack E E' (fun found => found.1 = .any .none) (s.expandWith b name origin)
      (s.expandWith b' name origin) := by
  have hexternal : ∀ package name, Approximates slack E E' (fun found => found = .any .none)
      (s.external package name) (s.external package name) := by
    intro package name
    rw [external, ho]
    exact .pure rfl
  cases origin with
  | package package => exact (hexternal package name).bind fun _ hx => .pure hx
  | source id =>
    have hresolve : Approximates slack E E' (fun r => s.project.resolve name id = .ok r)
        (Eval.ofExcept (s.project.resolve name id)) (Eval.ofExcept (s.project.resolve name id)) :=
      .ofExcept fun _ h => h
    refine hresolve.bind fun resolved hr => ?_
    cases resolved with
    | definition d => exact absurd hr (hd id d rfl)
    | external package name => exact (hexternal package name).bind fun _ hx => .pure hx
    | whole origin => exact .throw _

/-- Whatever ends at some depth ends alike at any depth that has space enough. The induction is on
the first depth: expanding a name takes from the space, and a call that ends does so for the first
time at a depth where fewer calls have ended. -/
theorem approximates_of_space (hs : s.Keyed) (ho : s.oracle = none) (n : ℕ) : ∀ E m,
    (∀ x : Schema, x.Keyed → s.space E + 2 ≤ m →
      Approximates .deeper E E Schema.Keyed ((s.beyond n).deref x) ((s.beyond m).deref x)) ∧
    ∀ e id, s.space E + s.endedCalls E n + 3 ≤ m →
      Approximates .deeper E E Schema.Keyed ((s.beyond (n + 1)).evaluate e id)
        ((s.beyond m).evaluate e id) := by
  induction n using Nat.strong_induction_on with
  | _ n ih =>
    have hderef : ∀ E m, ∀ x : Schema, x.Keyed → s.space E + 2 ≤ m →
        Approximates .deeper E E Schema.Keyed ((s.beyond n).deref x) ((s.beyond m).deref x) := by
      intro E m x hx hm
      cases n with
      | zero => exact .halt trivial
      | succ n =>
        obtain ⟨m, rfl⟩ : ∃ k, m = k + 1 := ⟨m - 1, by omega⟩
        refine approximates_derefWith (.refl _ E) hx fun name origin _ _ ht => ?_
        by_cases hd : ∃ id d, origin = .source id ∧ s.project.resolve name id = .ok (.definition d)
        · -- within the new name there is so much less space that all its calls may end anew
          obtain ⟨id, d, rfl, hd⟩ := hd
          have hspace := space_cons (mem_knownNames hd) ht
          refine ⟨Schema.Keyed, approximates_expandWith hs fun _ d _ _ => ?_, fun y hy => ?_⟩
          · cases n with
            | zero => exact .halt trivial
            | succ n =>
              have hcalls := s.endedCalls_le ((name, .source id) :: E) n
              exact (ih n (by omega) _ m).2 d.init d.moduleId (by omega)
          · exact (ih n (by omega) _ m).1 y hy (by omega)
        · refine ⟨(· = .any .none), approximates_expandWith_other ho fun id d hid hd' => ?_, ?_⟩
          · exact hd ⟨id, d, hid, hd'⟩
          · rintro _ rfl
            obtain ⟨m, rfl⟩ : ∃ k, m = k + 1 := ⟨m - 1, by omega⟩
            cases n with
            | zero => exact .halt trivial
            | succ n => exact .pure Schema.keyed_any
    refine fun E m => ⟨hderef E m, fun e id hm => ?_⟩
    obtain ⟨m, rfl⟩ : ∃ k, m = k + 1 := ⟨m - 1, by omega⟩
    refine s.approximates_within id e.span (approximates_form hs ⟨fun d hd body hbody => ?_,
      fun x hx => hderef E m x hx (by omega)⟩ e)
    -- a call that ends is looked at where it does so for the first time: there it is not yet among
    -- the calls that end, and the induction has space for it
    by_cases hended : Ended ((s.beyond n).evaluate body d.moduleId ⟨E, []⟩).1
    · obtain ⟨k, hkn, hk, hfirst⟩ := exists_first_ended hended
      have hcalls := endedCalls_lt hs hd hbody hkn.le hk hended
      have hn := (approximates_beyond hs hkn (.inr trivial) (.refl .deeper E)).1 body d.moduleId
      have hm := (ih k hkn E m).2 body d.moduleId (by omega)
      exact hn.join hm not_false hfirst
    · exact .of_not_ended ((s.steady_beyond n).evaluate body d.moduleId) hended trivial

/-- Without an oracle, what ends at any depth ends alike within the bound of the project. -/
theorem approximates_depthBound (hs : s.Keyed) (ho : s.oracle = none) (n : ℕ) (E : List Target) :
    (∀ e id, Approximates .deeper E E Schema.Keyed ((s.beyond n).evaluate e id)
      (s.evaluate e id)) ∧
    ∀ x : Schema, x.Keyed →
      Approximates .deeper E E Schema.Keyed ((s.beyond n).deref x) (s.deref x) := by
  have hbound := s.space_le_depthBound E
  refine ⟨fun e id => ?_, fun x hx => ?_⟩
  · cases n with
    | zero => exact .halt trivial
    | succ n =>
      have hcalls := s.endedCalls_le E n
      exact (approximates_of_space hs ho n E _).2 e id (by omega)
  · exact (approximates_of_space hs ho n E _).1 x hx (by omega)

/-- What a schema is found to stand for beyond the bound of the project is found within it, unless
the answers of an oracle exhaust it. -/
theorem deref_eq_of_le (hs : s.Keyed) {x : Schema} (hx : x.Keyed) {session : Session}
    (hbound : s.oracle = none ∨ Ended (s.deref x session).1) {n : ℕ} (hn : s.depthBound ≤ n)
    (h : Ended ((s.beyond n).deref x session).1) :
    (s.deref x session).1 = ((s.beyond n).deref x session).1 := by
  rcases hbound with ho | hended
  · exact ((approximates_depthBound hs ho n session.expanding).2 x hx).outcome_eq not_false h
  · have hdeeper := (approximates_beyond hs hn (.inr trivial)
      (.refl .deeper session.expanding)).2 x hx
    exact (hdeeper.outcome_eq not_false hended).symm

end Setting

end CodecDocs
