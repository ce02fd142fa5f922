import CodecDocs.Proofs.Evaluation.Referent
import CodecDocs.Proofs.Schema.Keyed

/-! Evaluations that stop short. One evaluation approximates another when it ends as that one does,
or else goes no further: its bound is exhausted, or it comes upon a name that is being expanded.
With fewer names being expanded and a larger bound evaluation gets further. As long as no combinator
and no oracle brings along a table with a key twice, what comes out has none either, and that is
carried along here. -/

namespace CodecDocs

open Script (Expr Property)

/-- What the second of two evaluations may have more of than the first: it is within fewer names,
or it has a larger bound. -/
structure Slack where
  names : Prop
  bound : Prop

/-- Faults with which an evaluation stops short of one that has more of something. -/
def Fault.Halts (slack : Slack) : Fault → Prop
  | .exhausted => slack.bound
  | .circular .. => slack.names
  | .unsupported .. | .unknownIdentifier .. | .unresolvedImport .. | .malformed ..
  | .unrepresentable .. => False

theorem Fault.Halts.locate {slack : Slack} {e : Fault} (h : e.Halts slack) (here : Location) :
    (e.locate here).Halts slack := by
  cases e with
  | exhausted | circular => exact h
  | _ => exact h.elim

theorem Fault.Halts.not_isUndefined {slack : Slack} {e : Fault} (h : e.Halts slack) :
    e.isUndefined = false := by
  cases e with
  | exhausted | circular => rfl
  | _ => exact h.elim

/-- The names `E'` are among the names `E`, and are all of them unless they may be fewer. -/
structure Covers (slack : Slack) (E E' : List Target) : Prop where
  subset : E' ⊆ E
  back : slack.names ∨ E ⊆ E'

theorem Covers.refl (slack : Slack) (E : List Target) : Covers slack E E :=
  ⟨List.Subset.refl E, .inr (List.Subset.refl E)⟩

theorem Covers.cons {slack : Slack} {E E' : List Target} (h : Covers slack E E')
    (target : Target) : Covers slack (target :: E) (target :: E') :=
  ⟨List.cons_subset_cons target h.subset, h.back.imp_right (List.cons_subset_cons target)⟩

namespace Eval

variable {α β : Type} {slack : Slack} {E E' : List Target}

/-- Started while the names `E` are being expanded, the first evaluation stops short, or it ends as
the second one does while the names `E'` are, with a result in `post`. -/
def Approximates (slack : Slack) (E E' : List Target) (post : α → Prop) (act act' : Eval α) :
    Prop :=
  ∀ asked, ∃ outcome more, act ⟨E, asked⟩ = (outcome, ⟨E, more⟩) ∧
    ((∃ e, outcome = .error e ∧ e.Halts slack) ∨
      (∀ asked', ∃ more', act' ⟨E', asked'⟩ = (outcome, ⟨E', more'⟩)) ∧
        ∀ a, outcome = .ok a → post a)

namespace Approximates

variable {post : α → Prop} {act act' : Eval α}

theorem pure {a : α} (h : post a) : Approximates slack E E' post (pure a) (Pure.pure a) := by
  intro asked
  refine ⟨.ok a, asked, rfl, .inr ⟨fun asked' => ⟨asked', rfl⟩, ?_⟩⟩
  rintro _ ⟨⟩
  exact h

theorem throw (e : Fault) :
    Approximates slack E E' post (throw e) (MonadExcept.throw e) := by
  intro asked
  exact ⟨.error e, asked, rfl, .inr ⟨fun asked' => ⟨asked', rfl⟩, nofun⟩⟩

/-- An evaluation that stops short approximates any other. -/
theorem halt {e : Fault} (h : e.Halts slack) :
    Approximates slack E E' post (MonadExcept.throw e) act' :=
  fun asked => ⟨.error e, asked, rfl, .inl ⟨e, rfl, h⟩⟩

theorem bind {later : β → Prop} {f f' : α → Eval β} (h : Approximates slack E E' post act act')
    (hf : ∀ a, post a → Approximates slack E E' later (f a) (f' a)) :
    Approximates slack E E' later (act >>= f) (act' >>= f') := by
  intro asked
  obtain ⟨outcome, more, ha, ⟨e, rfl, he⟩ | ⟨ha', hpost⟩⟩ := h asked
  · exact ⟨.error e, more, bind_of_error ha f, .inl ⟨e, rfl, he⟩⟩
  cases outcome with
  | error e =>
    refine ⟨.error e, more, bind_of_error ha f, .inr ⟨fun asked' => ?_, nofun⟩⟩
    obtain ⟨more', ha'⟩ := ha' asked'
    exact ⟨more', bind_of_error ha' f'⟩
  | ok a =>
    obtain ⟨outcome, further, hb, hends⟩ := hf a (hpost a rfl) more
    refine ⟨outcome, further, by rw [bind_of_ok ha, hb], hends.imp_right fun ⟨hb', hlater⟩ => ?_⟩
    refine ⟨fun asked' => ?_, hlater⟩
    obtain ⟨more', ha'⟩ := ha' asked'
    rw [bind_of_ok ha']
    exact hb' more'

theorem ite {other other' : Eval α} {c : Prop} [Decidable c]
    (h : Approximates slack E E' post act act')
    (ho : Approximates slack E E' post other other') :
    Approximates slack E E' post (if c then act else other) (if c then act' else other') := by
  split_ifs
  · exact h
  · exact ho

theorem ofExcept {outcome : Except Fault α} (h : ∀ a, outcome = .ok a → post a) :
    Approximates slack E E' post (ofExcept outcome) (Eval.ofExcept outcome) := by
  cases outcome with
  | ok a => exact pure (h a rfl)
  | error e => exact throw e

theorem log (query : Query) :
    Approximates slack E E' (fun _ => True) (log query) (Eval.log query) :=
  fun asked => ⟨.ok (), asked ++ [query], rfl,
    .inr ⟨fun asked' => ⟨asked' ++ [query], rfl⟩, fun _ _ => trivial⟩⟩

/-- What is made of an outcome. A fault with which evaluation stops short has to be passed on. -/
theorem observe {later : β → Prop} {f f' : Except Fault α → Eval β}
    (h : Approximates slack E E' post act act')
    (hok : ∀ a, post a → Approximates slack E E' later (f (.ok a)) (f' (.ok a)))
    (herror : ∀ e, Approximates slack E E' later (f (.error e)) (f' (.error e)))
    (hhalt : ∀ e : Fault, e.Halts slack → f (.error e) = MonadExcept.throw e) :
    Approximates slack E E' later (observe act >>= f) (Eval.observe act' >>= f') := by
  intro asked
  obtain ⟨outcome, more, ha, hends⟩ := h asked
  have hobserved : Eval.observe act ⟨E, asked⟩ = (.ok outcome, ⟨E, more⟩) := by
    rw [observe_apply, ha]
  rw [bind_of_ok hobserved]
  rcases hends with ⟨e, rfl, he⟩ | ⟨ha', hpost⟩
  · rw [hhalt e he]
    exact ⟨.error e, more, rfl, .inl ⟨e, rfl, he⟩⟩
  have hf : Approximates slack E E' later (f outcome) (f' outcome) := by
    cases outcome with
    | ok a => exact hok a (hpost a rfl)
    | error e => exact herror e
  obtain ⟨last, further, hb, hends⟩ := hf more
  refine ⟨last, further, hb, hends.imp_right fun ⟨hb', hlater⟩ => ⟨fun asked' => ?_, hlater⟩⟩
  obtain ⟨more', ha'⟩ := ha' asked'
  have hobserved' : Eval.observe act' ⟨E', asked'⟩ = (.ok outcome, ⟨E', more'⟩) := by
    rw [observe_apply, ha']
  rw [bind_of_ok hobserved']
  exact hb' more'

/-- The first evaluation may stop at a name that only it is within. -/
theorem guarded {target : Target} (hE : Covers slack E E')
    (h : target ∉ E → Approximates slack (target :: E) (target :: E') post act act') :
    Approximates slack E E' post (guarded target act) (Eval.guarded target act') := by
  intro asked
  by_cases ht : target ∈ E
  · refine ⟨.error (.circular target.1 target.2), asked, guarded_inside act ht asked, ?_⟩
    refine hE.back.imp (fun hc => ⟨_, rfl, hc⟩) fun hback => ⟨fun asked' => ?_, nofun⟩
    exact ⟨asked', guarded_inside act' (hback ht) asked'⟩
  · obtain ⟨outcome, more, ha, hends⟩ := h ht asked
    refine ⟨outcome, more, guarded_outside ht ha, hends.imp_right fun ⟨ha', hpost⟩ => ?_⟩
    refine ⟨fun asked' => ?_, hpost⟩
    obtain ⟨more', ha'⟩ := ha' asked'
    exact ⟨more', guarded_outside (fun h' => ht (hE.subset h')) ha'⟩

/-! ### What approximation tells -/

/-- A result that the first evaluation comes to is that of the second one. -/
theorem result {asked asked' : List Query} {a : α}
    (h : Approximates slack E E' post act act') (ha : (act ⟨E, asked⟩).1 = .ok a) :
    (act' ⟨E', asked'⟩).1 = .ok a ∧ post a := by
  obtain ⟨outcome, more, heq, hends⟩ := h asked
  rw [heq] at ha
  subst ha
  rcases hends with ⟨e, he, -⟩ | ⟨ha', hpost⟩
  · cases he
  · obtain ⟨more', ha'⟩ := ha' asked'
    exact ⟨by rw [ha'], hpost a rfl⟩

/-- Within the same names, an evaluation that ends does so as the second one. -/
theorem outcome_eq {asked asked' : List Query} (h : Approximates slack E E' post act act')
    (hn : ¬ slack.names) (ha : Ended (act ⟨E, asked⟩).1) :
    (act' ⟨E', asked'⟩).1 = (act ⟨E, asked⟩).1 := by
  obtain ⟨outcome, more, heq, hends⟩ := h asked
  rw [heq] at ha ⊢
  rcases hends with ⟨e, rfl, he⟩ | ⟨ha', -⟩
  · cases e with
    | exhausted => exact absurd rfl ha
    | circular => exact absurd he hn
    | _ => exact he.elim
  · obtain ⟨more', ha'⟩ := ha' asked'
    rw [ha']

end Approximates

end Eval

open Eval

variable {slack : Slack} {E E' : List Target}

theorem Setting.approximates_within (s : Setting) {α : Type} {post : α → Prop}
    {act act' : Eval α} (id : String) (span : Span)
    (h : Approximates slack E E' post act act') :
    Approximates slack E E' post (s.within id span act) (s.within id span act') := by
  intro asked
  obtain ⟨outcome, more, ha, hends⟩ := h asked
  cases outcome with
  | ok a =>
    refine ⟨.ok a, more, by simp only [within, ha], ?_⟩
    rcases hends with ⟨e, he, -⟩ | ⟨ha', hpost⟩
    · cases he
    refine .inr ⟨fun asked' => ?_, hpost⟩
    obtain ⟨more', ha'⟩ := ha' asked'
    exact ⟨more', by simp only [within, ha']⟩
  | error e =>
    refine ⟨.error (e.locate (s.location id span)), more, by simp only [within, ha], ?_⟩
    rcases hends with ⟨f, hf, hhalts⟩ | ⟨ha', -⟩
    · cases hf
      exact .inl ⟨_, rfl, hhalts.locate _⟩
    · refine .inr ⟨fun asked' => ?_, fun a hok => ?_⟩
      · obtain ⟨more', ha'⟩ := ha' asked'
        exact ⟨more', by simp only [within, ha']⟩
      · cases hok

/-! ### Combinators -/

namespace Schema

theorem Keyed.withNotes {s : Schema} (h : s.Keyed) {n : Notes} (hn : n.Keyed) :
    (s.withNotes n).Keyed :=
  keyed_iff.mpr ⟨h.own.withNotes hn, fun c hc => h.child (by simpa using hc)⟩

theorem Keyed.withComment {s : Schema} (h : s.Keyed) (comment : Option DocComment) :
    (s.withComment comment).Keyed := h.withNotes h.own.notes

theorem keyed_any : (any .none).Keyed := by decide

theorem keyed_refer (name : String) (origin : Origin) : (refer name origin).Keyed :=
  keyed_iff.mpr ⟨Notes.keyed_none, by simp [refer, children]⟩

theorem keyed_literal (value : Literal) : (literal value).Keyed :=
  keyed_primitive.mpr Notes.keyed_none

theorem keyed_tuple {ms : List Schema} (h : ∀ m ∈ ms, m.Keyed) : (tuple ms .none).Keyed :=
  keyed_iff.mpr ⟨Notes.keyed_none, h⟩

/-- An object may require other names, no name twice. -/
theorem Keyed.requiring {ps : Table String Schema} {rs : Names} {n : Notes}
    (h : (object ps rs n).Keyed) {names : Names} (hnames : names.Nodup) :
    (object ps names n).Keyed := by
  rw [keyed_object] at h ⊢
  exact ⟨⟨h.1.1, hnames, h.1.2.2⟩, h.2⟩

end Schema

namespace Rule

open Schema

variable {deref deref' : Schema → Eval Schema} {args : List Schema}

theorem approximates_misuse {α : Type} {post : α → Prop} (label : String) (what : Misuse) :
    Approximates slack E E' post (misuse label what) (misuse label what) := .throw _

theorem approximates_firstArg (ha : ∀ a ∈ args, a.Keyed) (label : String) :
    Approximates slack E E' Keyed (firstArg label args) (firstArg label args) := by
  cases args with
  | nil => exact approximates_misuse _ _
  | cons arg args => exact .pure (ha arg List.mem_cons_self)

theorem approximates_listArg (ha : ∀ a ∈ args, a.Keyed) (label : String) :
    Approximates slack E E' (fun members => ∀ m ∈ members, m.Keyed) (listArg label args)
      (listArg label args) := by
  refine (approximates_firstArg ha label).bind fun arg harg => ?_
  cases arg with
  | tuple members n => exact .pure fun m hm => harg.child hm
  | _ => exact approximates_misuse _ _

theorem approximates_objectArg
    (hd : ∀ x, x.Keyed → Approximates slack E E' Keyed (deref x) (deref' x)) {arg : Schema}
    (harg : arg.Keyed) (label : String) :
    Approximates slack E E' (fun parts => (Schema.object parts.1 parts.2.1 parts.2.2).Keyed)
      (objectArg label deref arg) (objectArg label deref' arg) := by
  refine (hd arg harg).bind fun found hfound => ?_
  cases found with
  | object ps rs n => exact .pure hfound
  | _ => exact approximates_misuse _ _

theorem approximates_checkRoute (properties : Table String Schema) :
    Approximates slack E E' (fun _ => True) (checkRoute properties) (checkRoute properties) := by
  unfold checkRoute
  split
  · exact approximates_misuse _ _
  · split
    · exact approximates_misuse _ _
    · exact .pure trivial

/-- A combinator brings no table with a key twice along, and a function of a host makes none from
arguments that have none. -/
structure KeepsKeyed (rule : Rule) : Prop where
  own : ∀ schema ∈ rule.own, schema.Keyed
  host : ∀ {build}, rule = .host build → ∀ {args schema}, (∀ a ∈ args, a.Keyed) →
    build args = .ok schema → schema.Keyed

/-- A combinator gets as far as dereferencing does. -/
theorem approximates_apply
    (hd : ∀ x, x.Keyed → Approximates slack E E' Keyed (deref x) (deref' x))
    (ha : ∀ a ∈ args, a.Keyed) {rule : Rule} (hr : rule.KeepsKeyed) :
    Approximates slack E E' Keyed (rule.apply deref args) (rule.apply deref' args) := by
  cases rule with
  | fixed schema => exact .pure (hr.own schema List.mem_cons_self)
  | first label => exact approximates_firstArg ha label
  | allRequired label =>
    exact (approximates_firstArg ha label).bind fun arg harg =>
      (approximates_objectArg hd harg label).bind fun parts hparts =>
        .pure (hparts.requiring hparts.own.1)
  | noneRequired label =>
    exact (approximates_firstArg ha label).bind fun arg harg =>
      (approximates_objectArg hd harg label).bind fun parts hparts =>
        .pure (hparts.requiring List.nodup_nil)
  | array label =>
    exact (approximates_firstArg ha label).bind fun arg harg =>
      .pure (keyed_iff.mpr ⟨Notes.keyed_none, by simpa using harg⟩)
  | nonEmptyArray label =>
    have hnotes : (⟨none, [("minItems", .nat 1)]⟩ : Notes).Keyed := by decide
    exact (approximates_firstArg ha label).bind fun arg harg =>
      .pure (keyed_iff.mpr ⟨hnotes, by simpa [annotated, withNotes] using harg⟩)
  | record =>
    cases args with
    | nil => exact approximates_misuse _ _
    | cons domain args =>
      cases args with
      | nil => exact approximates_misuse _ _
      | cons codomain args =>
        refine .pure (keyed_iff.mpr ⟨Notes.keyed_none, ?_⟩)
        simpa using ⟨ha domain (by simp), ha codomain (by simp)⟩
  | tuple => exact (approximates_listArg ha _).bind fun members hm => .pure (keyed_tuple hm)
  | union =>
    exact (approximates_listArg ha _).bind fun members hm =>
      .pure (keyed_union.mpr ⟨Notes.keyed_none, hm⟩)
  | intersection =>
    refine (approximates_listArg ha _).bind fun members hm => ?_
    cases members with
    | nil => exact approximates_misuse _ _
    | cons m ms => exact .pure (keyed_iff.mpr ⟨Notes.keyed_none, hm⟩)
  | literal =>
    exact (approximates_firstArg ha _).bind fun value hv =>
      (Approximates.pure hv).ite (approximates_misuse _ _)
  | keys =>
    refine (approximates_firstArg ha _).bind fun arg harg =>
      (approximates_objectArg hd harg _).bind fun parts hparts => ?_
    have hempty : Approximates slack E E' (fun _ : PUnit => True) (misuse "keyof" .noKeys)
        (misuse "keyof" .noKeys) := approximates_misuse _ _
    exact (hempty.bind fun _ _ => .pure (keyed_primitive.mpr hparts.own.2.2)).ite
      (.pure (keyed_primitive.mpr hparts.own.2.2))
  | either label other =>
    refine (approximates_firstArg ha label).bind fun arg harg =>
      .pure (keyed_union.mpr ⟨Notes.keyed_none, ?_⟩)
    intro m hm
    rcases List.mem_cons.mp hm with rfl | hm
    · exact harg
    · exact List.mem_singleton.mp hm ▸ hr.own other List.mem_cons_self
  | request =>
    refine (approximates_firstArg ha _).bind fun arg harg =>
      (approximates_objectArg hd harg _).bind fun parts hparts => ?_
    dsimp only
    split
    · exact approximates_misuse _ _
    · exact .pure (hparts.requiring hparts.own.1)
  | route =>
    exact (approximates_firstArg ha _).bind fun arg harg =>
      (approximates_objectArg hd harg _).bind fun parts hparts =>
        (approximates_checkRoute parts.1).bind fun _ _ =>
          .pure (hparts.requiring (hparts.own.2.1.filter _))
  | host build =>
    rw [apply, apply]
    split
    · next schema hbuild => exact .pure (hr.host rfl ha hbuild)
    · exact .throw _

end Rule

/-! ### Object literals -/

namespace Draft

/-- The tables of a draft have no key twice. -/
def Keyed (d : Draft) : Prop := (Schema.object d.properties d.required .none).Keyed

variable {d : Draft}

theorem keyed_empty : empty.Keyed := Schema.keyed_object.mpr (by decide)

theorem Keyed.insert {properties : Table String Schema} {required required' : Names}
    (h : (Schema.object properties required .none).Keyed) {schema : Schema} (hs : schema.Keyed)
    (name : String) (hr : required'.Nodup) :
    (Schema.object (properties.insert name schema) required' .none).Keyed := by
  rw [Schema.keyed_object] at h ⊢
  refine ⟨⟨h.1.1.insert name schema, hr, h.1.2.2⟩, fun p hp => ?_⟩
  rcases Table.mem_of_mem_insert hp with hp | rfl
  · exact h.2 p hp
  · exact hs

theorem Keyed.write (h : d.Keyed) (name : String) {schema : Schema} (hs : schema.Keyed) :
    (d.write name schema).Keyed := Keyed.insert h hs name (Names.nodup_add h.own.2.1 name)

theorem Keyed.erase (h : d.Keyed) (name : String) : (d.erase name).Keyed := by
  obtain ⟨⟨hd, hr, hn⟩, hp⟩ := Schema.keyed_object.mp h
  refine Schema.keyed_object.mpr ⟨⟨?_, hr.filter _, hn⟩, fun p hm => ?_⟩
  · exact hd.sublist (List.filter_sublist.map _)
  · exact hp p (List.mem_of_mem_filter hm)

theorem Keyed.spread (h : d.Keyed) {properties : Table String Schema}
    (hp : ∀ p ∈ properties, p.2.Keyed) (required : Names) :
    (d.spread properties required).Keyed := by
  unfold Draft.spread
  induction properties generalizing d with
  | nil => exact h
  | cons p properties ih =>
    rw [List.forall_mem_cons] at hp
    refine ih (Keyed.insert h hp.1 p.1 ?_) hp.2
    dsimp only
    split_ifs
    · exact Names.nodup_add h.own.2.1 p.1
    · exact h.own.2.1.filter _

theorem Keyed.schema (h : d.Keyed) : d.schema.Keyed := h.requiring (h.own.2.1.filter _)

end Draft

/-! ### Expressions -/

/-- What a setting brings along has no table with a key twice. -/
structure Setting.Keyed (s : Setting) : Prop where
  combinator : ∀ {package name c}, s.registry.resolve? package name = some c →
    c.rule.KeepsKeyed
  infer : ∀ {oracle}, s.oracle = some oracle → ∀ {e id schema}, oracle.infer e id = .ok schema →
    schema.Keyed
  external : ∀ {oracle}, s.oracle = some oracle → ∀ {package name schema},
    oracle.external package name = some (.ok schema) → schema.Keyed

theorem Setting.keyed_builtin (p : Project) : (Setting.mk p .builtin none).Keyed where
  combinator h := by
    have hall : ∀ e ∈ Registry.builtin.entries, ∀ schema ∈ e.2.rule.own, schema.Keyed := by decide
    have hplain := (Registry.plain_builtin.resolve? h).2
    refine ⟨hall _ (Table.mem_of_get? h), fun hhost => ?_⟩
    rw [hhost] at hplain
    cases hplain
  infer := nofun
  external := nofun

/-- Outside of expressions, where a function is called and where it is asked what a schema stands
for, one evaluation approximates another. -/
structure Beyond.Approximates (s : Setting) (slack : Slack) (E E' : List Target)
    (b b' : Beyond) : Prop where
  call : ∀ d ∈ s.project.definitions, ∀ body, Setting.callBody? d = some body →
    Eval.Approximates slack E E' Schema.Keyed (b.evaluate body d.moduleId)
      (b'.evaluate body d.moduleId)
  deref : ∀ x, x.Keyed → Eval.Approximates slack E E' Schema.Keyed (b.deref x) (b'.deref x)

namespace Setting

variable {s : Setting} {b b' : Beyond} {id : String}

theorem approximates_infer (hs : s.Keyed) (e : Expr) :
    Approximates slack E E' Schema.Keyed (s.infer id e) (s.infer id e) := by
  unfold infer
  split
  · exact .throw _
  · next ho => exact (Approximates.log _).bind fun _ _ => .ofExcept fun _ h => hs.infer ho h

theorem approximates_external (hs : s.Keyed) (package name : String) :
    Approximates slack E E' Schema.Keyed (s.external package name) (s.external package name) := by
  unfold external
  split
  · exact .pure Schema.keyed_any
  · next ho =>
    refine (Approximates.log _).bind fun _ _ => ?_
    split
    · next hx => exact .ofExcept fun _ h => hs.external ho (h ▸ hx)
    · exact .pure Schema.keyed_any

theorem approximates_unlessSymbol (e : Expr) {act act' : Eval Schema}
    (h : Approximates slack E E' Schema.Keyed act act') :
    Approximates slack E E' Schema.Keyed
      (do
        if s.isSymbol id e then throw (Fault.unrepresentable .symbol none)
        act)
      (do
        if s.isSymbol id e then throw (Fault.unrepresentable .symbol none)
        act') := by
  have hsymbol : Approximates slack E E' (fun _ : PUnit => True)
      (throw (Fault.unrepresentable .symbol none)) (throw (Fault.unrepresentable .symbol none)) :=
    .throw _
  exact (hsymbol.bind fun _ _ => h).ite h

theorem approximates_referent (e : Expr) :
    Approximates slack E E' (fun r => s.Holds r) (Eval.ofExcept (s.referent e id))
      (Eval.ofExcept (s.referent e id)) := .ofExcept fun _ h => holds_of_referentWithin _ h

theorem approximates_orUndefined {act act' : Eval Schema}
    (h : Approximates slack E E' Schema.Keyed act act') :
    Approximates slack E E' Schema.Keyed (orUndefined act) (orUndefined act') := by
  refine h.observe (fun a ha => .pure ha) (fun e => ?_) fun e he => ?_
  · exact (Approximates.pure Schema.keyed_undefined).ite (.throw e)
  · exact if_neg (by simp [he.not_isUndefined])

theorem approximates_writeKeyed {d : Draft} (hdraft : d.Keyed) (name : String)
    (doc : Option String) {act act' : Eval Schema}
    (h : Approximates slack E E' Schema.Keyed act act') :
    Approximates slack E E' Draft.Keyed (writeKeyed d name doc act)
      (writeKeyed d name doc act') := by
  refine h.observe (fun a ha => .pure (hdraft.write name (ha.withComment _))) (fun e => ?_)
    fun e he => ?_
  · exact (Approximates.pure (hdraft.erase name)).ite (.throw e)
  · exact if_neg (by simp [he.not_isUndefined])

theorem approximates_cons {first first' : Eval Schema} {rest rest' : Eval (List Schema)}
    (hf : Approximates slack E E' Schema.Keyed first first')
    (hr : Approximates slack E E' (fun schemas => ∀ x ∈ schemas, x.Keyed) rest rest') :
    Approximates slack E E' (fun schemas => ∀ x ∈ schemas, x.Keyed)
      (do
        let schema ← first
        return schema :: (← rest))
      (do
        let schema ← first'
        return schema :: (← rest')) :=
  hf.bind fun _ hschema => hr.bind fun _ hrest =>
    .pure (List.forall_mem_cons.mpr ⟨hschema, hrest⟩)

variable (hs : s.Keyed) (hb : Beyond.Approximates s slack E E' b b')

include hs hb

theorem approximates_combinator {args : List Schema} (ha : ∀ a ∈ args, a.Keyed) {c : Combinator}
    (hc : s.Holds (.combinator c)) : Approximates slack E E' Schema.Keyed
      (c.rule.apply b.deref args) (c.rule.apply b'.deref args) := by
  obtain ⟨package, name, hc⟩ := hc
  exact Rule.approximates_apply hb.deref ha (hs.combinator hc)

theorem approximates_reference (e : Expr) :
    Approximates slack E E' Schema.Keyed (s.reference b id e) (s.reference b' id e) := by
  refine approximates_unlessSymbol e ((approximates_referent e).bind fun r hr => ?_)
  cases r with
  | combinator c => exact approximates_combinator hs hb (by simp) hr
  | definition d => exact .pure (Schema.keyed_refer _ _)
  | external package name => exact .pure (Schema.keyed_refer _ _)
  | whole origin => exact .throw _

theorem approximates_name (name : String) (span : Span) :
    Approximates slack E E' Schema.Keyed (s.name b id name span) (s.name b' id name span) :=
  Approximates.ite (.pure Schema.keyed_undefined) (approximates_reference hs hb _)

theorem approximates_callee {callee : Expr} {args args' : Eval (List Schema)}
    (ha : Approximates slack E E' (fun args => ∀ a ∈ args, a.Keyed) args args') :
    Approximates slack E E' Schema.Keyed
      (do
        if s.isSymbol id callee then throw (Fault.unrepresentable .symbol none)
        let target ← Eval.ofExcept (s.referent callee id)
        call b (← args) target)
      (do
        if s.isSymbol id callee then throw (Fault.unrepresentable .symbol none)
        let target ← Eval.ofExcept (s.referent callee id)
        call b' (← args') target) := by
  refine approximates_unlessSymbol callee ((approximates_referent callee).bind fun r hr =>
    ha.bind fun args hargs => ?_)
  cases r with
  | combinator c => exact approximates_combinator hs hb hargs hr
  | definition d =>
    rw [call, call]
    cases hbody : callBody? d with
    | some body => exact hb.call d hr body hbody
    | none => exact .pure (Schema.keyed_refer _ _)
  | external package name => exact .pure (Schema.keyed_refer _ _)
  | whole origin => exact .throw _

omit hs in
theorem approximates_spreadInto {d : Draft} (hdraft : d.Keyed) (span : Span) {schema : Schema}
    (hschema : schema.Keyed) :
    Approximates slack E E' Draft.Keyed (s.spreadInto b id d span schema)
      (s.spreadInto b' id d span schema) := by
  refine (s.approximates_within id span (hb.deref schema hschema)).bind fun found hfound => ?_
  cases found with
  | object ps rs n => exact .pure (hdraft.spread (Schema.keyed_object.mp hfound).2 rs)
  | _ => exact .throw _

omit hs hb

mutual

/-- Inside of an expression evaluation gets as far as outside of it, by recursion on the
expression. -/
theorem approximates_form (hs : s.Keyed) (hb : Beyond.Approximates s slack E E' b b') :
    (e : Expr) → Approximates slack E E' Schema.Keyed (s.form b id e) (s.form b' id e)
  | .string .. | .number .. | .bool .. | .null _ => .pure (Schema.keyed_literal _)
  | .ident name span => approximates_name hs hb name span
  | .member object property span => approximates_reference hs hb _
  | .unary op arg span => by
    cases op with
    | void => exact .throw _
    | _ => exact approximates_infer hs _
  | .array elements _ =>
    (approximates_members hs hb elements).bind fun _ hm => .pure (Schema.keyed_tuple hm)
  | .object properties _ =>
    (approximates_draft hs hb properties Draft.keyed_empty).bind fun _ hd => .pure hd.schema
  | .function [] (.expression value) _ | .function [] (.returning value) _ =>
    s.approximates_within id value.span (approximates_form hs hb value)
  | .function [] .block _ => .pure Schema.keyed_any
  | .function (_ :: _) _ _ => .pure Schema.keyed_any
  | .call (.function [] (.expression value) _) _ _
  | .call (.function [] (.returning value) _) _ _ =>
    s.approximates_within id value.span (approximates_form hs hb value)
  | .call (.ident _ _) args _ | .call (.member ..) args _ =>
    approximates_callee hs hb (approximates_arguments hs hb args)
  | .call (.function [] .block _) _ _ | .call (.function (_ :: _) _ _) _ _ | .call (.string ..) _ _
  | .call (.number ..) _ _ | .call (.bool ..) _ _ | .call (.null _) _ _ | .call (.template _) _ _
  | .call (.regex _) _ _ | .call (.index ..) _ _ | .call (.call ..) _ _ | .call (.construct ..) _ _
  | .call (.array ..) _ _ | .call (.object ..) _ _ | .call (.spread ..) _ _ | .call (.unary ..) _ _
  | .call (.binary ..) _ _ | .call (.conditional ..) _ _ => approximates_infer hs _
  | .template _ | .regex _ | .index .. | .construct .. | .spread .. | .binary ..
  | .conditional .. => approximates_infer hs _
termination_by structural e => e

theorem approximates_members (hs : s.Keyed) (hb : Beyond.Approximates s slack E E' b b') :
    (es : List Expr) → Approximates slack E E' (fun members => ∀ m ∈ members, m.Keyed)
      (s.members b id es) (s.members b' id es)
  | [] => .pure (by simp)
  | e :: rest => by
    have first := approximates_orUndefined
      (s.approximates_within id e.span (approximates_form hs hb e))
    have others := approximates_members hs hb rest
    cases e with
    | spread arg span => exact approximates_cons (approximates_infer hs _) others
    | _ => exact approximates_cons first others
termination_by structural es => es

theorem approximates_arguments (hs : s.Keyed) (hb : Beyond.Approximates s slack E E' b b') :
    (es : List Expr) → Approximates slack E E' (fun args => ∀ a ∈ args, a.Keyed)
      (s.arguments b id es) (s.arguments b' id es)
  | [] => .pure (by simp)
  | e :: rest => by
    have first := approximates_orUndefined
      (s.approximates_within id e.span (approximates_form hs hb e))
    have others := approximates_arguments hs hb rest
    cases e with
    | spread arg span => exact approximates_cons (approximates_infer hs _) others
    | function params body span =>
      cases params with
      | nil => exact approximates_cons first others
      | cons param params =>
        exact others.bind fun _ ho => .pure (List.forall_mem_cons.mpr ⟨Schema.keyed_any, ho⟩)
    | _ => exact approximates_cons first others
termination_by structural es => es

theorem approximates_draft (hs : s.Keyed) (hb : Beyond.Approximates s slack E E' b b') :
    (ps : List Property) → {d : Draft} → d.Keyed →
      Approximates slack E E' Draft.Keyed (s.draft b id ps d) (s.draft b' id ps d)
  | [], _, hd => .pure hd
  | .keyed key value doc span :: rest, d, hd => by
    have hvalue := s.approximates_within id value.span (approximates_form hs hb value)
    have others : ∀ {d : Draft}, d.Keyed →
        Approximates slack E E' Draft.Keyed (s.draft b id rest d) (s.draft b' id rest d) :=
      fun h => approximates_draft hs hb rest h
    rw [draft, draft]
    cases key.name? with
    | none => exact .throw _
    | some name => exact (approximates_writeKeyed hd name doc hvalue).bind fun _ h => others h
  | .shorthand name _ span :: rest, d, hd =>
    (s.approximates_within id span (approximates_name hs hb name span)).bind fun _ hschema =>
      (approximates_spreadInto hb hd span hschema).bind fun _ h =>
        approximates_draft hs hb rest h
  | .spread arg _ _ :: rest, d, hd =>
    (s.approximates_within id arg.span (approximates_form hs hb arg)).bind fun _ hschema =>
      (approximates_spreadInto hb hd arg.span hschema).bind fun _ h =>
        approximates_draft hs hb rest h
  | .method .. :: _, _, _ => .throw _
termination_by structural ps => ps

end

/-! ### Names -/

/-- A name expands as far as its definition is evaluated. -/
theorem approximates_expandWith (hs : s.Keyed) {name : String} {origin : Origin}
    (he : ∀ id d, origin = .source id → s.project.resolve name id = .ok (.definition d) →
      Approximates slack E E' Schema.Keyed (b.evaluate d.init d.moduleId)
        (b'.evaluate d.init d.moduleId)) :
    Approximates slack E E' (fun found => found.1.Keyed) (s.expandWith b name origin)
      (s.expandWith b' name origin) := by
  cases origin with
  | package package => exact (approximates_external hs package name).bind fun _ hx => .pure hx
  | source id =>
    have hresolve : Approximates slack E E' (fun r => s.project.resolve name id = .ok r)
        (Eval.ofExcept (s.project.resolve name id)) (Eval.ofExcept (s.project.resolve name id)) :=
      .ofExcept fun _ h => h
    refine hresolve.bind fun resolved hr => ?_
    cases resolved with
    | definition d => exact (he id d rfl hr).bind fun _ h => .pure h
    | external package name =>
      exact (approximates_external hs package name).bind fun _ hx => .pure hx
    | whole origin => exact .throw _

/-- A reference is followed as far as its name expands and the way from there goes on. -/
theorem approximates_derefWith (hE : Covers slack E E') {x : Schema} (hx : x.Keyed)
    (h : ∀ name origin notes, x = .reference name origin notes → (name, origin) ∉ E →
      ∃ post : Schema → Prop,
        Approximates slack ((name, origin) :: E) ((name, origin) :: E') (fun found => post found.1)
          (s.expandWith b name origin) (s.expandWith b' name origin) ∧
        ∀ y, post y → Approximates slack ((name, origin) :: E) ((name, origin) :: E')
          Schema.Keyed (b.deref y) (b'.deref y)) :
    Approximates slack E E' Schema.Keyed (s.derefWith b x) (s.derefWith b' x) := by
  cases x with
  | reference name origin notes =>
    have hfound : Approximates slack E E' Schema.Keyed
        (Eval.guarded (name, origin) do b.deref (← s.expandWith b name origin).1)
        (Eval.guarded (name, origin) do b'.deref (← s.expandWith b' name origin).1) := by
      refine .guarded hE fun ht => ?_
      obtain ⟨post, hname, hon⟩ := h name origin notes rfl ht
      exact hname.bind fun found hf => hon found.1 hf
    exact hfound.bind fun y hy => .pure (hy.withNotes (hy.own.notes.under hx.own))
  | _ => exact .pure hx

end Setting

end CodecDocs
