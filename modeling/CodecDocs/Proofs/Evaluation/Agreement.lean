import CodecDocs.Proofs.Evaluation.History
import CodecDocs.Proofs.Registry

/-! Evaluation with two bounds, side by side. Two evaluations agree when they end alike, with a
result of which something is known, and when they run out of their bounds only where that is
allowed. The evaluation of an expression agrees if that of the calls in it and of what its
references stand for agrees; a single evaluation is one that agrees with itself. -/

namespace CodecDocs

namespace Eval

variable {α β : Type} {E : List Target} {lax : Prop}

/-- Started while the names `E` are being expanded, both evaluations end alike and leave these names
alone. A result is in `post`; a bound is exhausted only if that is allowed. -/
def Agree (E : List Target) (lax : Prop) (post : α → Prop) (act act' : Eval α) : Prop :=
  ∀ asked, ∃ outcome more, act ⟨E, asked⟩ = (outcome, ⟨E, more⟩) ∧
    act' ⟨E, asked⟩ = (outcome, ⟨E, more⟩) ∧ (∀ a, outcome = .ok a → post a) ∧
    (outcome = .error .exhausted → lax)

theorem Agree.pure {post : α → Prop} {a : α} (h : post a) :
    Agree E lax post (pure a) (Pure.pure a) := by
  intro asked
  refine ⟨.ok a, asked, rfl, rfl, ?_, nofun⟩
  rintro _ ⟨⟩
  exact h

theorem Agree.throw {post : α → Prop} {e : Fault} (h : e = .exhausted → lax) :
    Agree E lax post (throw e) (throw e) := by
  intro asked
  refine ⟨.error e, asked, rfl, rfl, nofun, ?_⟩
  rintro ⟨⟩
  exact h rfl

theorem Agree.bind {mid : α → Prop} {post : β → Prop} {act act' : Eval α} {f f' : α → Eval β}
    (h : Agree E lax mid act act') (hf : ∀ a, mid a → Agree E lax post (f a) (f' a)) :
    Agree E lax post (act >>= f) (act' >>= f') := by
  intro asked
  obtain ⟨outcome, more, ha, ha', hpost, hlax⟩ := h asked
  cases outcome with
  | ok a =>
    obtain ⟨outcome, further, hb, hb', hends⟩ := hf a (hpost a rfl) more
    exact ⟨outcome, further, by rw [bind_of_ok ha, hb], by rw [bind_of_ok ha', hb'], hends⟩
  | error e =>
    refine ⟨.error e, more, bind_of_error ha f, bind_of_error ha' f', nofun, ?_⟩
    rintro ⟨⟩
    exact hlax rfl

theorem Agree.mono {post post' : α → Prop} {act act' : Eval α} (h : Agree E lax post act act')
    (hp : ∀ a, post a → post' a) : Agree E lax post' act act' := by
  intro asked
  obtain ⟨outcome, more, ha, ha', hpost, hlax⟩ := h asked
  exact ⟨outcome, more, ha, ha', fun a ho => hp a (hpost a ho), hlax⟩

theorem Agree.ite {post : α → Prop} {act act' other other' : Eval α} {c : Prop} [Decidable c]
    (h : Agree E lax post act act') (ho : Agree E lax post other other') :
    Agree E lax post (if c then act else other) (if c then act' else other') := by
  split_ifs
  · exact h
  · exact ho

theorem agree_ofExcept {post : α → Prop} {outcome : Except Fault α}
    (h : ∀ a, outcome = .ok a → post a) (hlax : outcome = .error .exhausted → lax) :
    Agree E lax post (ofExcept outcome) (ofExcept outcome) := by
  cases outcome with
  | ok a => exact .pure (h a rfl)
  | error e => exact .throw fun he => hlax (by rw [he])

/-- The outcome of an evaluation as a value is known as well. -/
theorem Agree.observe {post : α → Prop} {act act' : Eval α} (h : Agree E lax post act act') :
    Agree E lax (fun outcome => (∀ a, outcome = .ok a → post a) ∧
      (outcome = .error .exhausted → lax)) (observe act) (Eval.observe act') := by
  intro asked
  obtain ⟨outcome, more, ha, ha', hends⟩ := h asked
  refine ⟨.ok outcome, more, by rw [observe_apply, ha], by rw [observe_apply, ha'], ?_, nofun⟩
  rintro _ ⟨⟩
  exact hends

/-- A name that is not being expanded is while the evaluations under it run. -/
theorem Agree.guarded {post : α → Prop} {act act' : Eval α} {target : Target}
    (h : target ∉ E → Agree (target :: E) lax post act act') :
    Agree E lax post (guarded target act) (Eval.guarded target act') := by
  intro asked
  by_cases ht : target ∈ E
  · exact ⟨_, asked, guarded_inside act ht asked, guarded_inside act' ht asked, nofun, nofun⟩
  · obtain ⟨outcome, more, ha, ha', hends⟩ := h ht asked
    exact ⟨outcome, more, guarded_outside ht ha, guarded_outside ht ha', hends⟩

end Eval

open Eval

theorem Fault.locate_eq_exhausted {here : Location} {e : Fault} (h : e.locate here = .exhausted) :
    e = .exhausted := by
  cases e <;> first | rfl | cases h

variable {E : List Target} {lax : Prop} {P : Target → Prop}

theorem Setting.agree_within (s : Setting) {α : Type} {post : α → Prop} {act act' : Eval α}
    (id : String) (span : Span) (h : Agree E lax post act act') :
    Agree E lax post (s.within id span act) (s.within id span act') := by
  intro asked
  obtain ⟨outcome, more, ha, ha', hpost, hlax⟩ := h asked
  cases outcome with
  | ok a => exact ⟨.ok a, more, by simp only [within, ha], by simp only [within, ha'], hpost, nofun⟩
  | error e =>
    refine ⟨.error (e.locate (s.location id span)), more, by simp only [within, ha],
      by simp only [within, ha'], fun a h => (by cases h), fun he => hlax ?_⟩
    rw [Fault.locate_eq_exhausted (Except.error.inj he)]

/-! ### Combinators -/

namespace Rule

variable {deref deref' : Schema → Eval Schema} {args : List Schema}

theorem agree_misuse {α : Type} {post : α → Prop} (label : String) (what : Misuse) :
    Agree E lax post (misuse label what) (misuse label what) := .throw nofun

theorem agree_firstArg (ha : ∀ a ∈ args, a.Sound P) (label : String) :
    Agree E lax (Schema.Sound P) (firstArg label args) (firstArg label args) := by
  cases args with
  | nil => exact agree_misuse _ _
  | cons arg args => exact .pure (ha arg List.mem_cons_self)

theorem agree_listArg (ha : ∀ a ∈ args, a.Sound P) (label : String) :
    Agree E lax (fun members => ∀ m ∈ members, m.Sound P) (listArg label args)
      (listArg label args) := by
  refine (agree_firstArg ha label).bind fun arg harg => ?_
  cases arg with
  | tuple members n => exact .pure fun m hm => harg.child hm
  | _ => exact agree_misuse _ _

theorem agree_objectArg (hd : ∀ x, x.Sound P → Agree E lax (Schema.Sound P) (deref x) (deref' x))
    {arg : Schema} (harg : arg.Sound P) (label : String) :
    Agree E lax (fun parts => Schema.SoundFields P parts.1) (objectArg label deref arg)
      (objectArg label deref' arg) := by
  refine (hd arg harg).bind fun found hfound => ?_
  cases found with
  | object ps rs n => exact .pure (Schema.sound_object.mp hfound).2
  | _ => exact agree_misuse _ _

theorem agree_checkRoute (properties : Table String Schema) :
    Agree E lax (fun _ => True) (checkRoute properties) (checkRoute properties) := by
  unfold checkRoute
  split
  · exact agree_misuse _ _
  · split
    · exact agree_misuse _ _
    · exact .pure trivial

/-- A combinator makes sound schemas from sound arguments. -/
theorem agree_apply (hd : ∀ x, x.Sound P → Agree E lax (Schema.Sound P) (deref x) (deref' x))
    (ha : ∀ a ∈ args, a.Sound P) {rule : Rule} (hr : rule.Plain) :
    Agree E lax (Schema.Sound P) (rule.apply deref args) (rule.apply deref' args) := by
  cases rule with
  | fixed schema => exact .pure (hr.1 schema List.mem_cons_self).sound
  | first label => exact agree_firstArg ha label
  | allRequired label =>
    exact (agree_firstArg ha label).bind fun arg harg =>
      (agree_objectArg hd harg label).bind fun parts hparts => .pure (hparts.closedObject _)
  | noneRequired label =>
    exact (agree_firstArg ha label).bind fun arg harg =>
      (agree_objectArg hd harg label).bind fun parts hparts =>
        .pure (Schema.sound_object.mpr ⟨by simp, hparts⟩)
  | array label => exact (agree_firstArg ha label).bind fun arg harg => .pure (harg.array _)
  | nonEmptyArray label =>
    exact (agree_firstArg ha label).bind fun arg harg => .pure ((harg.array _).withNotes _)
  | record =>
    match args with
    | [] | [_] => exact agree_misuse _ _
    | domain :: codomain :: _ =>
      exact .pure (Schema.Sound.record (ha domain (by simp)) (ha codomain (by simp)) _)
  | tuple => exact (agree_listArg ha _).bind fun members hm => .pure (Schema.sound_tuple hm _)
  | union => exact (agree_listArg ha _).bind fun members hm => .pure (Schema.sound_union hm _)
  | intersection =>
    refine (agree_listArg ha _).bind fun members hm => ?_
    cases members with
    | nil => exact agree_misuse _ _
    | cons m ms => exact .pure (Schema.sound_intersection (by simp) hm _)
  | literal =>
    exact (agree_firstArg ha _).bind fun value hv => (Agree.pure hv).ite (agree_misuse _ _)
  | keys =>
    refine (agree_firstArg ha _).bind fun arg harg =>
      (agree_objectArg hd harg _).bind fun parts hparts => ?_
    have hempty : Agree E lax (fun _ : PUnit => True) (misuse "keyof" .noKeys)
        (misuse "keyof" .noKeys) := agree_misuse _ _
    exact (hempty.bind fun _ _ => .pure (Schema.sound_primitive _ _ _)).ite
      (.pure (Schema.sound_primitive _ _ _))
  | either label other =>
    refine (agree_firstArg ha label).bind fun arg harg => .pure (Schema.sound_union ?_ _)
    intro m hm
    rcases List.mem_cons.mp hm with rfl | hm
    · exact harg
    · exact List.mem_singleton.mp hm ▸ (hr.1 other List.mem_cons_self).sound
  | request =>
    refine (agree_firstArg ha _).bind fun arg harg =>
      (agree_objectArg hd harg _).bind fun parts hparts => ?_
    dsimp only
    split
    · exact agree_misuse _ _
    · exact .pure (hparts.closedObject _)
  | route =>
    exact (agree_firstArg ha _).bind fun arg harg =>
      (agree_objectArg hd harg _).bind fun parts hparts =>
        (agree_checkRoute parts.1).bind fun _ _ => .pure (hparts.objectOf _ _)
  | host build => cases hr.2

end Rule

/-! ### Object literals -/

namespace Draft

/-- The properties of a draft are sound; what it requires is sorted out at its end. -/
def Sound (P : Target → Prop) (d : Draft) : Prop := Schema.SoundFields P d.properties

variable {d : Draft}

theorem sound_empty : empty.Sound P := by simp [Sound, empty, Schema.SoundFields]

theorem Sound.write (h : d.Sound P) {name : String} {schema : Schema} (hs : schema.Sound P) :
    (d.write name schema).Sound P := h.insert hs

theorem Sound.erase (h : d.Sound P) {name : String} : (d.erase name).Sound P :=
  fun p hp => h p (List.mem_filter.mp hp).1

theorem Sound.spread (h : d.Sound P) {properties : Table String Schema}
    (hp : Schema.SoundFields P properties) (required : Names) :
    (d.spread properties required).Sound P := by
  unfold Draft.spread
  induction properties generalizing d with
  | nil => exact h
  | cons p properties ih =>
    have hfirst := hp p List.mem_cons_self
    exact ih (h.insert hfirst) fun q hq => hp q (List.mem_cons_of_mem _ hq)

theorem Sound.schema (h : d.Sound P) : d.schema.Sound P := h.objectOf _ _

end Draft

/-! ### Calls in expressions -/

namespace Script

mutual

/-- What is called in an expression, at any depth. -/
def Expr.callees : Expr → List Expr
  | .call callee args _ => callee :: (callee.callees ++ calleesAll args)
  | .construct callee args _ => callee.callees ++ calleesAll args
  | .member object _ _ => object.callees
  | .index object index _ => object.callees ++ index.callees
  | .array elements _ => calleesAll elements
  | .object properties _ => calleesProperties properties
  | .function _ body _ => body.callees
  | .spread arg _ | .unary _ arg _ => arg.callees
  | .binary _ left right _ => left.callees ++ right.callees
  | .conditional test yes no _ => test.callees ++ (yes.callees ++ no.callees)
  | .string .. | .number .. | .bool .. | .null _ | .template _ | .regex _ | .ident .. => []

def calleesAll : List Expr → List Expr
  | [] => []
  | e :: rest => e.callees ++ calleesAll rest

def calleesProperties : List Property → List Expr
  | [] => []
  | property :: rest => property.callees ++ calleesProperties rest

def Property.callees : Property → List Expr
  | .keyed key value _ _ => key.callees ++ value.callees
  | .spread arg _ _ => arg.callees
  | .shorthand .. | .method .. => []

def Key.callees : Key → List Expr
  | .computed key => key.callees
  | .name _ | .string _ | .number _ => []

def Body.callees : Body → List Expr
  | .expression value | .returning value => value.callees
  | .block => []

end

end Script

namespace Setting

open Script

variable (s : Setting)

/-- What evaluation needs to know of names: definitions and package exports that it comes to may be
referred to, combinators are plain, and looking a name up ends. -/
structure Legible (lax : Prop) (P : Target → Prop) : Prop where
  oracle : s.oracle = none
  definition : ∀ {e id d}, s.referent e id = .ok (.definition d) → P d.target
  external : ∀ {e id package name}, s.referent e id = .ok (.external package name) →
    P (name, .package package)
  combinator : ∀ {e id c}, s.referent e id = .ok (.combinator c) → c.rule.Plain
  referent : ∀ {e id}, s.referent e id = .error .exhausted → lax
  resolve : ∀ {name id}, s.project.resolve name id = .error .exhausted → lax

/-- Calls of some callees in a module agree outside of the expression that they stand in. -/
def CallsAgree (E : List Target) (lax : Prop) (P : Target → Prop) (b b' : Beyond) (id : String)
    (callees : List Expr) : Prop :=
  ∀ callee ∈ callees, ∀ d body, s.referent callee id = .ok (.definition d) →
    callBody? d = some body →
      Agree E lax (Schema.Sound P) (b.evaluate body d.moduleId) (b'.evaluate body d.moduleId)

variable {s} {b b' : Beyond} {id : String}

theorem CallsAgree.mono {callees fewer : List Expr} (h : s.CallsAgree E lax P b b' id callees)
    (hsub : fewer ⊆ callees) : s.CallsAgree E lax P b b' id fewer :=
  fun callee hc => h callee (hsub hc)

variable (hs : s.Legible lax P)
  (hd : ∀ x, x.Sound P → Agree E lax (Schema.Sound P) (b.deref x) (b'.deref x))

include hs

theorem agree_infer (e : Expr) :
    Agree E lax (Schema.Sound P) (s.infer id e) (s.infer id e) := by
  simp only [infer, hs.oracle]
  exact .throw nofun

theorem agree_referent (e : Expr) :
    Agree E lax (fun r => s.referent e id = .ok r) (Eval.ofExcept (s.referent e id))
      (Eval.ofExcept (s.referent e id)) := agree_ofExcept (fun _ h => h) hs.referent

omit hs in
/-- The global symbol is refused before anything else. -/
theorem agree_unlessSymbol (e : Expr) {act act' : Eval Schema}
    (h : Agree E lax (Schema.Sound P) act act') :
    Agree E lax (Schema.Sound P)
      (do
        if s.isSymbol id e then throw (Fault.unrepresentable .symbol none)
        act)
      (do
        if s.isSymbol id e then throw (Fault.unrepresentable .symbol none)
        act') := by
  have hsymbol : Agree E lax (fun _ : PUnit => True)
      (throw (Fault.unrepresentable .symbol none)) (throw (Fault.unrepresentable .symbol none)) :=
    .throw nofun
  exact (hsymbol.bind fun _ _ => h).ite h

include hd

theorem agree_reference (e : Expr) :
    Agree E lax (Schema.Sound P) (s.reference b id e) (s.reference b' id e) := by
  refine agree_unlessSymbol e ((agree_referent hs e).bind fun r hr => ?_)
  cases r with
  | combinator c => exact Rule.agree_apply hd (by simp) (hs.combinator hr)
  | definition d => exact .pure (Schema.sound_reference.mpr (hs.definition hr))
  | external package name => exact .pure (Schema.sound_reference.mpr (hs.external hr))
  | whole origin => exact .throw nofun

theorem agree_name (name : String) (span : Span) :
    Agree E lax (Schema.Sound P) (s.name b id name span) (s.name b' id name span) :=
  Agree.ite (.pure (Schema.sound_undefined _)) (agree_reference hs hd _)

/-- A call of a name or a member, after which its arguments are evaluated. -/
theorem agree_callee {callee : Expr} {args args' : Eval (List Schema)}
    (hc : s.CallsAgree E lax P b b' id [callee])
    (ha : Agree E lax (fun args => ∀ a ∈ args, a.Sound P) args args') :
    Agree E lax (Schema.Sound P)
      (do
        if s.isSymbol id callee then throw (Fault.unrepresentable .symbol none)
        let target ← Eval.ofExcept (s.referent callee id)
        call b (← args) target)
      (do
        if s.isSymbol id callee then throw (Fault.unrepresentable .symbol none)
        let target ← Eval.ofExcept (s.referent callee id)
        call b' (← args') target) := by
  refine agree_unlessSymbol callee ((agree_referent hs callee).bind fun r hr =>
    ha.bind fun args hargs => ?_)
  cases r with
  | combinator c => exact Rule.agree_apply hd hargs (hs.combinator hr)
  | definition d =>
    rw [call, call]
    cases hb : callBody? d with
    | some body => exact hc callee List.mem_cons_self d body hr hb
    | none => exact .pure (Schema.sound_reference.mpr (hs.definition hr))
  | external package name => exact .pure (Schema.sound_reference.mpr (hs.external hr))
  | whole origin => exact .throw fun h => by cases h

omit hs in
theorem agree_spreadInto {d : Draft} (hdraft : d.Sound P) (span : Span) {schema : Schema}
    (hschema : schema.Sound P) :
    Agree E lax (Draft.Sound P) (s.spreadInto b id d span schema)
      (s.spreadInto b' id d span schema) := by
  refine (s.agree_within id span (hd schema hschema)).bind fun found hfound => ?_
  cases found with
  | object ps rs n => exact .pure (hdraft.spread (Schema.sound_object.mp hfound).2 rs)
  | _ => exact .throw nofun

omit hs hd

theorem agree_orUndefined {act act' : Eval Schema} (h : Agree E lax (Schema.Sound P) act act') :
    Agree E lax (Schema.Sound P) (orUndefined act) (orUndefined act') := by
  refine h.observe.bind fun outcome ho => ?_
  cases outcome with
  | ok schema => exact .pure (ho.1 schema rfl)
  | error e =>
    exact Agree.ite (.pure (Schema.sound_undefined _)) (.throw fun he => ho.2 (by rw [he]))

theorem agree_writeKeyed {d : Draft} (hdraft : d.Sound P) (name : String) (doc : Option String)
    {act act' : Eval Schema} (h : Agree E lax (Schema.Sound P) act act') :
    Agree E lax (Draft.Sound P) (writeKeyed d name doc act) (writeKeyed d name doc act') := by
  refine h.observe.bind fun outcome ho => ?_
  cases outcome with
  | ok schema => exact .pure (hdraft.write ((ho.1 schema rfl).withComment _))
  | error e => exact Agree.ite (.pure hdraft.erase) (.throw fun he => ho.2 (by rw [he]))

theorem agree_cons {first first' : Eval Schema} {rest rest' : Eval (List Schema)}
    (hf : Agree E lax (Schema.Sound P) first first')
    (hr : Agree E lax (fun schemas => ∀ x ∈ schemas, x.Sound P) rest rest') :
    Agree E lax (fun schemas => ∀ x ∈ schemas, x.Sound P)
      (do
        let schema ← first
        return schema :: (← rest))
      (do
        let schema ← first'
        return schema :: (← rest')) :=
  hf.bind fun _ hschema => hr.bind fun _ hrest =>
    .pure (List.forall_mem_cons.mpr ⟨hschema, hrest⟩)

/-! ### Expressions -/

mutual

/-- Inside of an expression evaluation agrees, by recursion on the expression. -/
theorem agree_form (hs : s.Legible lax P)
    (hd : ∀ x, x.Sound P → Agree E lax (Schema.Sound P) (b.deref x) (b'.deref x)) :
    (e : Expr) → s.CallsAgree E lax P b b' id e.callees →
      Agree E lax (Schema.Sound P) (s.form b id e) (s.form b' id e)
  | .string .., _ | .number .., _ | .bool .., _ | .null _, _ => .pure (Schema.sound_primitive _ _ _)
  | .ident name span, _ => agree_name hs hd name span
  | .member object property span, _ => agree_reference hs hd _
  | .unary op arg span, _ => by
    cases op with
    | void => exact .throw nofun
    | _ => exact agree_infer hs _
  | .array elements _, hc =>
    (agree_members hs hd elements hc).bind fun _ hm => .pure (Schema.sound_tuple hm _)
  | .object properties _, hc =>
    (agree_draft hs hd properties Draft.sound_empty hc).bind fun _ hdraft => .pure hdraft.schema
  | .function [] (.expression value) _, hc | .function [] (.returning value) _, hc =>
    s.agree_within id value.span (agree_form hs hd value hc)
  | .function [] .block _, _ => .pure (Schema.sound_any _)
  | .function (_ :: _) _ _, _ => .pure (Schema.sound_any _)
  | .call (.function [] (.expression value) _) _ _, hc
  | .call (.function [] (.returning value) _) _ _, hc =>
    s.agree_within id value.span (agree_form hs hd value (hc.mono (by
      intro x hx
      exact List.mem_cons_of_mem _ (List.mem_append_left _ hx))))
  | .call (.ident _ _) args _, hc | .call (.member ..) args _, hc =>
    agree_callee hs hd (hc.mono (by simp [Expr.callees])) (agree_arguments hs hd args (hc.mono (by
      intro x hx
      exact List.mem_cons_of_mem _ (List.mem_append_right _ hx))))
  | .call (.function [] .block _) _ _, _ | .call (.function (_ :: _) _ _) _ _, _
  | .call (.string ..) _ _, _ | .call (.number ..) _ _, _ | .call (.bool ..) _ _, _
  | .call (.null _) _ _, _ | .call (.template _) _ _, _ | .call (.regex _) _ _, _
  | .call (.index ..) _ _, _ | .call (.call ..) _ _, _ | .call (.construct ..) _ _, _
  | .call (.array ..) _ _, _ | .call (.object ..) _ _, _ | .call (.spread ..) _ _, _
  | .call (.unary ..) _ _, _ | .call (.binary ..) _ _, _ | .call (.conditional ..) _ _, _ =>
    agree_infer hs _
  | .template _, _ | .regex _, _ | .index .., _ | .construct .., _ | .spread .., _ | .binary .., _
  | .conditional .., _ => agree_infer hs _
termination_by structural e => e

theorem agree_members (hs : s.Legible lax P)
    (hd : ∀ x, x.Sound P → Agree E lax (Schema.Sound P) (b.deref x) (b'.deref x)) :
    (es : List Expr) → s.CallsAgree E lax P b b' id (calleesAll es) →
      Agree E lax (fun members => ∀ m ∈ members, m.Sound P) (s.members b id es) (s.members b' id es)
  | [], _ => .pure (by simp)
  | e :: rest, hc => by
    have first := agree_orUndefined (s.agree_within id e.span
      (agree_form hs hd e (hc.mono (List.subset_append_left _ _))))
    have others := agree_members hs hd rest (hc.mono (List.subset_append_right _ _))
    cases e with
    | spread arg span => exact agree_cons (agree_infer hs _) others
    | _ => exact agree_cons first others
termination_by structural es => es

theorem agree_arguments (hs : s.Legible lax P)
    (hd : ∀ x, x.Sound P → Agree E lax (Schema.Sound P) (b.deref x) (b'.deref x)) :
    (es : List Expr) → s.CallsAgree E lax P b b' id (calleesAll es) →
      Agree E lax (fun args => ∀ a ∈ args, a.Sound P) (s.arguments b id es) (s.arguments b' id es)
  | [], _ => .pure (by simp)
  | e :: rest, hc => by
    have first := agree_orUndefined (s.agree_within id e.span
      (agree_form hs hd e (hc.mono (List.subset_append_left _ _))))
    have others := agree_arguments hs hd rest (hc.mono (List.subset_append_right _ _))
    cases e with
    | spread arg span => exact agree_cons (agree_infer hs _) others
    | function params body span =>
      cases params with
      | nil => exact agree_cons first others
      | cons param params =>
        exact others.bind fun _ ho => .pure (List.forall_mem_cons.mpr ⟨Schema.sound_any _, ho⟩)
    | _ => exact agree_cons first others
termination_by structural es => es

theorem agree_draft (hs : s.Legible lax P)
    (hd : ∀ x, x.Sound P → Agree E lax (Schema.Sound P) (b.deref x) (b'.deref x)) :
    (ps : List Property) → {d : Draft} → d.Sound P →
      s.CallsAgree E lax P b b' id (calleesProperties ps) →
        Agree E lax (Draft.Sound P) (s.draft b id ps d) (s.draft b' id ps d)
  | [], _, hdraft, _ => .pure hdraft
  | .keyed key value doc span :: rest, d, hdraft, hc => by
    have hvalue := s.agree_within id value.span (agree_form hs hd value (hc.mono (by
      intro x hx
      exact List.mem_append_left _ (List.mem_append_right _ hx))))
    have others : ∀ {d : Draft}, d.Sound P →
        Agree E lax (Draft.Sound P) (s.draft b id rest d) (s.draft b' id rest d) :=
      fun h => agree_draft hs hd rest h (hc.mono (List.subset_append_right _ _))
    rw [draft, draft]
    cases key.name? with
    | none => exact .throw nofun
    | some name => exact (agree_writeKeyed hdraft name doc hvalue).bind fun _ h => others h
  | .shorthand name _ span :: rest, d, hdraft, hc =>
    (s.agree_within id span (agree_name hs hd name span)).bind fun _ hschema =>
      (agree_spreadInto hd hdraft span hschema).bind fun _ h =>
        agree_draft hs hd rest h (hc.mono (List.subset_append_right _ _))
  | .spread arg _ _ :: rest, d, hdraft, hc =>
    (s.agree_within id arg.span
      (agree_form hs hd arg (hc.mono (List.subset_append_left _ _)))).bind fun _ hschema =>
        (agree_spreadInto hd hdraft arg.span hschema).bind fun _ h =>
          agree_draft hs hd rest h (hc.mono (List.subset_append_right _ _))
  | .method .. :: _, _, _, _ => .throw nofun
termination_by structural ps => ps

end

/-! ### Names -/

/-- While a name is being expanded that was not before, evaluation of its definition agrees, and so
does what comes out stands for. An export of a package comes out as all values. -/
def NameAgrees (s : Setting) (E : List Target) (lax : Prop) (P : Target → Prop) (b b' : Beyond)
    (target : Target) : Prop :=
  target ∉ E →
    (∀ id d, target.2 = .source id → s.project.resolve target.1 id = .ok (.definition d) →
      Agree (target :: E) lax (Schema.Sound P) (b.evaluate d.init d.moduleId)
        (b'.evaluate d.init d.moduleId)) ∧
    ∀ x, x.Sound P → (∀ package, target.2 = .package package → x = .any .none) →
      Agree (target :: E) lax (Schema.Sound P) (b.deref x) (b'.deref x)

/-- What a name expands to agrees if the evaluation of its definition does. -/
theorem agree_expandWith (hs : s.Legible lax P) {name : String} {origin : Origin}
    (he : ∀ id d, origin = .source id → s.project.resolve name id = .ok (.definition d) →
      Agree E lax (Schema.Sound P) (b.evaluate d.init d.moduleId) (b'.evaluate d.init d.moduleId)) :
    Agree E lax (fun found => found.1.Sound P ∧ ∀ package, origin = .package package →
      found.1 = .any .none) (s.expandWith b name origin) (s.expandWith b' name origin) := by
  have hexternal : ∀ package name, Agree E lax (fun x => x = .any .none) (s.external package name)
      (s.external package name) := by
    intro package name
    simp only [external, hs.oracle]
    exact .pure rfl
  cases origin with
  | package package =>
    refine (hexternal package name).bind fun x hx => .pure ⟨?_, fun _ _ => hx⟩
    exact hx ▸ Schema.sound_any _
  | source id =>
    have hresolve : Agree E lax (fun r => s.project.resolve name id = .ok r)
        (Eval.ofExcept (s.project.resolve name id)) (Eval.ofExcept (s.project.resolve name id)) :=
      agree_ofExcept (fun _ h => h) hs.resolve
    refine hresolve.bind fun resolved hr => ?_
    cases resolved with
    | definition d => exact (he id d rfl hr).bind fun _ h => .pure ⟨h, nofun⟩
    | external package name =>
      refine (hexternal package name).bind fun x hx => .pure ⟨?_, nofun⟩
      exact hx ▸ Schema.sound_any _
    | whole origin => exact .throw nofun

theorem NameAgrees.expand {name : String} {origin : Origin} (hs : s.Legible lax P)
    (h : s.NameAgrees E lax P b b' (name, origin)) :
    Agree E lax (fun found => found.1.Sound P)
      (Eval.guarded (name, origin) (s.expandWith b name origin))
      (Eval.guarded (name, origin) (s.expandWith b' name origin)) :=
  .guarded fun ht => (agree_expandWith hs (h ht).1).mono fun _ hf => hf.1

/-- What a schema stands for agrees if, where it is a reference, its name does. -/
theorem agree_derefWith (hs : s.Legible lax P) (x : Schema)
    (h : ∀ name origin notes, x = .reference name origin notes →
      s.NameAgrees E lax P b b' (name, origin)) :
    Agree E lax (fun y => x.Sound P → y.Sound P) (s.derefWith b x) (s.derefWith b' x) := by
  cases x with
  | reference name origin notes =>
    have hname := h name origin notes rfl
    have hfound : Agree E lax (Schema.Sound P)
        (Eval.guarded (name, origin) do b.deref (← s.expandWith b name origin).1)
        (Eval.guarded (name, origin) do b'.deref (← s.expandWith b' name origin).1) :=
      .guarded fun ht => (agree_expandWith hs (hname ht).1).bind fun found hf =>
        (hname ht).2 found.1 hf.1 hf.2
    exact hfound.bind fun y hy => .pure fun _ => hy.withNotes _
  | _ => exact .pure id

end Setting

end CodecDocs
