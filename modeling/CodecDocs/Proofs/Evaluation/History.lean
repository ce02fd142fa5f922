import CodecDocs.Document
import Mathlib.Data.List.Basic

/-! Evaluation carries no history. Whatever is evaluated, and however that ends, the names being
expanded are afterwards those from before, and neither the outcome nor the questions asked on the
way depend on the questions asked earlier. The proofs follow evaluation from its steps to whole
expressions, and on to expansion and dereferencing. -/

namespace CodecDocs

/-- The names being expanded come out as they went in; the result and the questions that are added
depend on nothing else. -/
def Session.Steady {α : Type} (act : StateM Session α) : Prop :=
  ∀ expanding, ∃ a more, ∀ asked, act ⟨expanding, asked⟩ = (a, ⟨expanding, asked ++ more⟩)

namespace Session

variable {α β : Type}

theorem Steady.pure (a : α) : Steady (pure a : StateM Session α) :=
  fun _ => ⟨a, [], fun asked => by rw [List.append_nil]; rfl⟩

theorem Steady.bind {act : StateM Session α} {f : α → StateM Session β} (h : Steady act)
    (hf : ∀ a, Steady (f a)) : Steady (act >>= f) := by
  intro expanding
  obtain ⟨a, more, ha⟩ := h expanding
  obtain ⟨b, further, hb⟩ := hf a expanding
  refine ⟨b, more ++ further, fun asked => ?_⟩
  calc (act >>= f) ⟨expanding, asked⟩
      = f (act ⟨expanding, asked⟩).1 (act ⟨expanding, asked⟩).2 := rfl
    _ = f a ⟨expanding, asked ++ more⟩ := by rw [ha]
    _ = (b, ⟨expanding, asked ++ (more ++ further)⟩) := by rw [hb, List.append_assoc]

theorem Steady.mapM {f : α → StateM Session β} (h : ∀ a, Steady (f a)) (as : List α) :
    Steady (as.mapM f) := by
  induction as with
  | nil => exact Steady.pure []
  | cons a as ih =>
    rw [List.mapM_cons]
    exact (h a).bind fun b => ih.bind fun bs => Steady.pure (b :: bs)

end Session

namespace Eval

variable {α β : Type}

/-! ### Steps of an evaluation -/

theorem bind_of_ok {act : Eval α} {session after : Session} {a : α}
    (h : act session = (.ok a, after)) (f : α → Eval β) : (act >>= f) session = f a after := by
  change (ExceptT.bindCont f (act session).1) (act session).2 = _
  rw [h]
  rfl

theorem bind_of_error {act : Eval α} {session after : Session} {e : Fault}
    (h : act session = (.error e, after)) (f : α → Eval β) :
    (act >>= f) session = (.error e, after) := by
  change (ExceptT.bindCont f (act session).1) (act session).2 = _
  rw [h]
  rfl

/-- What succeeds in two steps succeeds in each. -/
theorem exists_of_bind_ok {act : Eval α} {f : α → Eval β} {session : Session} {b : β}
    (h : ((act >>= f) session).1 = .ok b) :
    ∃ a after, act session = (.ok a, after) ∧ (f a after).1 = .ok b := by
  cases hact : act session with
  | mk outcome after =>
    cases outcome with
    | ok a => exact ⟨a, after, rfl, by rwa [bind_of_ok hact] at h⟩
    | error e =>
      rw [bind_of_error hact] at h
      cases h

theorem get_apply (session : Session) : (get : Eval Session) session = (.ok session, session) := rfl

theorem enter_apply (target : Target) (session : Session) :
    enter target session = (.ok (), ⟨target :: session.expanding, session.asked⟩) := rfl

theorem leave_apply (session : Session) :
    leave session = (.ok (), ⟨session.expanding.tail, session.asked⟩) := rfl

theorem observe_apply (act : Eval α) (session : Session) :
    observe act session = (.ok (act session).1, (act session).2) := rfl

/-- A name does not lie within itself. -/
theorem guarded_inside (act : Eval α) {target : Target} {expanding : List Target}
    (h : target ∈ expanding) (asked : List Query) :
    guarded target act ⟨expanding, asked⟩ =
      (.error (.circular target.1 target.2), ⟨expanding, asked⟩) := by
  have hc : expanding.contains target = true := by simpa using h
  rw [guarded, bind_of_ok (get_apply _), if_pos hc]
  rfl

/-- An evaluation under a new name: the name is on the list for the time of it. -/
theorem guarded_outside {act : Eval α} {target : Target} {expanding : List Target}
    {asked : List Query} {outcome : Except Fault α} {after : Session} (h : target ∉ expanding)
    (ho : act ⟨target :: expanding, asked⟩ = (outcome, after)) :
    guarded target act ⟨expanding, asked⟩ = (outcome, ⟨after.expanding.tail, after.asked⟩) := by
  have hc : ¬ expanding.contains target = true := by simpa using h
  rw [guarded, bind_of_ok (get_apply _), if_neg hc]
  dsimp only
  rw [bind_of_ok (enter_apply target _), bind_of_ok (observe_apply act _), ho,
    bind_of_ok (leave_apply after)]
  cases outcome <;> rfl

theorem guarded_fst (act : Eval α) {target : Target} {expanding : List Target}
    (h : target ∉ expanding) (asked : List Query) :
    (guarded target act ⟨expanding, asked⟩).1 = (act ⟨target :: expanding, asked⟩).1 := by
  cases ho : act ⟨target :: expanding, asked⟩ with
  | mk outcome after => rw [guarded_outside h ho]

/-- What succeeds under a name succeeds within it, and the name is a new one. -/
theorem ok_of_guarded {act : Eval α} {target : Target} {expanding : List Target}
    {asked : List Query} {a : α} (h : (guarded target act ⟨expanding, asked⟩).1 = .ok a) :
    target ∉ expanding ∧ (act ⟨target :: expanding, asked⟩).1 = .ok a := by
  by_cases ht : target ∈ expanding
  · rw [guarded_inside act ht] at h
    cases h
  · rw [guarded_fst act ht] at h
    exact ⟨ht, h⟩

/-! ### Evaluation without history -/

/-- An evaluation that leaves no history, whether it fails or not. -/
def Steady (act : Eval α) : Prop := Session.Steady act.outcome

theorem steady_iff {act : Eval α} : Steady act ↔ ∀ expanding, ∃ outcome more, ∀ asked,
    act ⟨expanding, asked⟩ = (outcome, ⟨expanding, asked ++ more⟩) := Iff.rfl

theorem Steady.outcome_eq {act : Eval α} (h : Steady act) (expanding : List Target)
    (asked asked' : List Query) :
    (act ⟨expanding, asked⟩).1 = (act ⟨expanding, asked'⟩).1 := by
  obtain ⟨outcome, more, ho⟩ := steady_iff.mp h expanding
  rw [ho, ho]

/-- What succeeds in two steps succeeds in each, the second time within the same names. -/
theorem Steady.exists_of_ok {act : Eval α} {f : α → Eval β} (h : Steady act)
    {expanding : List Target} {asked : List Query} {b : β}
    (hb : ((act >>= f) ⟨expanding, asked⟩).1 = .ok b) :
    ∃ a more, act ⟨expanding, asked⟩ = (.ok a, ⟨expanding, more⟩) ∧
      (f a ⟨expanding, more⟩).1 = .ok b := by
  obtain ⟨a, after, ha, hf⟩ := exists_of_bind_ok hb
  obtain ⟨outcome, more, ho⟩ := steady_iff.mp h expanding
  obtain rfl : after = ⟨expanding, asked ++ more⟩ := by
    rw [ho] at ha
    exact (congrArg Prod.snd ha).symm
  exact ⟨a, _, ha, hf⟩

theorem Steady.pure (a : α) : Steady (pure a : Eval α) := Session.Steady.pure (Except.ok a)

theorem Steady.throw (e : Fault) : Steady (throw e : Eval α) := Session.Steady.pure (Except.error e)

theorem Steady.bind {act : Eval α} {f : α → Eval β} (h : Steady act) (hf : ∀ a, Steady (f a)) :
    Steady (act >>= f) := by
  refine steady_iff.mpr fun expanding => ?_
  obtain ⟨outcome, more, ho⟩ := steady_iff.mp h expanding
  cases outcome with
  | ok a =>
    obtain ⟨outcome, further, hf⟩ := steady_iff.mp (hf a) expanding
    refine ⟨outcome, more ++ further, fun asked => ?_⟩
    rw [bind_of_ok (ho asked), hf, List.append_assoc]
  | error e => exact ⟨.error e, more, fun asked => bind_of_error (ho asked) f⟩

theorem Steady.lift {act : StateM Session α} (h : Session.Steady act) :
    Steady (ExceptT.lift act : Eval α) := by
  refine steady_iff.mpr fun expanding => ?_
  obtain ⟨a, more, ha⟩ := h expanding
  refine ⟨.ok a, more, fun asked => ?_⟩
  calc (ExceptT.lift act : Eval α) ⟨expanding, asked⟩
      = (.ok (act ⟨expanding, asked⟩).1, (act ⟨expanding, asked⟩).2) := rfl
    _ = (.ok a, ⟨expanding, asked ++ more⟩) := by rw [ha]

theorem Steady.mapM {f : α → Eval β} (h : ∀ a, Steady (f a)) (as : List α) :
    Steady (as.mapM f) := by
  induction as with
  | nil => exact Steady.pure []
  | cons a as ih =>
    rw [List.mapM_cons]
    exact (h a).bind fun b => ih.bind fun bs => Steady.pure (b :: bs)

theorem steady_ofExcept (outcome : Except Fault α) : Steady (ofExcept outcome) := by
  cases outcome with
  | ok a => exact Steady.pure a
  | error e => exact Steady.throw e

theorem steady_log (query : Query) : Steady (log query) :=
  fun _ => ⟨.ok (), [query], fun _ => rfl⟩

theorem Steady.observe {act : Eval α} (h : Steady act) : Steady (observe act) := Steady.lift h

theorem Steady.ite {act other : Eval α} {c : Prop} [Decidable c] (h : Steady act)
    (h' : Steady other) : Steady (if c then act else other) := by
  split_ifs
  · exact h
  · exact h'

/-- The name is put on the list for the evaluation and taken off after it, however it ends. -/
theorem Steady.guarded {act : Eval α} (h : Steady act) (target : Target) :
    Steady (guarded target act) := by
  refine steady_iff.mpr fun expanding => ?_
  by_cases hc : target ∈ expanding
  · refine ⟨.error (.circular target.1 target.2), [], fun asked => ?_⟩
    rw [List.append_nil]
    exact guarded_inside act hc asked
  · obtain ⟨outcome, more, ho⟩ := steady_iff.mp h (target :: expanding)
    exact ⟨outcome, more, fun asked => guarded_outside hc (ho asked)⟩

end Eval

/-! ### Combinators -/

namespace Rule

open Eval

theorem steady_misuse {α : Type} (label : String) (what : Misuse) :
    Steady (misuse label what : Eval α) := .throw _

theorem steady_firstArg (label : String) (args : List Schema) :
    Steady (firstArg label args : Eval Schema) := by
  cases args with
  | nil => exact steady_misuse _ _
  | cons arg args => exact .pure arg

theorem steady_listArg (label : String) (args : List Schema) :
    Steady (listArg label args : Eval (List Schema)) := by
  refine (steady_firstArg label args).bind fun arg => ?_
  cases arg with
  | tuple members n => exact .pure members
  | _ => exact steady_misuse _ _

theorem steady_objectArg (label : String) {deref : Schema → Eval Schema}
    (h : ∀ x, Steady (deref x)) (arg : Schema) : Steady (objectArg label deref arg) := by
  refine (h arg).bind fun found => ?_
  cases found with
  | object ps rs n => exact .pure (ps, rs, n)
  | _ => exact steady_misuse _ _

theorem steady_checkRoute (properties : Table String Schema) :
    Steady (checkRoute properties : Eval Unit) := by
  unfold checkRoute
  split
  · exact steady_misuse _ _
  · split
    · exact steady_misuse _ _
    · exact .pure ()

/-- A combinator leaves no history when dereferencing does not. -/
theorem steady_apply {deref : Schema → Eval Schema} (h : ∀ x, Steady (deref x))
    (args : List Schema) (rule : Rule) : Steady (rule.apply deref args) := by
  cases rule with
  | fixed schema => exact .pure schema
  | first label => exact steady_firstArg label args
  | allRequired label | noneRequired label =>
    exact (steady_firstArg label args).bind fun arg =>
      (steady_objectArg label h arg).bind fun _ => .pure _
  | array label | nonEmptyArray label | either label =>
    exact (steady_firstArg label args).bind fun _ => .pure _
  | record =>
    match args with
    | [] | [_] => exact steady_misuse _ _
    | _ :: _ :: _ => exact .pure _
  | tuple | union => exact (steady_listArg _ args).bind fun _ => .pure _
  | intersection =>
    refine (steady_listArg _ args).bind fun members => ?_
    split
    · exact steady_misuse _ _
    · exact .pure _
  | literal =>
    exact (steady_firstArg _ args).bind fun _ => (Steady.pure _).ite (steady_misuse _ _)
  | keys =>
    refine (steady_firstArg _ args).bind fun arg => (steady_objectArg _ h arg).bind fun parts => ?_
    exact Steady.ite ((steady_misuse _ _).bind fun _ => .pure _) (.pure _)
  | request =>
    refine (steady_firstArg _ args).bind fun arg => (steady_objectArg _ h arg).bind fun parts => ?_
    dsimp only
    split
    · exact steady_misuse _ _
    · exact .pure _
  | route =>
    exact (steady_firstArg _ args).bind fun arg => (steady_objectArg _ h arg).bind fun parts =>
      (steady_checkRoute parts.1).bind fun _ => .pure _
  | host build =>
    rw [apply]
    split
    · exact .pure _
    · exact .throw _

end Rule

/-! ### Expressions -/

/-- Evaluation outside of an expression leaves no history. -/
structure Beyond.Steady (beyond : Beyond) : Prop where
  evaluate : ∀ e id, (beyond.evaluate e id).Steady
  deref : ∀ schema, (beyond.deref schema).Steady

namespace Setting

open Eval Script

variable (s : Setting)

theorem steady_within {α : Type} (id : String) (span : Span) {act : Eval α} (h : Steady act) :
    Steady (s.within id span act) := by
  refine steady_iff.mpr fun expanding => ?_
  obtain ⟨outcome, more, ho⟩ := steady_iff.mp h expanding
  cases outcome with
  | ok a => exact ⟨.ok a, more, fun asked => by simp only [within, ho]⟩
  | error e =>
    exact ⟨.error (e.locate (s.location id span)), more, fun asked => by simp only [within, ho]⟩

theorem ok_of_within {s : Setting} {α : Type} {id : String} {span : Span} {act : Eval α}
    {session after : Session} {a : α} (h : s.within id span act session = (.ok a, after)) :
    act session = (.ok a, after) := by
  unfold within at h
  cases ha : act session with
  | mk outcome later =>
    cases outcome with
    | ok b => rwa [ha] at h
    | error e =>
      rw [ha] at h
      cases h

theorem steady_infer (id : String) (e : Expr) : Steady (s.infer id e) := by
  unfold infer
  split
  · exact .throw _
  · exact (steady_log _).bind fun _ => steady_ofExcept _

theorem steady_external (package name : String) : Steady (s.external package name) := by
  unfold external
  split
  · exact .pure _
  · refine (steady_log _).bind fun _ => ?_
    split
    · exact steady_ofExcept _
    · exact .pure _

variable {beyond : Beyond}

theorem steady_reference (hb : beyond.Steady) (id : String) (e : Expr) :
    Steady (s.reference beyond id e) := by
  refine Steady.ite ((Steady.throw _).bind fun _ => ?_) ?_ <;>
  · refine (steady_ofExcept _).bind fun referent => ?_
    cases referent with
    | combinator c => exact Rule.steady_apply hb.deref [] c.rule
    | definition d => exact .pure _
    | external package name => exact .pure _
    | whole origin => exact .throw _

theorem steady_name (hb : beyond.Steady) (id name : String) (span : Span) :
    Steady (s.name beyond id name span) :=
  Steady.ite (.pure _) (s.steady_reference hb id _)

theorem steady_call (hb : beyond.Steady) (args : List Schema) (referent : Referent) :
    Steady (call beyond args referent) := by
  cases referent with
  | combinator c => exact Rule.steady_apply hb.deref args c.rule
  | definition d =>
    rw [call]
    split
    · exact hb.evaluate _ _
    · exact .pure _
  | external package name => exact .pure _
  | whole origin => exact .throw _

theorem steady_orUndefined {act : Eval Schema} (h : Steady act) : Steady (orUndefined act) := by
  refine h.observe.bind fun outcome => ?_
  cases outcome with
  | ok schema => exact .pure _
  | error e => exact Steady.ite (.pure _) (.throw _)

theorem steady_spreadInto (hb : beyond.Steady) (id : String) (d : Draft) (span : Span)
    (schema : Schema) : Steady (s.spreadInto beyond id d span schema) := by
  refine (s.steady_within id span (hb.deref schema)).bind fun found => ?_
  cases found with
  | object ps rs n => exact .pure _
  | _ => exact .throw _

theorem steady_writeKeyed (d : Draft) (name : String) (doc : Option String) {act : Eval Schema}
    (h : Steady act) : Steady (writeKeyed d name doc act) := by
  refine h.observe.bind fun outcome => ?_
  cases outcome with
  | ok schema => exact .pure _
  | error e => exact Steady.ite (.pure _) (.throw _)

theorem steady_guardedCall (hb : beyond.Steady) (id : String) (callee : Expr)
    {args : Eval (List Schema)} (h : Steady args) :
    Steady (do
      if s.isSymbol id callee then throw (Fault.unrepresentable .symbol none)
      let target ← Eval.ofExcept (s.referent callee id)
      call beyond (← args) target) := by
  have hcall : Steady (do
      let target ← Eval.ofExcept (s.referent callee id)
      call beyond (← args) target) :=
    (steady_ofExcept _).bind fun target => h.bind fun args => steady_call hb args target
  exact Steady.ite ((Steady.throw _).bind fun _ => hcall) hcall

mutual

theorem steady_form (hb : beyond.Steady) (id : String) : (e : Expr) → Steady (s.form beyond id e)
  | .string _ _ | .number _ _ | .bool _ _ | .null _ => .pure _
  | .ident name span => s.steady_name hb id name span
  | .member object property span => s.steady_reference hb id _
  | .unary op arg span => by
    cases op with
    | void => exact .throw _
    | _ => exact s.steady_infer id _
  | .array elements _ => (steady_members hb id elements).bind fun _ => .pure _
  | .object properties _ => (steady_draft hb id properties _).bind fun _ => .pure _
  | .function [] (.expression value) _ | .function [] (.returning value) _ =>
    s.steady_within id value.span (steady_form hb id value)
  | .function [] .block _ => .pure _
  | .function (_ :: _) _ _ => .pure _
  | .call (.function [] (.expression value) _) _ _
  | .call (.function [] (.returning value) _) _ _ =>
    s.steady_within id value.span (steady_form hb id value)
  | .call (.ident _ _) args _ | .call (.member ..) args _ =>
    s.steady_guardedCall hb id _ (steady_arguments hb id args)
  | .call (.function [] .block _) _ _ | .call (.function (_ :: _) _ _) _ _ | .call (.string ..) _ _
  | .call (.number ..) _ _ | .call (.bool ..) _ _ | .call (.null _) _ _ | .call (.template _) _ _
  | .call (.regex _) _ _ | .call (.index ..) _ _ | .call (.call ..) _ _ | .call (.construct ..) _ _
  | .call (.array ..) _ _ | .call (.object ..) _ _ | .call (.spread ..) _ _ | .call (.unary ..) _ _
  | .call (.binary ..) _ _ | .call (.conditional ..) _ _ => s.steady_infer id _
  | .template _ | .regex _ | .index .. | .construct .. | .spread .. | .binary ..
  | .conditional .. => s.steady_infer id _
termination_by structural e => e

theorem steady_members (hb : beyond.Steady) (id : String) :
    (es : List Expr) → Steady (s.members beyond id es)
  | [] => .pure _
  | e :: rest => by
    have first := steady_orUndefined (s.steady_within id e.span (steady_form hb id e))
    have others := steady_members hb id rest
    cases e with
    | spread arg span => exact (s.steady_infer id _).bind fun _ => others.bind fun _ => .pure _
    | _ => exact first.bind fun _ => others.bind fun _ => .pure _
termination_by structural es => es

theorem steady_arguments (hb : beyond.Steady) (id : String) :
    (es : List Expr) → Steady (s.arguments beyond id es)
  | [] => .pure _
  | e :: rest => by
    have first := steady_orUndefined (s.steady_within id e.span (steady_form hb id e))
    have others := steady_arguments hb id rest
    cases e with
    | spread arg span => exact (s.steady_infer id _).bind fun _ => others.bind fun _ => .pure _
    | function params body span =>
      cases params with
      | nil => exact first.bind fun _ => others.bind fun _ => .pure _
      | cons param params => exact others.bind fun _ => .pure _
    | _ => exact first.bind fun _ => others.bind fun _ => .pure _
termination_by structural es => es

theorem steady_draft (hb : beyond.Steady) (id : String) :
    (ps : List Property) → (d : Draft) → Steady (s.draft beyond id ps d)
  | [], _ => .pure _
  | .keyed key value doc span :: rest, d => by
    have hvalue := s.steady_within id value.span (steady_form hb id value)
    have others := steady_draft hb id rest
    rw [draft]
    split
    · exact .throw _
    · exact (steady_writeKeyed d _ doc hvalue).bind others
  | .shorthand name _ span :: rest, d =>
    (s.steady_within id span (s.steady_name hb id name span)).bind fun schema =>
      (s.steady_spreadInto hb id d span schema).bind fun d => steady_draft hb id rest d
  | .spread arg _ _ :: rest, d =>
    (s.steady_within id arg.span (steady_form hb id arg)).bind fun schema =>
      (s.steady_spreadInto hb id d arg.span schema).bind fun d => steady_draft hb id rest d
  | .method .. :: _, _ => .throw _
termination_by structural ps => ps

end

/-! ### Evaluation as a whole -/

theorem steady_expandWith (hb : beyond.Steady) (name : String) (origin : Origin) :
    Steady (s.expandWith beyond name origin) := by
  cases origin with
  | package package => exact (s.steady_external package name).bind fun _ => .pure _
  | source id =>
    refine (steady_ofExcept _).bind fun resolved => ?_
    cases resolved with
    | definition d => exact (hb.evaluate _ _).bind fun _ => .pure _
    | external package name => exact (s.steady_external package name).bind fun _ => .pure _
    | whole origin => exact .throw _

theorem steady_derefWith (hb : beyond.Steady) (schema : Schema) :
    Steady (s.derefWith beyond schema) := by
  cases schema with
  | reference name origin notes =>
    have inner := (s.steady_expandWith hb name origin).bind fun found => hb.deref found.1
    exact (inner.guarded (name, origin)).bind fun _ => .pure _
  | _ => exact .pure _

theorem steady_beyond (n : ℕ) : (s.beyond n).Steady := by
  induction n with
  | zero => exact ⟨fun _ _ => .throw _, fun _ => .throw _⟩
  | succ n ih =>
    exact ⟨fun e id => s.steady_within id e.span (s.steady_form ih id e), s.steady_derefWith ih⟩

theorem steady_evaluate (e : Expr) (id : String) : Steady (s.evaluate e id) :=
  (s.steady_beyond _).evaluate e id

theorem steady_expand (name : String) (origin : Origin) : Steady (s.expand name origin) :=
  (s.steady_expandWith (s.steady_beyond _) name origin).guarded (name, origin)

theorem steady_deref (schema : Schema) : Steady (s.deref schema) := (s.steady_beyond _).deref schema

/-! ### Routes and components -/

theorem steady_derefDocumented (schema : Schema) : Steady (s.derefDocumented schema) := by
  cases schema with
  | reference name origin notes =>
    exact (s.steady_expand name origin).bind fun found =>
      (s.steady_deref found.1).bind fun _ => .pure _
  | _ => exact .pure _

theorem steady_textProperty (properties : Table String Schema) (key : String) :
    Steady (Route.textProperty properties key) := by
  unfold Route.textProperty
  split
  · exact .pure _
  · exact .throw _

theorem steady_parameters (parts : Table String Schema) (part : String × ParameterPlace) :
    Steady (s.parameters parts part) := by
  unfold parameters
  split
  · exact .pure _
  · refine (s.steady_deref _).bind fun found => ?_
    split
    · exact .pure _
    · exact .throw _

theorem steady_request (properties : Table String Schema) : Steady (s.request properties) := by
  unfold request
  split
  · exact .pure _
  · refine (s.steady_deref _).bind fun found => ?_
    split
    · exact (Steady.mapM (s.steady_parameters _) _).bind fun _ => .pure _
    · exact .throw _

theorem steady_responses (properties : Table String Schema) : Steady (s.responses properties) := by
  unfold responses
  split
  · exact .pure _
  · refine (s.steady_deref _).bind fun found => ?_
    split
    · exact .pure _
    · exact .throw _

theorem steady_operation? (key : String) (route : Schema) : Steady (s.operation? key route) := by
  refine (s.steady_derefDocumented route).bind fun found => Steady.ite (.pure _) ?_
  dsimp only
  split
  · exact (steady_textProperty _ _).bind fun _ => (steady_textProperty _ _).bind fun _ =>
      (s.steady_request _).bind fun _ => (s.steady_responses _).bind fun _ => .pure _
  · exact .throw _

theorem steady_entryRoutes (key : String) (entry : Schema) :
    Session.Steady (s.entryRoutes key entry) := by
  refine Session.Steady.bind (s.steady_deref entry) fun outcome => ?_
  split
  · exact .pure _
  · refine Session.Steady.mapM (fun method => ?_) _
    obtain ⟨name, route⟩ := method
    exact Session.Steady.bind (s.steady_operation? key route) fun _ => .pure _
  · exact .pure _

theorem steady_routes (spec : Schema) : Steady (s.routes spec) := by
  refine (s.steady_deref spec).bind fun found => ?_
  split
  · refine (Steady.mapM (fun entry => ?_) _).bind fun _ => .pure _
    obtain ⟨key, entry⟩ := entry
    exact .lift (s.steady_entryRoutes key entry)
  · exact .throw _

theorem steady_specRoutes (d : Definition) : Session.Steady (s.specRoutes d) := by
  have inner := (s.steady_evaluate d.init d.moduleId).bind s.steady_routes
  refine Session.Steady.bind inner fun outcome => ?_
  cases outcome with
  | ok routes => exact .pure _
  | error e => exact .pure _

theorem steady_component (target : Target) : Steady (s.component target) :=
  (s.steady_expand target.1 target.2).bind fun _ => .pure _

end Setting

end CodecDocs
