import CodecDocs.Proofs.Evaluation.Chain
import CodecDocs.Proofs.Project.Derivation
import CodecDocs.Proofs.Worklist

/-! Other names for combinators. A definition may equal a name, which is that of a definition in
turn, and so on up to a combinator. Names are only seen through within a number of steps: a chain
that is longer is a reference to its first definition, and one more name is seen through with each
reference that is expanded. What a name stands for in the end does not depend on the number. -/

namespace CodecDocs

open Eval
open Script (Expr)

/-! ### Combinators without arguments -/

namespace Rule

/-- Without arguments a combinator gives the schema, whatever references stand for. -/
def Gives (rule : Rule) (schema : Schema) : Prop :=
  ∀ (deref : Schema → Eval Schema) (session : Session),
    rule.apply deref [] session = (.ok schema, session)

/-- What is fixed and a function of a host may need no argument, and neither asks what references
stand for. -/
theorem gives_of_apply_nil {deref : Schema → Eval Schema} {rule : Rule} {session : Session}
    {schema : Schema} (h : (rule.apply deref [] session).1 = .ok schema) : rule.Gives schema := by
  cases rule with
  | fixed found =>
    cases h
    exact fun _ _ => rfl
  | host build =>
    intro deref' session'
    rw [apply] at h ⊢
    cases hbuild : build [] with
    | ok found =>
      rw [hbuild] at h
      cases h
      rfl
    | error fault =>
      rw [hbuild] at h
      cases h
  | _ => cases h

end Rule

/-! ### What is seen of a definition -/

namespace Referent

/-- Whether each other name of a referent stands for it. -/
def isOpen : Referent → Bool
  | .combinator _ | .whole _ => true
  | .definition _ | .external .. => false

theorem showsThrough_of_isOpen {r : Referent} (h : r.isOpen = true) (name : String) :
    r.showsThrough name = true := by
  cases r with
  | combinator | whole => rfl
  | definition | external => cases h

/-- What a definition refers to, when the search for what it equals has this outcome. -/
def seenAs (d : Definition) : Except Fault Referent → Referent
  | .ok r => if r.showsThrough d.name then r else .definition d
  | .error _ => .definition d

/-- A search that stops on the way: it finds nothing or a definition. -/
def StopsShort (outcome : Except Fault Referent) : Prop :=
  ∀ r, outcome = .ok r → ∃ d, r = .definition d

variable {d : Definition} {r : Referent} {outcome : Except Fault Referent}

theorem stopsShort_error (e : Fault) : StopsShort (.error e) := nofun

theorem stopsShort_definition (d : Definition) : StopsShort (.ok (.definition d)) :=
  fun _ h => ⟨d, (Except.ok.inj h).symm⟩

theorem seenAs_of_isOpen (h : r.isOpen = true) (d : Definition) : seenAs d (.ok r) = r :=
  if_pos (showsThrough_of_isOpen h d.name)

theorem eq_ok_of_seenAs (hr : r.isOpen = true) (h : seenAs d outcome = r) : outcome = .ok r := by
  cases outcome with
  | error e =>
    subst h
    cases hr
  | ok found =>
    rw [seenAs] at h
    split_ifs at h
    · rw [h]
    · subst h
      cases hr

theorem exists_seenAs_of_stopsShort (h : StopsShort outcome) (d : Definition) :
    ∃ d', seenAs d outcome = .definition d' := by
  cases outcome with
  | error e => exact ⟨d, rfl⟩
  | ok r =>
    obtain ⟨d', rfl⟩ := h r rfl
    rw [seenAs]
    split_ifs
    · exact ⟨d', rfl⟩
    · exact ⟨d, rfl⟩

/-- Only a default export gives way to another definition. -/
theorem seenAs_of_stopsShort (h : StopsShort outcome) (hd : d.name ≠ "default") :
    seenAs d outcome = .definition d := by
  cases outcome with
  | error e => rfl
  | ok r =>
    obtain ⟨d', rfl⟩ := h r rfl
    exact if_neg (by simpa [showsThrough] using hd)

end Referent

namespace Setting

open Referent

variable {s : Setting}

theorem classify_definition_eq (s : Setting) (steps : ℕ) (d : Definition) :
    s.classify (s.referentWithin steps) (.definition d) =
      seenAs d (s.referentWithin steps d.init d.moduleId) := by
  obtain ⟨name, id, init, doc⟩ := d
  cases init with
  | ident | member => rfl
  | _ => cases steps <;> rfl

/-! ### Fewer steps -/

theorem map_classify_of_fewer {k m : ℕ} {r : Referent} (hr : r.isOpen = true)
    (hfewer : ∀ {e id}, s.referentWithin m e id = .ok r →
      s.referentWithin k e id = .ok r ∨ StopsShort (s.referentWithin k e id))
    {outcome : Except Fault Resolved}
    (h : outcome.map (s.classify (s.referentWithin m)) = .ok r) :
    outcome.map (s.classify (s.referentWithin k)) = .ok r ∨
      StopsShort (outcome.map (s.classify (s.referentWithin k))) := by
  cases outcome with
  | error e => cases h
  | ok resolved =>
    have h : s.classify (s.referentWithin m) resolved = r := Except.ok.inj h
    cases resolved with
    | external | whole => exact .inl (congrArg _ h)
    | definition d =>
      rw [classify_definition_eq] at h
      rw [Except.map, classify_definition_eq]
      rcases hfewer (eq_ok_of_seenAs hr h) with hfound | hshort
      · rw [hfound, seenAs_of_isOpen hr]
        exact .inl rfl
      · obtain ⟨d', hd'⟩ := exists_seenAs_of_stopsShort hshort d
        rw [hd']
        exact .inr (stopsShort_definition d')

/-- Within fewer steps a combinator or a namespace is found as well, or the search stops on the way
to it. -/
theorem referentWithin_of_le {k m : ℕ} (hkm : k ≤ m) {r : Referent} (hr : r.isOpen = true)
    {e : Expr} {id : String} (h : s.referentWithin m e id = .ok r) :
    s.referentWithin k e id = .ok r ∨ StopsShort (s.referentWithin k e id) := by
  induction k generalizing m e id r with
  | zero => exact .inr (stopsShort_error _)
  | succ k ih =>
    obtain ⟨m, rfl⟩ : ∃ n, m = n + 1 := ⟨m - 1, by omega⟩
    have hle : k ≤ m := by omega
    cases e with
    | ident name span => exact map_classify_of_fewer hr (ih hle hr) h
    | member object property span =>
      rw [referentWithin] at h
      cases ho : s.referentWithin m object id with
      | error e => simp [ho] at h
      | ok found =>
        cases found with
        | whole origin =>
          -- the object is a namespace, which is found alike or not at all
          rcases ih hle rfl ho with hfound | hshort
          · rw [referentWithin, hfound]
            rw [ho] at h
            cases origin with
            | source target => exact map_classify_of_fewer hr (ih hle hr) h
            | package package => exact .inl h
          · refine .inr ?_
            rw [referentWithin]
            cases hk : s.referentWithin k object id with
            | error e => exact stopsShort_error e
            | ok found =>
              obtain ⟨d, rfl⟩ := hshort found hk
              exact stopsShort_error _
        | combinator | definition | external => simp [ho] at h
    | _ => cases h

/-! ### Names that refer to something -/

theorem isGlobal_of_resolve {name id : String} {resolved : Resolved}
    (h : s.project.resolve name id = .ok resolved) : s.isGlobal name id = false := by
  rw [isGlobal, h]

theorem exists_resolved_of_ident {steps : ℕ} {name id : String} {span : Span} {r : Referent}
    (h : s.referentWithin steps (.ident name span) id = .ok r) :
    ∃ resolved, s.project.resolve name id = .ok resolved := by
  cases steps with
  | zero => cases h
  | succ steps =>
    rw [referentWithin] at h
    cases hr : s.project.resolve name id with
    | error e =>
      rw [hr] at h
      cases h
    | ok resolved => exact ⟨resolved, rfl⟩

/-- What refers to something is not the global symbol. -/
theorem not_isSymbol_of_referentWithin {steps : ℕ} {e : Expr} {id : String} {r : Referent}
    (h : s.referentWithin steps e id = .ok r) : s.isSymbol id e = false := by
  induction steps generalizing e r with
  | zero => cases h
  | succ steps ih =>
    cases e with
    | ident name span =>
      obtain ⟨resolved, hr⟩ := exists_resolved_of_ident h
      rw [isSymbol, isGlobal_of_resolve hr, Bool.and_false]
    | member object property span =>
      rw [referentWithin] at h
      cases ho : s.referentWithin steps object id with
      | error e => simp [ho] at h
      | ok found => exact (ih ho : s.isSymbol id object = false)
    | _ => rfl

/-- An expression that refers to something is evaluated as a name. -/
theorem form_of_referent {e : Expr} {id : String} {r : Referent} (h : s.referent e id = .ok r)
    (b : Beyond) : s.form b id e = s.reference b id e := by
  cases e with
  | ident name span =>
    obtain ⟨resolved, hr⟩ := exists_resolved_of_ident h
    rw [form, Setting.name, isGlobal_of_resolve hr, Bool.and_false]
    rfl
  | member => rfl
  | _ => cases h

theorem within_ok {α : Type} {act : Eval α} {session after : Session} {a : α}
    (h : act session = (.ok a, after)) (id : String) (span : Span) :
    s.within id span act session = (.ok a, after) := by
  rw [within, h]

/-- A name of a definition is a reference to it. -/
theorem evaluate_of_definition {e : Expr} {id : String} {d : Definition}
    (h : s.referent e id = .ok (.definition d)) (n : ℕ) (session : Session) :
    (s.beyond (n + 1)).evaluate e id session =
      (.ok (Schema.refer d.name (.source d.moduleId)), session) := by
  refine within_ok ?_ id e.span
  rw [form_of_referent h, reference, not_isSymbol_of_referentWithin h, if_neg Bool.false_ne_true, h]
  rfl

/-- A name of a combinator that needs no argument stands for the schema of that. -/
theorem evaluate_of_gives {e : Expr} {id : String} {c : Combinator}
    (h : s.referent e id = .ok (.combinator c)) {schema : Schema} (hc : c.rule.Gives schema)
    (n : ℕ) (session : Session) :
    (s.beyond (n + 1)).evaluate e id session = (.ok schema, session) := by
  refine within_ok ?_ id e.span
  rw [form_of_referent h, reference, not_isSymbol_of_referentWithin h, if_neg Bool.false_ne_true, h]
  exact hc (s.beyond n).deref session

end Setting

namespace Setting

open Referent

variable {s : Setting} {c : Combinator} {d : Definition} {rest : List Definition}

/-! ### Chains of names -/

/-- Definitions each of which is another name for the next one, and the last one for a combinator;
none of them is a default export. -/
inductive NameChain (s : Setting) (c : Combinator) : List Definition → Prop where
  | last {d : Definition} (named : d.name ≠ "default")
    (denotes : s.referent d.init d.moduleId = .ok (.combinator c)) : NameChain s c [d]
  | link {d next : Definition} {rest : List Definition} {name : String} {span : Span}
    (named : d.name ≠ "default") (init : d.init = .ident name span)
    (resolves : s.project.resolve name d.moduleId = .ok (.definition next))
    (more : NameChain s c (next :: rest)) : NameChain s c (d :: next :: rest)

/-- The first name of a chain is seen as the combinator at its end, which takes more steps than the
chain has links, or as itself. -/
theorem NameChain.classify (h : s.NameChain c (d :: rest)) {steps : ℕ}
    (hsteps : steps ≤ aliasDepth + 1) :
    (s.classify (s.referentWithin steps) (.definition d) = .combinator c ∧ rest.length < steps) ∨
      s.classify (s.referentWithin steps) (.definition d) = .definition d := by
  rw [classify_definition_eq]
  induction rest generalizing d steps with
  | nil =>
    cases h with
    | last named denotes =>
      cases steps with
      | zero => exact .inr rfl
      | succ steps =>
        rcases referentWithin_of_le hsteps rfl denotes with hfound | hshort
        · rw [hfound]
          exact .inl ⟨rfl, Nat.succ_pos steps⟩
        · exact .inr (seenAs_of_stopsShort hshort named)
  | cons next rest ih =>
    cases h with
    | link named init resolves more =>
      rw [init]
      cases steps with
      | zero => exact .inr rfl
      | succ steps =>
        have hle : steps ≤ aliasDepth + 1 := by omega
        rw [referentWithin, resolves, Except.map, classify_definition_eq]
        rcases ih more hle with ⟨hseen, hlt⟩ | hseen <;> rw [hseen]
        · exact .inl ⟨rfl, Nat.succ_lt_succ hlt⟩
        · exact .inr (seenAs_of_stopsShort (stopsShort_definition next) named)

theorem resolve_referent {name id : String} {span : Span} {d : Definition}
    (h : s.project.resolve name id = .ok (.definition d)) :
    s.referent (.ident name span) id =
      .ok (s.classify (s.referentWithin aliasDepth) (.definition d)) := by
  rw [referent, referentWithin, h, Except.map]

/-- The first name of a chain is evaluated to the schema at its end or to a reference to the first
definition, and to the latter if the chain is longer than names are followed. -/
theorem NameChain.evaluate (h : s.NameChain c (d :: rest)) {schema : Schema}
    (hc : c.rule.Gives schema) {name id : String}
    (hd : s.project.resolve name id = .ok (.definition d)) (span : Span) :
    ∃ found, (found = schema ∨ found = Schema.refer d.name (.source d.moduleId)) ∧
      (aliasDepth ≤ rest.length → found = Schema.refer d.name (.source d.moduleId)) ∧
      ∀ n session, (s.beyond (n + 1)).evaluate (.ident name span) id session =
        (.ok found, session) := by
  have hr : s.referent (.ident name span) id = _ := resolve_referent hd
  rcases h.classify (Nat.le_succ aliasDepth) with ⟨hseen, hlt⟩ | hseen <;> rw [hseen] at hr
  · exact ⟨schema, .inl rfl, fun hlong => absurd hlt hlong.not_gt, evaluate_of_gives hr hc⟩
  · exact ⟨_, .inr rfl, fun _ => rfl, evaluate_of_definition hr⟩

/-! ### References to chains -/

/-- A reference whose name expands to something is dereferenced to what that stands for. -/
theorem deref_of_expandWith (target : Target) {E : List Target} {asked : List Query} {n : ℕ}
    {x y : Schema} {doc : Option DocComment} (ht : target ∉ E)
    (hexpand : s.expandWith (s.beyond n) target.1 target.2 ⟨target :: E, asked⟩ =
      (.ok (x, doc), ⟨target :: E, asked⟩))
    (hderef : (s.beyond n).deref x ⟨target :: E, asked⟩ = (.ok y, ⟨target :: E, asked⟩)) :
    (s.beyond (n + 1)).deref (Schema.refer target.1 target.2) ⟨E, asked⟩ =
      (.ok y, ⟨E, asked⟩) := by
  have hinner : (do (s.beyond n).deref (← s.expandWith (s.beyond n) target.1 target.2).1 :
      Eval Schema) ⟨target :: E, asked⟩ = (.ok y, ⟨target :: E, asked⟩) := by
    rw [bind_of_ok hexpand, hderef]
  change (do
    let found ← Eval.guarded target (do
      (s.beyond n).deref (← s.expandWith (s.beyond n) target.1 target.2).1)
    return found.withNotes (found.notes.under .none) : Eval Schema) ⟨E, asked⟩ = _
  rw [bind_of_ok (guarded_outside ht hinner)]
  exact congrArg (fun x => (Except.ok x, _)) (Schema.withNotes_notes y)

theorem expandWith_of_definition {b : Beyond} {d : Definition} {session after : Session}
    {x : Schema} (hd : s.project.resolve d.name d.moduleId = .ok (.definition d))
    (h : b.evaluate d.init d.moduleId session = (.ok x, after)) :
    s.expandWith b d.name (.source d.moduleId) session =
      (.ok (x, d.doc.bind DocComment.parse), after) := by
  rw [expandWith, hd]
  change (do return (← b.evaluate d.init d.moduleId, d.doc.bind DocComment.parse) :
    Eval (Schema × Option DocComment)) session = _
  rw [bind_of_ok h]
  rfl

/-- A reference to the first definition of a chain stands for the schema at its end. The induction
is on the chain: each reference takes one more name off it, and no name comes again. -/
theorem NameChain.deref (h : s.NameChain c (d :: rest)) {schema : Schema}
    (hc : c.rule.Gives schema) (hs : schema.target? = none)
    (hown : ∀ x ∈ d :: rest, s.project.resolve x.name x.moduleId = .ok (.definition x))
    (hdistinct : ((d :: rest).map Definition.target).Nodup) {E : List Target}
    (hfree : ∀ x ∈ d :: rest, x.target ∉ E) {n : ℕ} (hn : rest.length + 2 ≤ n)
    (asked : List Query) :
    (s.beyond n).deref (Schema.refer d.name (.source d.moduleId)) ⟨E, asked⟩ =
      (.ok schema, ⟨E, asked⟩) := by
  induction rest generalizing d E n with
  | nil =>
    obtain ⟨n, rfl⟩ : ∃ k, n = k + 2 := ⟨n - 2, by omega⟩
    cases h with
    | last named denotes =>
      have hexpand := expandWith_of_definition (hown d List.mem_cons_self)
        (evaluate_of_gives denotes hc n ⟨d.target :: E, asked⟩)
      exact deref_of_expandWith d.target (hfree d List.mem_cons_self) hexpand (deref_self hs n _)
  | cons next rest ih =>
    obtain ⟨n, rfl⟩ : ∃ k, n = k + 2 := ⟨n - 2, by omega⟩
    cases h with
    | @link _ _ _ name span named init resolves more =>
      obtain ⟨found, hfound, -, hevaluate⟩ := more.evaluate hc resolves span
      have hexpand := expandWith_of_definition (hown d List.mem_cons_self)
        (init ▸ hevaluate n ⟨d.target :: E, asked⟩)
      refine deref_of_expandWith d.target (hfree d List.mem_cons_self) hexpand ?_
      rw [List.map_cons, List.nodup_cons] at hdistinct
      rcases hfound with rfl | rfl
      · exact deref_self hs n _
      · refine ih more (fun x hx => hown x (List.mem_cons_of_mem d hx)) hdistinct.2 ?_ ?_
        · intro x hx hxE
          rcases List.mem_cons.mp hxE with he | hxE
          · exact hdistinct.1 (he ▸ List.mem_map_of_mem hx)
          · exact hfree x (List.mem_cons_of_mem d hx) hxE
        · rw [List.length_cons] at hn
          omega

/-- The definitions of a chain are those of the project. -/
theorem NameChain.mem_definitions (h : s.NameChain c (d :: rest))
    (hd : d ∈ s.project.definitions) : ∀ x ∈ d :: rest, x ∈ s.project.definitions := by
  induction rest generalizing d with
  | nil => simpa using hd
  | cons next rest ih =>
    cases h with
    | link named init resolves more =>
      rw [List.forall_mem_cons]
      exact ⟨hd, ih more (Project.mem_definitions_of_resolve resolves)⟩

/-- Let definitions that are not default exports be other names for one another, however many, and
the last of them one for a combinator that needs no argument. Then the name of the first one stands
for the schema of the combinator: it is evaluated to the schema, or to a reference, as it is when
there are more names than are followed, and what comes out is dereferenced to the schema. -/
theorem deref_other_names (hp : s.project.Tidy) (hd : d ∈ s.project.definitions)
    (h : s.NameChain c (d :: rest)) (hdistinct : (d :: rest).Nodup) {schema : Schema}
    (hc : (c.rule.apply s.deref [] .start).1 = .ok schema) (hs : schema.target? = none)
    (span : Span) {session : Session} (hfree : ∀ x ∈ d :: rest, x.target ∉ session.expanding) :
    ∃ found, s.evaluate (.ident d.name span) d.moduleId session = (.ok found, session) ∧
      s.deref found session = (.ok schema, session) ∧
      (found = schema ∨ found = Schema.refer d.name (.source d.moduleId)) ∧
      (aliasDepth ≤ rest.length → found = Schema.refer d.name (.source d.moduleId)) := by
  have hmem := h.mem_definitions hd
  have hown : ∀ x ∈ d :: rest, s.project.resolve x.name x.moduleId = .ok (.definition x) :=
    fun x hx => hp.resolve_definition (hmem x hx)
  have htargets : ((d :: rest).map Definition.target).Nodup := by
    refine hdistinct.map_on fun x hx y hy he => ?_
    -- each definition is what its name means in its module
    obtain ⟨hname, hid⟩ := Prod.mk.inj he
    have hxy := hown x hx
    rw [hname, Origin.source.inj hid, hown y hy] at hxy
    exact (Resolved.definition.inj (Except.ok.inj hxy)).symm
  have hlength : rest.length + 2 ≤ s.depthBound := by
    have hle := (hdistinct.subperm hmem).length_le
    have hbound := s.space_le_depthBound []
    rw [List.length_cons] at hle
    omega
  have hgives := Rule.gives_of_apply_nil hc
  obtain ⟨n, hn⟩ : ∃ k, s.depthBound = k + 1 := ⟨s.depthBound - 1, by omega⟩
  obtain ⟨found, hfound, hlong, hevaluate⟩ :=
    h.evaluate hgives (hown d List.mem_cons_self) span
  refine ⟨found, ?_, ?_, hfound, hlong⟩
  · rw [Setting.evaluate, hn]
    exact hevaluate n session
  · rcases hfound with rfl | rfl
    · rw [Setting.deref, hn]
      exact deref_self hs n session
    · exact h.deref hgives hs hown htargets hfree hlength session.asked

end Setting

/-! ### Chains of every length -/

/-- A name for the member `string` of a namespace, and other names for the one before. -/
def numberedName : ℕ → Definition
  | 0 =>
    ⟨"Name" ++ "_" ++ toString 2, "names.ts", .member (.ident "t" default) "string" default, none⟩
  | i + 1 =>
    ⟨"Name" ++ "_" ++ toString (i + 3), "names.ts", .ident (numberedName i).name default, none⟩

/-- The names up to a number, the last one first. -/
def numberedNames : ℕ → List Definition
  | 0 => [numberedName 0]
  | n + 1 => numberedName (n + 1) :: numberedNames n

/-- The declaration of a definition that is not exported. -/
def Definition.declaration (d : Definition) : Script.Declaration :=
  ⟨d.name, some d.init, false, d.doc, default⟩

/-- The items of a module that imports the namespace and defines the names up to a number. -/
def namesItems (n : ℕ) : List Script.Item :=
  .imports "io-ts" [.star "t"] :: (numberedNames n).map fun d => .declares d.declaration

def namesModule (n : ℕ) : SourceModule := .build ["names.ts"] "names.ts" "" (namesItems n)

def namesSetting (n : ℕ) : Setting := ⟨.assemble [("names.ts", "", namesItems n)], .builtin, none⟩

theorem numberedName_name (i : ℕ) :
    (numberedName i).name = "Name" ++ "_" ++ toString (i + 2) := by cases i <;> rfl

theorem numberedName_moduleId (i : ℕ) : (numberedName i).moduleId = "names.ts" := by
  cases i <;> rfl

theorem numberedName_injective : Function.Injective fun i => (numberedName i).name := by
  simp only [numberedName_name]
  exact Worklist.numbered_injective "Name"

/-- Words that begin with another letter are not among the names. -/
theorem numberedName_ne (i : ℕ) {word : String} (h : word.toList.head? ≠ some 'N') :
    (numberedName i).name ≠ word := by
  rintro rfl
  rw [numberedName_name, String.toList_append, List.head?_append] at h
  exact h rfl

theorem mem_numberedNames {n : ℕ} {d : Definition} :
    d ∈ numberedNames n ↔ ∃ i ≤ n, numberedName i = d := by
  induction n with
  | zero => simp [numberedNames, eq_comm]
  | succ n ih =>
    rw [numberedNames, List.mem_cons, ih]
    constructor
    · rintro (rfl | ⟨i, hi, rfl⟩)
      · exact ⟨n + 1, le_rfl, rfl⟩
      · exact ⟨i, by omega, rfl⟩
    · rintro ⟨i, hi, rfl⟩
      rcases Nat.lt_or_eq_of_le hi with hlt | rfl
      · exact .inr ⟨i, by omega, rfl⟩
      · exact .inl rfl

theorem exists_numberedNames_eq (n : ℕ) : ∃ rest, numberedNames n = numberedName n :: rest ∧
    rest.length = n := by
  cases n with
  | zero => exact ⟨[], rfl, rfl⟩
  | succ n =>
    refine ⟨numberedNames n, rfl, ?_⟩
    induction n with
    | zero => rfl
    | succ n ih => rw [numberedNames, List.length_cons, ih]

theorem nodup_numberedNames (n : ℕ) : ((numberedNames n).map Definition.name).Nodup := by
  induction n with
  | zero => simp [numberedNames]
  | succ n ih =>
    refine List.nodup_cons.mpr ⟨fun h => ?_, ih⟩
    obtain ⟨d, hd, hname⟩ := List.mem_map.mp h
    obtain ⟨i, hi, rfl⟩ := mem_numberedNames.mp hd
    have : i = n + 1 := numberedName_injective hname
    omega

theorem module?_namesSetting (n : ℕ) :
    (namesSetting n).project.module? "names.ts" = some (namesModule n) := by
  simp [namesSetting, Project.assemble, Project.module?, Table.ofList, Table.extend, Table.insert,
    Table.get?, namesModule]

theorem distinct_declarations (n : ℕ) :
    Table.Distinct ((numberedNames n).map fun d => (d.name, d.declaration)) := by
  rw [Table.Distinct, Table.keys, List.map_map]
  exact nodup_numberedNames n

theorem declarations_namesModule (n : ℕ) : (namesModule n).declarations =
    (numberedNames n).map fun d => (d.name, d.declaration) := by
  have hentries : (namesItems n).flatMap Script.Item.declared =
      (numberedNames n).map fun d => (d.name, d.declaration) := by
    rw [namesItems, List.flatMap_cons, List.flatMap_map, List.map_eq_flatMap]
    rfl
  rw [namesModule, SourceModule.build, Project.foldl_enter, hentries]
  exact Table.extend_of_disjoint (distinct_declarations n) (List.disjoint_nil_left _)

theorem imports_namesModule (n : ℕ) :
    (namesModule n).imports = [("t", ⟨.toPackage "io-ts", .star⟩)] := by
  have hentries : ∀ link, (namesItems n).flatMap (Script.Item.imported link) =
      [("t", ⟨link "io-ts", .star⟩)] := by
    simp [namesItems, List.flatMap_map, Script.Item.imported]
  rw [namesModule, SourceModule.build, Project.foldl_enter, hentries]
  rfl

theorem resolve_namespace (n : ℕ) :
    (namesSetting n).project.resolve "t" "names.ts" = .ok (.whole (.package "io-ts")) := by
  have hundeclared : (namesModule n).declarations.get? "t" = none := by
    rw [declarations_namesModule, Table.get?_eq_none]
    simp only [Table.keys, List.map_map, List.mem_map, Function.comp_apply]
    rintro ⟨d, hd, hname⟩
    obtain ⟨i, -, rfl⟩ := mem_numberedNames.mp hd
    exact numberedName_ne i (by decide) hname
  have himported : (namesModule n).imports.get? "t" = some ⟨.toPackage "io-ts", .star⟩ := by
    rw [imports_namesModule]
    rfl
  rw [Project.resolve, Project.stepBound,
    Project.nameWithin_answer _ (module?_namesSetting n) hundeclared himported rfl]
  rfl

theorem mem_definitions_namesSetting {n i : ℕ} (hi : i ≤ n) :
    numberedName i ∈ (namesSetting n).project.definitions := by
  have hentry : (namesModule n).declarations.get? (numberedName i).name =
      some (numberedName i).declaration := by
    rw [declarations_namesModule]
    refine Table.get?_of_mem (distinct_declarations n) (List.mem_map.mpr ?_)
    exact ⟨numberedName i, mem_numberedNames.mpr ⟨i, hi, rfl⟩, rfl⟩
  have hid : (namesModule n).id = (numberedName i).moduleId := by
    rw [numberedName_moduleId]
    exact (Project.build_tidy _ "names.ts" "" (namesItems n)).1
  exact Project.mem_definitions (module?_namesSetting n) hentry (by
    rw [SourceModule.definition, hid]
    rfl)

/-- The combinator at the end of the names. -/
def stringCodec : Combinator := ⟨"io-ts", "string", .fixed (Schema.ofPrimitive .string)⟩

theorem referent_namespace_member (n : ℕ) :
    (namesSetting n).referent (.member (.ident "t" default) "string" default) "names.ts" =
      .ok (.combinator stringCodec) := by
  have hstring : (namesSetting n).registry.resolve? "io-ts" "string" = some stringCodec := rfl
  rw [Setting.referent, Setting.aliasDepth, Setting.referentWithin, Setting.referentWithin,
    resolve_namespace]
  simp only [Except.map, Setting.classify, hstring]

theorem nameChain_numberedNames {n i : ℕ} (hi : i ≤ n) :
    (namesSetting n).NameChain stringCodec (numberedNames i) := by
  induction i with
  | zero => exact .last (numberedName_ne 0 (by decide)) (referent_namespace_member n)
  | succ i ih =>
    obtain ⟨rest, hrest, -⟩ := exists_numberedNames_eq i
    have hown : (namesSetting n).project.resolve (numberedName i).name "names.ts" =
        .ok (.definition (numberedName i)) := by
      have := (Project.tidy_assemble _).resolve_definition
        (mem_definitions_namesSetting (Nat.le_of_succ_le hi))
      rwa [numberedName_moduleId] at this
    have hmore := ih (Nat.le_of_succ_le hi)
    rw [hrest] at hmore
    rw [numberedNames, hrest]
    exact .link (numberedName_ne (i + 1) (by decide)) rfl hown hmore

/-- A hundred other names are more than are followed, and one is not. The name of the last one is
evaluated to a reference in the first case and to the schema in the second, and in both it stands
for the schema. -/
theorem Setting.deref_other_names_numbered :
    (namesSetting 100).NameChain stringCodec (numberedNames 100) ∧
      (numberedNames 100).Nodup ∧ aliasDepth ≤ (numberedNames 100).tail.length ∧
      (namesSetting 100).evaluate (.ident (numberedName 100).name default) "names.ts" .start =
        (.ok (Schema.refer (numberedName 100).name (.source "names.ts")), .start) ∧
      (namesSetting 100).deref (Schema.refer (numberedName 100).name (.source "names.ts")) .start =
        (.ok (Schema.ofPrimitive .string), .start) ∧
      (namesSetting 1).evaluate (.ident (numberedName 1).name default) "names.ts" .start =
        (.ok (Schema.ofPrimitive .string), .start) := by
  obtain ⟨rest, hrest, hlength⟩ := exists_numberedNames_eq 100
  have hchain := nameChain_numberedNames (le_refl 100)
  have hnodup : (numberedNames 100).Nodup := (nodup_numberedNames 100).of_map _
  have hlong : aliasDepth ≤ rest.length := by
    rw [hlength]
    decide
  have hresult : (stringCodec.rule.apply (namesSetting 100).deref [] .start).1 =
      .ok (Schema.ofPrimitive .string) := rfl
  refine ⟨hchain, hnodup, by rwa [hrest], ?_⟩
  rw [hrest] at hchain hnodup
  have hfree : ∀ x ∈ numberedName 100 :: rest, x.target ∉ Session.start.expanding :=
    fun _ _ => List.not_mem_nil
  obtain ⟨found, hevaluate, hderef, -, hreference⟩ :=
    deref_other_names (Project.tidy_assemble _) (mem_definitions_namesSetting (le_refl 100)) hchain
      hnodup hresult rfl default hfree
  rw [hreference hlong, numberedName_moduleId] at hevaluate hderef
  exact ⟨hevaluate, hderef, rfl⟩

end CodecDocs
