import CodecDocs.Proofs.Evaluation.Referent

/-! Evaluated schemas are well formed. Objects require names that they have, intersections have
members, and a reference is to a definition under its own name in its own module, or to an export of
a package that is no combinator. That holds of all that evaluation, expansion and dereferencing give
in a project of source texts, whatever a configuration adds to the combinators. -/

namespace CodecDocs

open Eval

namespace Setting

/-- What a schema of a setting may refer to. -/
def Resolvable (s : Setting) : Target → Prop
  | (name, .source id) => ∃ d, s.project.resolve name id = .ok (.definition d) ∧
      d.name = name ∧ d.moduleId = id
  | (name, .package package) => s.registry.resolve? package name = none

/-- At every depth the required names are those of properties, references are to what may be
referred to, and no intersection is empty. -/
def WellFormed (s : Setting) (schema : Schema) : Prop := schema.Sound s.Resolvable

variable {s : Setting}

/-- In a tidy project evaluation comes only to names that may be referred to. -/
theorem legible_resolvable (hp : s.project.Tidy) (hr : s.registry.Plain) (ho : s.oracle = none) :
    s.Legible True s.Resolvable :=
  legible ho hr (fun d hd => ⟨d, hp.resolve_definition hd, rfl, rfl⟩) (fun _ _ h => h)
    (.inl trivial)

/-- Within any bound evaluation and dereferencing give sound schemas. The bound is the induction:
what lies beyond an expression has a smaller one. -/
theorem agree_beyond {P : Target → Prop} (hs : s.Legible True P) (n : ℕ) :
    (∀ E e id, Agree E True (Schema.Sound P) ((s.beyond n).evaluate e id)
      ((s.beyond n).evaluate e id)) ∧
    ∀ E x, Agree E True (fun y => x.Sound P → y.Sound P) ((s.beyond n).deref x)
      ((s.beyond n).deref x) := by
  induction n with
  | zero => exact ⟨fun _ _ _ => .throw fun _ => trivial, fun _ _ => .throw fun _ => trivial⟩
  | succ n ih =>
    have hderef : ∀ E x, x.Sound P →
        Agree E True (Schema.Sound P) ((s.beyond n).deref x) ((s.beyond n).deref x) :=
      fun E x hx => (ih.2 E x).mono fun _ hy => hy hx
    constructor
    · intro E e id
      exact s.agree_within id e.span (agree_form hs (hderef E) e fun _ _ d body _ _ =>
        ih.1 E body d.moduleId)
    · intro E x
      exact agree_derefWith hs x fun _ _ _ _ _ =>
        ⟨fun _ d _ _ => ih.1 _ d.init d.moduleId, fun y hy _ => hderef _ y hy⟩

theorem agree_expand {P : Target → Prop} (hs : s.Legible True P) (E : List Target) (name : String)
    (origin : Origin) : Agree E True (fun found => found.1.Sound P) (s.expand name origin)
      (s.expand name origin) := by
  obtain ⟨hevaluate, hderef⟩ := agree_beyond hs s.depthBound
  exact NameAgrees.expand hs fun _ => ⟨fun _ d _ _ => hevaluate _ d.init d.moduleId,
    fun y hy _ => (hderef _ y).mono fun _ h => h hy⟩

end Setting

/-- The result of an evaluation that agrees with itself. -/
theorem Eval.Agree.result {α : Type} {lax : Prop} {post : α → Prop} {act act' : Eval α}
    {session : Session} (h : Agree session.expanding lax post act act') {a : α}
    (ha : (act session).1 = .ok a) : post a := by
  obtain ⟨outcome, more, heq, -, hpost, -⟩ := h session.asked
  exact hpost a (by rw [← ha, heq])

theorem Project.tidy_ofSources {sources : List (String × String)} {p : Project}
    (h : Project.ofSources sources = .ok p) : p.Tidy := by
  have hassembled : ∀ parsed : Except LoadError (List ParsedModule),
      (do return Project.assemble (← parsed)) = Except.ok p → p.Tidy := by
    intro parsed hp
    cases parsed with
    | error e => cases hp
    | ok parsed =>
      cases hp
      exact tidy_assemble parsed
  exact hassembled _ h

namespace Setting

variable {s : Setting}

/-- What comes out of evaluation, expansion and dereferencing is well formed. -/
theorem wellFormed_of_ok {sources : List (String × String)}
    (hp : Project.ofSources sources = .ok s.project) (hr : s.registry.Standard)
    (ho : s.oracle = none) (session : Session) :
    (∀ e id schema, (s.evaluate e id session).1 = .ok schema → s.WellFormed schema) ∧
    (∀ name origin found, (s.expand name origin session).1 = .ok found → s.WellFormed found.1) ∧
    ∀ given schema, s.WellFormed given → (s.deref given session).1 = .ok schema →
      s.WellFormed schema := by
  have hs := legible_resolvable (Project.tidy_ofSources hp) hr.plain ho
  obtain ⟨hevaluate, hderef⟩ := agree_beyond hs s.depthBound
  refine ⟨fun e id schema h => ?_, fun name origin found h => ?_, fun given schema hg h => ?_⟩
  · exact (hevaluate _ e id).result h
  · exact (agree_expand hs _ name origin).result h
  · exact (hderef _ given).result h hg

end Setting

/-- A recursive codec with a spread from another module and a reference to a package. -/
def userSources : List (String × String) :=
  [("users.ts", "import * as t from 'io-ts'; import { Id } from 'ids'; " ++
      "import { base } from './base'; " ++
      "export const User = t.type({ ...base, id: Id, friends: t.array(User) })"),
    ("base.ts", "export const base = { tag: Tag }; export const Tag = 'tag'")]

theorem Setting.wellFormed_of_ok_users :
    ∃ p found, Project.ofSources userSources = .ok p ∧
      ((Setting.mk p .builtin none).expand "User" (.source "users.ts") .start).1 = .ok found ∧
      found.1.references = [("Tag", .source "base.ts"), ("Id", .package "ids"),
        ("User", .source "users.ts")] ∧ (Setting.mk p .builtin none).WellFormed found.1 := by
  have hok : ∀ {ε α : Type} {outcome : Except ε α} {a : α}, outcome.toOption = some a →
      outcome = .ok a := by
    intro ε α outcome a h
    cases outcome with
    | ok a => exact congrArg _ (Option.some.inj h)
    | error e => cases h
  have hrun : ((Project.ofSources userSources).toOption.bind fun p =>
      ((Setting.mk p .builtin none).expand "User" (.source "users.ts") .start).1.toOption.map
        fun found => found.1.references) = some [("Tag", .source "base.ts"),
          ("Id", .package "ids"), ("User", .source "users.ts")] := by decide +kernel
  obtain ⟨p, hp, hrun⟩ := Option.bind_eq_some_iff.mp hrun
  obtain ⟨found, hfound, hr⟩ := Option.map_eq_some_iff.mp hrun
  exact ⟨p, found, hok hp, hok hfound, hr,
    (wellFormed_of_ok (s := ⟨p, .builtin, none⟩) (hok hp) (.inl rfl) rfl .start).2.1 _ _ found
      (hok hfound)⟩

end CodecDocs
