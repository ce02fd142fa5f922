import CodecDocs.Proofs.Evaluation.Agreement
import CodecDocs.Proofs.Project.Bound
import CodecDocs.Proofs.Project.Definitions

/-! What names and members refer to: definitions of the project, combinators of the registry, and
exports of packages that are no combinators. Other names are seen through step by step, and a bound
of resolution that is exhausted on the way would have to be that of a name or an export. -/

namespace CodecDocs.Setting

open Script (Expr)

variable {s : Setting}

/-- A referent that a setting holds. -/
def Holds (s : Setting) : Referent → Prop
  | .combinator c => ∃ package name, s.registry.resolve? package name = some c
  | .definition d => d ∈ s.project.definitions
  | .external package name => s.registry.resolve? package name = none
  | .whole _ => True

theorem classify_definition (follow : Expr → String → Except Fault Referent) (d : Definition) :
    s.classify follow (.definition d) = .definition d ∨
      follow d.init d.moduleId = .ok (s.classify follow (.definition d)) := by
  grind [classify]

/-- What a name resolves to refers to something that the setting holds, if other names do. -/
theorem holds_classify {follow : Expr → String → Except Fault Referent}
    (hf : ∀ {e id r}, follow e id = .ok r → s.Holds r) {resolved : Resolved}
    (hd : ∀ d, resolved = .definition d → d ∈ s.project.definitions) :
    s.Holds (s.classify follow resolved) := by
  cases resolved with
  | definition d =>
    rcases classify_definition (s := s) follow d with hown | hother
    · rw [hown]
      exact hd d rfl
    · exact hf hother
  | external package name =>
    rw [classify]
    split
    · next hc => exact ⟨package, name, hc⟩
    · next hn => exact hn
  | whole origin => exact trivial

/-- What one step towards a referent does: a name or an export is resolved, a package is asked for a
name, or there is a fault. That a bound was too small is said only if an earlier step says so. -/
theorem referentWithin_succ (steps : ℕ) (e : Expr) (id : String) :
    (∃ name, s.referentWithin (steps + 1) e id =
      (s.project.resolve name id).map (s.classify (s.referentWithin steps))) ∨
    (∃ target name, s.referentWithin (steps + 1) e id =
      (s.project.resolveExport target name).map (s.classify (s.referentWithin steps))) ∨
    (∃ package name, s.referentWithin (steps + 1) e id =
      .ok (s.classify (s.referentWithin steps) (.external package name))) ∨
    ∃ fault, s.referentWithin (steps + 1) e id = .error fault ∧
      (fault = .exhausted → ∃ object, s.referentWithin steps object id = .error .exhausted) := by
  cases e with
  | ident name span => exact .inl ⟨name, rfl⟩
  | member object property span =>
    rw [referentWithin]
    cases ho : s.referentWithin steps object id with
    | error fault => exact .inr (.inr (.inr ⟨fault, rfl, fun hf => ⟨object, by rw [ho, hf]⟩⟩))
    | ok r =>
      cases r with
      | whole origin =>
        cases origin with
        | source target => exact .inr (.inl ⟨target, property, rfl⟩)
        | package package => exact .inr (.inr (.inl ⟨package, property, rfl⟩))
      | _ => exact .inr (.inr (.inr ⟨_, rfl, nofun⟩))
  | _ => exact .inr (.inr (.inr ⟨_, rfl, nofun⟩))

theorem holds_of_map_classify {steps : ℕ}
    (ih : ∀ {e id r}, s.referentWithin steps e id = .ok r → s.Holds r)
    {outcome : Except Fault Resolved}
    (hd : ∀ d, outcome = .ok (.definition d) → d ∈ s.project.definitions) {r : Referent}
    (h : outcome.map (s.classify (s.referentWithin steps)) = .ok r) : s.Holds r := by
  cases outcome with
  | error fault => cases h
  | ok resolved =>
    cases h
    exact holds_classify ih fun d hdef => hd d (by rw [hdef])

/-- Whatever an expression refers to is held by the setting. -/
theorem holds_of_referentWithin (steps : ℕ) {e : Expr} {id : String} {r : Referent}
    (h : s.referentWithin steps e id = .ok r) : s.Holds r := by
  induction steps generalizing e id r with
  | zero => cases h
  | succ steps ih =>
    rcases referentWithin_succ steps e id with ⟨name, heq⟩ | ⟨target, name, heq⟩ |
      ⟨package, name, heq⟩ | ⟨fault, heq, -⟩ <;> rw [heq] at h
    · exact holds_of_map_classify ih (fun _ => Project.mem_definitions_of_resolve) h
    · exact holds_of_map_classify ih (fun _ => Project.mem_definitions_of_resolveExport) h
    · cases h
      exact holds_classify ih nofun
    · cases h

theorem ended_map {outcome : Except Fault Resolved} {f : Resolved → Referent}
    (h : Ended outcome) : Ended (outcome.map f) := by
  cases outcome with
  | ok resolved => nofun
  | error fault => exact fun he => h (congrArg _ (Except.error.inj he))

/-- Where resolution ends, so does the search for a referent. -/
theorem ended_referentWithin (hp : s.project.Ends) (steps : ℕ) (e : Expr) (id : String) :
    Ended (s.referentWithin steps e id) := by
  induction steps generalizing e with
  | zero => nofun
  | succ steps ih =>
    rcases referentWithin_succ steps e id with ⟨name, heq⟩ | ⟨target, name, heq⟩ |
      ⟨package, name, heq⟩ | ⟨fault, heq, hfault⟩ <;> rw [heq]
    · exact ended_map (hp.resolve name id)
    · exact ended_map (hp.resolveExport target name)
    · nofun
    · intro he
      obtain ⟨object, ho⟩ := hfault (Except.error.inj he)
      exact ih object ho

/-- Without an oracle and with plain combinators evaluation knows what it needs to know of names. -/
theorem legible {lax : Prop} {P : Target → Prop} (ho : s.oracle = none) (hr : s.registry.Plain)
    (hd : ∀ d ∈ s.project.definitions, P d.target)
    (hx : ∀ package name, s.registry.resolve? package name = none → P (name, .package package))
    (hp : lax ∨ s.project.Ends) : s.Legible lax P where
  oracle := ho
  definition h := hd _ (holds_of_referentWithin _ h)
  external h := hx _ _ (holds_of_referentWithin _ h)
  combinator h := by
    obtain ⟨package, name, hc⟩ := holds_of_referentWithin _ h
    exact hr.resolve? hc
  referent h := hp.resolve_right fun hends => ended_referentWithin hends _ _ _ h
  resolve h := hp.resolve_right fun hends => hends.resolve _ _ h

end CodecDocs.Setting
