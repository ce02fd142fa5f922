import CodecDocs.Project.Resolve
import CodecDocs.Proofs.Table

/-! One step of resolution. A name or an export is answered by the module where it is looked up, or
the question goes on to one further place; there is an equation for each case, and all later proofs
about resolution go through them. -/

namespace CodecDocs

/-- The answer that a name is unknown. -/
def IsUnknown (answer : Except Fault Resolved) : Prop :=
  ∃ name id place, answer = .error (.unknownIdentifier name id place)

/-! ### Entries -/

/-- The export that an import asks another module for. -/
def ImportEntry.asks? : ImportEntry → Option (String × String)
  | ⟨.toModule target, .named name⟩ => some (target, name)
  | ⟨.toModule target, .default⟩ => some (target, "default")
  | _ => none

/-- The answer of an import that asks no other module. -/
def ImportEntry.answer (m : SourceModule) : ImportEntry → Except Fault Resolved
  | ⟨.toModule target, _⟩ => .ok (.whole (.source target))
  | ⟨.toPackage package, .named name⟩ => .ok (.external package name)
  | ⟨.toPackage package, .default⟩ => .ok (.external package "default")
  | ⟨.toPackage package, .star⟩ => .ok (.whole (.package package))
  | ⟨.missing specifier, _⟩ => .error (.unresolvedImport specifier m.id none)

/-- The answer of an export that asks neither its own nor another module. -/
def ExportEntry.answer? (m : SourceModule) : ExportEntry → Option (Except Fault Resolved)
  | .own _ | .again (.toModule _) _ => none
  | .again (.toPackage package) name => some (.ok (.external package name))
  | .again (.missing specifier) _ | .star (.missing specifier) =>
    some (.error (.unresolvedImport specifier m.id none))
  | .star (.toModule target) => some (.ok (.whole (.source target)))
  | .star (.toPackage package) => some (.ok (.whole (.package package)))

theorem ExportEntry.answer?_cases (m : SourceModule) (entry : ExportEntry) :
    (∃ inner, entry = .own inner) ∨ (∃ target other, entry = .again (.toModule target) other) ∨
      ∃ answer, entry.answer? m = some answer := by
  cases entry with
  | own inner => exact .inl ⟨inner, rfl⟩
  | again link other =>
    cases link with
    | toModule target => exact .inr (.inl ⟨target, other, rfl⟩)
    | toPackage package | missing specifier => exact .inr (.inr ⟨_, rfl⟩)
  | star link => cases link <;> exact .inr (.inr ⟨_, rfl⟩)

/-- Such an answer fails only for a link that leads nowhere. -/
theorem ExportEntry.unresolved_of_answer? {m : SourceModule} {entry : ExportEntry} {e : Fault}
    (h : entry.answer? m = some (.error e)) :
    ∃ specifier, e = .unresolvedImport specifier m.id none := by
  cases entry with
  | own inner => cases h
  | again link other | star link =>
    cases link with
    | missing specifier =>
      cases h
      exact ⟨specifier, rfl⟩
    | _ => cases h

namespace Project

variable {p : Project} {id name : String} {m : SourceModule}

theorem find_of_some (h : p.module? id = some m) : p.find id = .ok m := by simp [find, h]

theorem find_of_none (h : p.module? id = none) :
    p.find id = .error (.unresolvedImport id id none) := by simp [find, h]

/-! ### Names -/

/-- The places where a name may find its meaning. -/
inductive NameCase (p : Project) (name id : String) : Prop
  | lost (none : p.module? id = none)
  | declared {m : SourceModule} {d : Script.Declaration} (found : p.module? id = some m)
    (entry : m.declarations.get? name = some d)
  | unknown {m : SourceModule} (found : p.module? id = some m)
    (undeclared : m.declarations.get? name = none) (unimported : m.imports.get? name = none)
  | asks {m : SourceModule} {entry : ImportEntry} {target other : String}
    (found : p.module? id = some m) (undeclared : m.declarations.get? name = none)
    (imported : m.imports.get? name = some entry) (asks : entry.asks? = some (target, other))
  | answer {m : SourceModule} {entry : ImportEntry} (found : p.module? id = some m)
    (undeclared : m.declarations.get? name = none) (imported : m.imports.get? name = some entry)
    (silent : entry.asks? = none)

theorem nameCase (p : Project) (name id : String) : NameCase p name id := by
  cases hm : p.module? id with
  | none => exact .lost hm
  | some m =>
    cases hd : m.declarations.get? name with
    | some d => exact .declared hm hd
    | none =>
      cases hi : m.imports.get? name with
      | none => exact .unknown hm hd hi
      | some entry =>
        cases ha : entry.asks? with
        | none => exact .answer hm hd hi ha
        | some place => exact .asks hm hd hi ha

section Names

variable (steps : ℕ)

theorem nameWithin_lost (h : p.module? id = none) :
    p.nameWithin (steps + 1) name id = .error (.unresolvedImport id id none) := by
  simp [nameWithin, find_of_none h]

theorem nameWithin_declared {d : Script.Declaration} (hm : p.module? id = some m)
    (hd : m.declarations.get? name = some d) :
    p.nameWithin (steps + 1) name id = (m.definition d).map .definition := by
  simp [nameWithin, find_of_some hm, hd]

theorem nameWithin_unknown (hm : p.module? id = some m) (hd : m.declarations.get? name = none)
    (hi : m.imports.get? name = none) :
    p.nameWithin (steps + 1) name id = .error (.unknownIdentifier name id none) := by
  simp [nameWithin, find_of_some hm, hd, hi]

theorem nameWithin_asks {entry : ImportEntry} {target other : String} (hm : p.module? id = some m)
    (hd : m.declarations.get? name = none) (hi : m.imports.get? name = some entry)
    (ha : entry.asks? = some (target, other)) :
    p.nameWithin (steps + 1) name id = (p.exportWithin steps target other []).1 := by
  obtain ⟨link, imported⟩ := entry
  cases link <;> cases imported <;> cases ha <;>
    simp [nameWithin, find_of_some hm, hd, hi]

theorem nameWithin_answer {entry : ImportEntry} (hm : p.module? id = some m)
    (hd : m.declarations.get? name = none) (hi : m.imports.get? name = some entry)
    (ha : entry.asks? = none) : p.nameWithin (steps + 1) name id = entry.answer m := by
  obtain ⟨link, imported⟩ := entry
  cases link <;> cases imported <;> cases ha <;>
    simp [nameWithin, find_of_some hm, hd, hi, ImportEntry.answer]

end Names

/-! ### Exports -/

/-- The places where an export may be found when some modules were entered already. -/
inductive ExportCase (p : Project) (id name : String) (entered : List String) : Prop
  | entered (again : id ∈ entered)
  | lost (new : id ∉ entered) (none : p.module? id = none)
  | own {m : SourceModule} {inner : String} (new : id ∉ entered) (found : p.module? id = some m)
    (entry : m.exports.get? name = some (.own inner))
  | again {m : SourceModule} {target other : String} (new : id ∉ entered)
    (found : p.module? id = some m)
    (entry : m.exports.get? name = some (.again (.toModule target) other))
  | answer {m : SourceModule} {e : ExportEntry} {answer : Except Fault Resolved}
    (new : id ∉ entered) (found : p.module? id = some m) (entry : m.exports.get? name = some e)
    (said : e.answer? m = some answer)
  | default {m : SourceModule} (new : id ∉ entered) (found : p.module? id = some m)
    (absent : m.exports.get? name = none) (named : name = "default")
  | stars {m : SourceModule} (new : id ∉ entered) (found : p.module? id = some m)
    (absent : m.exports.get? name = none) (named : name ≠ "default")

theorem exportCase (p : Project) (id name : String) (entered : List String) :
    ExportCase p id name entered := by
  by_cases hin : id ∈ entered
  · exact .entered hin
  cases hm : p.module? id with
  | none => exact .lost hin hm
  | some m =>
    cases he : m.exports.get? name with
    | some entry =>
      rcases entry.answer?_cases m with ⟨inner, rfl⟩ | ⟨target, other, rfl⟩ | ⟨answer, ha⟩
      · exact .own hin hm he
      · exact .again hin hm he
      · exact .answer hin hm he ha
    | none =>
      by_cases hname : name = "default"
      · exact .default hin hm he hname
      · exact .stars hin hm he hname

section Exports

variable (steps : ℕ) {entered : List String}

theorem exportWithin_entered (h : id ∈ entered) :
    p.exportWithin (steps + 1) id name entered =
      (.error (.unknownIdentifier name id none), entered) := by
  simp [exportWithin, h]

theorem exportWithin_lost (hnew : id ∉ entered) (h : p.module? id = none) :
    p.exportWithin (steps + 1) id name entered =
      (.error (.unresolvedImport id id none), id :: entered) := by
  simp [exportWithin, hnew, find_of_none h]

theorem exportWithin_own {inner : String} (hnew : id ∉ entered) (hm : p.module? id = some m)
    (he : m.exports.get? name = some (.own inner)) :
    p.exportWithin (steps + 1) id name entered = (p.nameWithin steps inner id, id :: entered) := by
  simp [exportWithin, hnew, find_of_some hm, he]

theorem exportWithin_again {target other : String} (hnew : id ∉ entered)
    (hm : p.module? id = some m)
    (he : m.exports.get? name = some (.again (.toModule target) other)) :
    p.exportWithin (steps + 1) id name entered =
      p.exportWithin steps target other (id :: entered) := by
  simp [exportWithin, hnew, find_of_some hm, he]

theorem exportWithin_answer {entry : ExportEntry} {answer : Except Fault Resolved}
    (hnew : id ∉ entered) (hm : p.module? id = some m) (he : m.exports.get? name = some entry)
    (ha : entry.answer? m = some answer) :
    p.exportWithin (steps + 1) id name entered = (answer, id :: entered) := by
  simp only [exportWithin, List.contains_iff_mem, hnew, if_false, find_of_some hm, he]
  cases entry with
  | own inner => cases ha
  | again link other | star link => cases link <;> cases ha <;> rfl

theorem exportWithin_default (hnew : id ∉ entered) (hm : p.module? id = some m)
    (he : m.exports.get? "default" = none) :
    p.exportWithin (steps + 1) id "default" entered =
      (.error (.unknownIdentifier "default" id none), id :: entered) := by
  simp [exportWithin, hnew, find_of_some hm, he]

theorem searchStars_unknown {ask : String → List String → Search} {more : List String}
    {answer : Except Fault Resolved} (h : ask id entered = (answer, more)) (hu : IsUnknown answer)
    (links : List Link) :
    searchStars ask (.toModule id :: links) entered = searchStars ask links more := by
  obtain ⟨x, y, place, rfl⟩ := hu
  rw [searchStars, h]

theorem searchStars_known {ask : String → List String → Search} {more : List String}
    {answer : Except Fault Resolved} (h : ask id entered = (answer, more))
    (hu : ¬ IsUnknown answer) (links : List Link) :
    searchStars ask (.toModule id :: links) entered = (some answer, more) := by
  rw [searchStars, h]
  split
  · next x y place _ heq =>
    cases heq
    exact absurd ⟨x, y, place, rfl⟩ hu
  · next heq =>
    cases heq
    rfl

/-- The answer of a module that takes over all exports of some links, after these were searched. -/
def starAnswer (m : SourceModule) (id name : String) :
    Option (Except Fault Resolved) × List String → Search
  | (some answer, entered) => (answer, entered)
  | (none, entered) =>
    match firstPackage? m.stars with
    | some package => (.ok (.external package name), entered)
    | none => (.error (.unknownIdentifier name id none), entered)

theorem exportWithin_stars (hnew : id ∉ entered) (hm : p.module? id = some m)
    (he : m.exports.get? name = none) (hname : name ≠ "default") :
    p.exportWithin (steps + 1) id name entered =
      starAnswer m id name (searchStars (fun target => p.exportWithin steps target name) m.stars
        (id :: entered)) := by
  simp only [exportWithin, List.contains_iff_mem, hnew, if_false, find_of_some hm, he, hname]
  rfl

end Exports

/-! ### Modules that were entered -/

theorem starAnswer_snd (m : SourceModule) (id name : String)
    (out : Option (Except Fault Resolved) × List String) :
    (starAnswer m id name out).2 = out.2 := by
  obtain ⟨answer, entered⟩ := out
  cases answer with
  | some answer => rfl
  | none =>
    rw [starAnswer]
    split <;> rfl

theorem subset_searchStars {ask : String → List String → Search}
    (h : ∀ id entered, entered ⊆ (ask id entered).2) (links : List Link) (entered : List String) :
    entered ⊆ (searchStars ask links entered).2 := by
  induction links generalizing entered with
  | nil => exact fun _ ht => ht
  | cons link links ih =>
    cases link with
    | toModule id =>
      have hid := h id entered
      cases heq : ask id entered with
      | mk answer more =>
        rw [heq] at hid
        by_cases hu : IsUnknown answer
        · rw [searchStars_unknown heq hu]
          exact List.Subset.trans hid (ih more)
        · rwa [searchStars_known heq hu]
    | toPackage package | missing specifier => exact ih entered

/-- An answer of a search through several modules is that of one of them, which is asked after the
modules that were entered before. -/
theorem exists_of_searchStars {ask : String → List String → Search}
    (h : ∀ id entered, entered ⊆ (ask id entered).2) {links : List Link} {entered : List String}
    {answer : Except Fault Resolved} (ha : (searchStars ask links entered).1 = some answer) :
    ∃ id more, entered ⊆ more ∧ (ask id more).1 = answer := by
  induction links generalizing entered with
  | nil => cases ha
  | cons link links ih =>
    cases link with
    | toModule id =>
      have hid := h id entered
      cases heq : ask id entered with
      | mk found more =>
        rw [heq] at hid
        by_cases hu : IsUnknown found
        · rw [searchStars_unknown heq hu] at ha
          obtain ⟨target, further, hsub, hfound⟩ := ih ha
          exact ⟨target, further, List.Subset.trans hid hsub, hfound⟩
        · rw [searchStars_known heq hu] at ha
          cases ha
          exact ⟨id, entered, List.Subset.refl _, by rw [heq]⟩
    | toPackage package | missing specifier => exact ih ha

/-- A search does not forget the modules that were entered before. -/
theorem subset_exportWithin (p : Project) (steps : ℕ) (id name : String) (entered : List String) :
    entered ⊆ (p.exportWithin steps id name entered).2 := by
  induction steps generalizing id name entered with
  | zero => exact fun _ ht => ht
  | succ steps ih =>
    have hcons : entered ⊆ id :: entered := List.subset_cons_self id entered
    cases exportCase p id name entered with
    | entered again =>
      rw [exportWithin_entered steps again]
      exact fun _ ht => ht
    | lost new none => rwa [exportWithin_lost steps new none]
    | own new found entry => rwa [exportWithin_own steps new found entry]
    | again new found entry =>
      rw [exportWithin_again steps new found entry]
      exact List.Subset.trans hcons (ih _ _ _)
    | answer new found entry said => rwa [exportWithin_answer steps new found entry said]
    | default new found absent named =>
      subst named
      rwa [exportWithin_default steps new found absent]
    | stars new found absent named =>
      rw [exportWithin_stars steps new found absent named, starAnswer_snd]
      exact List.Subset.trans hcons (subset_searchStars (fun target => ih target name) _ _)

end Project

end CodecDocs
