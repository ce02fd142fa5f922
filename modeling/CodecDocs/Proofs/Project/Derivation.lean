import CodecDocs.Proofs.Project.Step

/-! What names and exports mean, said by rules about the items of the modules: the last item that
speaks of a name counts, a declaration goes before an import, and all exports of another module are
only taken over where a module does not export the name itself. Every answer of a resolution follows
from these rules, whatever the imports and exports between the modules look like. -/

namespace CodecDocs

/-! ### Entries of items -/

/-- The last of the entries that stand under a key. -/
def LastEntry {α : Type*} (entries : List (String × α)) (key : String) (a : α) : Prop :=
  ∃ before after, entries = before ++ (key, a) :: after ∧ key ∉ after.map Prod.fst

/-- No entry stands under a key. -/
def NoEntry {α : Type*} (entries : List (String × α)) (key : String) : Prop :=
  key ∉ entries.map Prod.fst

namespace Script.Item

def declared : Item → List (String × Declaration)
  | .declares d => [(d.name, d)]
  | _ => []

/-- The names that an item imports; `link` leads from specifiers to modules. -/
def imported (link : String → Link) : Item → List (String × ImportEntry)
  | .imports source bindings => bindings.map fun
    | .default name => (name, ⟨link source, .default⟩)
    | .star name => (name, ⟨link source, .star⟩)
    | .named other name => (name, ⟨link source, .named other⟩)
  | _ => []

/-- The names that an item exports by themselves. -/
def exported (link : String → Link) : Item → List (String × ExportEntry)
  | .declares d => if d.exported then [(d.name, .own d.name)] else []
  | .exports names none => names.map fun n => (n.2, .own n.1)
  | .exports names (some source) => names.map fun n => (n.2, .again (link source) n.1)
  | .exportsAll source (some name) => [(name, .star (link source))]
  | _ => []

/-- The modules all of whose exports an item exports again. -/
def taken (link : String → Link) : Item → List Link
  | .exportsAll source none => [link source]
  | _ => []

end Script.Item

namespace SourceModule

variable (m : SourceModule)

def declaring : List (String × Script.Declaration) := m.items.flatMap Script.Item.declared

def importing (link : String → Link) : List (String × ImportEntry) :=
  m.items.flatMap (Script.Item.imported link)

def exporting (link : String → Link) : List (String × ExportEntry) :=
  m.items.flatMap (Script.Item.exported link)

def taking (link : String → Link) : List Link := m.items.flatMap (Script.Item.taken link)

end SourceModule

/-! ### The rules -/

/-- A name is seen inside a module, or it is what the module exports under that name. -/
inductive View where
  | inside
  | outside
  deriving DecidableEq

namespace Project

/-- What a specifier in a module leads to. -/
def link (p : Project) (id specifier : String) : Link := .ofSpecifier p.moduleIds id specifier

/-- The meaning of a name in a module by finitely many uses of the rules. -/
inductive Derives (p : Project) : View → String → String → Resolved → Prop
  | declared {id name : String} {m : SourceModule} {x : Script.Declaration} {init : Script.Expr}
    (found : p.module? id = some m) (last : LastEntry m.declaring name x)
    (value : x.init = some init) :
    Derives p .inside id name (.definition ⟨name, id, init, x.doc⟩)
  | named {id name target other : String} {m : SourceModule} {r : Resolved}
    (found : p.module? id = some m) (undeclared : NoEntry m.declaring name)
    (last : LastEntry (m.importing (p.link id)) name
      ⟨.toModule target, .named other⟩)
    (there : Derives p .outside target other r) : Derives p .inside id name r
  | default {id name target : String} {m : SourceModule} {r : Resolved}
    (found : p.module? id = some m) (undeclared : NoEntry m.declaring name)
    (last : LastEntry (m.importing (p.link id)) name ⟨.toModule target, .default⟩)
    (there : Derives p .outside target "default" r) : Derives p .inside id name r
  | whole {id name target : String} {m : SourceModule}
    (found : p.module? id = some m) (undeclared : NoEntry m.declaring name)
    (last : LastEntry (m.importing (p.link id)) name ⟨.toModule target, .star⟩) :
    Derives p .inside id name (.whole (.source target))
  | packageNamed {id name package other : String} {m : SourceModule}
    (found : p.module? id = some m) (undeclared : NoEntry m.declaring name)
    (last : LastEntry (m.importing (p.link id)) name
      ⟨.toPackage package, .named other⟩) :
    Derives p .inside id name (.external package other)
  | packageDefault {id name package : String} {m : SourceModule}
    (found : p.module? id = some m) (undeclared : NoEntry m.declaring name)
    (last : LastEntry (m.importing (p.link id)) name
      ⟨.toPackage package, .default⟩) :
    Derives p .inside id name (.external package "default")
  | packageWhole {id name package : String} {m : SourceModule}
    (found : p.module? id = some m) (undeclared : NoEntry m.declaring name)
    (last : LastEntry (m.importing (p.link id)) name ⟨.toPackage package, .star⟩) :
    Derives p .inside id name (.whole (.package package))
  | own {id name inner : String} {m : SourceModule} {r : Resolved} (found : p.module? id = some m)
    (last : LastEntry (m.exporting (p.link id)) name (.own inner))
    (here : Derives p .inside id inner r) : Derives p .outside id name r
  | again {id name target other : String} {m : SourceModule} {r : Resolved}
    (found : p.module? id = some m)
    (last : LastEntry (m.exporting (p.link id)) name
      (.again (.toModule target) other))
    (there : Derives p .outside target other r) : Derives p .outside id name r
  | packageAgain {id name package other : String} {m : SourceModule}
    (found : p.module? id = some m)
    (last : LastEntry (m.exporting (p.link id)) name
      (.again (.toPackage package) other)) :
    Derives p .outside id name (.external package other)
  | star {id name target : String} {m : SourceModule} (found : p.module? id = some m)
    (last : LastEntry (m.exporting (p.link id)) name (.star (.toModule target))) :
    Derives p .outside id name (.whole (.source target))
  | packageStar {id name package : String} {m : SourceModule} (found : p.module? id = some m)
    (last : LastEntry (m.exporting (p.link id)) name
      (.star (.toPackage package))) :
    Derives p .outside id name (.whole (.package package))
  | taken {id name target : String} {m : SourceModule} {r : Resolved}
    (found : p.module? id = some m) (absent : NoEntry (m.exporting (p.link id)) name)
    (other : name ≠ "default") (link : .toModule target ∈ m.taking (p.link id))
    (there : Derives p .outside target name r) : Derives p .outside id name r
  | packageTaken {id name package : String} {m : SourceModule} {before after : List Link}
    (found : p.module? id = some m) (absent : NoEntry (m.exporting (p.link id)) name)
    (other : name ≠ "default")
    (links : m.taking (p.link id) = before ++ .toPackage package :: after)
    (first : ∀ other, .toPackage other ∉ before) :
    Derives p .outside id name (.external package name)

/-- A definition is that of an item of its module. -/
def DeclaredBy (p : Project) (d : Definition) : Prop :=
  ∃ m x, p.module? d.moduleId = some m ∧ .declares x ∈ m.items ∧ x.name = d.name ∧
    x.init = some d.init ∧ x.doc = d.doc

end Project

/-! ### Tables of entries -/

theorem LastEntry.mem {α : Type*} {entries : List (String × α)} {key : String} {a : α}
    (h : LastEntry entries key a) : (key, a) ∈ entries := by
  obtain ⟨before, after, rfl, -⟩ := h
  simp

theorem SourceModule.mem_declaring {m : SourceModule} {name : String} {x : Script.Declaration} :
    (name, x) ∈ m.declaring ↔ .declares x ∈ m.items ∧ x.name = name := by
  rw [declaring, List.mem_flatMap]
  constructor
  · rintro ⟨item, hitem, hx⟩
    cases item with
    | declares y =>
      simp only [Script.Item.declared, List.mem_singleton, Prod.mk.injEq] at hx
      obtain ⟨rfl, rfl⟩ := hx
      exact ⟨hitem, rfl⟩
    | imports _ _ | exports _ _ | exportsAll _ _ => cases hx
  · rintro ⟨hitem, rfl⟩
    exact ⟨_, hitem, by simp [Script.Item.declared]⟩

namespace Table

variable {α : Type*}

/-- What is found in a table after writing is the last entry that was written under the key. -/
theorem get?_extend_eq_some {t u : Table String α} {key : String} {a : α} :
    (t.extend u).get? key = some a ↔ LastEntry u key a ∨ NoEntry u key ∧ t.get? key = some a := by
  induction u generalizing t with
  | nil => simp [LastEntry, NoEntry]
  | cons q u ih =>
    rw [extend_cons, ih, get?_insert]
    have hlast : LastEntry (q :: u) key a ↔
        LastEntry u key a ∨ NoEntry u key ∧ q = (key, a) := by
      constructor
      · rintro ⟨before, after, heq, hafter⟩
        cases before with
        | nil =>
          obtain ⟨rfl, rfl⟩ := List.cons.inj heq
          exact .inr ⟨hafter, rfl⟩
        | cons b before =>
          obtain ⟨rfl, rfl⟩ := List.cons.inj heq
          exact .inl ⟨before, after, rfl, hafter⟩
      · rintro (⟨before, after, rfl, hafter⟩ | ⟨hu, rfl⟩)
        · exact ⟨q :: before, after, rfl, hafter⟩
        · exact ⟨[], u, rfl, hu⟩
    rw [hlast]
    obtain ⟨k, b⟩ := q
    by_cases hk : k = key
    · simp [NoEntry, hk]
    · simp [NoEntry, hk, Ne.symm hk]

theorem get?_ofList_eq_some {u : Table String α} {key : String} {a : α} :
    (ofList u).get? key = some a ↔ LastEntry u key a := by
  rw [ofList, get?_extend_eq_some]
  simp [get?]

theorem get?_ofList_eq_none {u : Table String α} {key : String} :
    (ofList u).get? key = none ↔ NoEntry u key := by
  rw [ofList, get?_eq_none, mem_keys_extend]
  simp [NoEntry, keys]

end Table

namespace Project

/-- The tables of a module hold what its items say. -/
structure ReadOff (p : Project) (id : String) (m : SourceModule) : Prop where
  place : m.id = id
  declarations : m.declarations = Table.ofList m.declaring
  imports : m.imports = Table.ofList (m.importing (p.link id))
  exports : m.exports = Table.ofList (m.exporting (p.link id))
  stars : m.stars = m.taking (p.link id)

/-- Entering an item writes its entries after those that were there. -/
theorem enter_eq (link : String → Link) (m : SourceModule) (item : Script.Item) :
    m.enter link item =
      { m with
        declarations := m.declarations.extend item.declared
        imports := m.imports.extend (item.imported link)
        exports := m.exports.extend (item.exported link)
        stars := m.stars ++ item.taken link } := by
  cases item with
  | declares d =>
    cases hx : d.exported <;>
      simp [SourceModule.enter, Script.Item.declared, Script.Item.imported, Script.Item.exported,
        Script.Item.taken, hx]
  | imports source bindings =>
    have hfold : ∀ t : Table String ImportEntry,
        bindings.foldl
          (fun acc b => acc.insert b.name ⟨link source, SourceModule.importedName b⟩) t =
          t.extend (Script.Item.imported link (.imports source bindings)) := by
      induction bindings with
      | nil => exact fun t => rfl
      | cons b bindings ih => intro t; cases b <;> exact ih _
    simp [SourceModule.enter, hfold, Script.Item.declared, Script.Item.exported, Script.Item.taken]
  | exports names source =>
    cases source <;>
      simp [SourceModule.enter, Script.Item.declared, Script.Item.imported, Script.Item.exported,
        Script.Item.taken, Table.extend, List.foldl_map]
  | exportsAll source name =>
    cases name <;>
      simp [SourceModule.enter, Script.Item.declared, Script.Item.imported, Script.Item.exported,
        Script.Item.taken]

theorem foldl_enter (link : String → Link) (items : List Script.Item) (m : SourceModule) :
    items.foldl (SourceModule.enter link) m =
      { m with
        declarations := m.declarations.extend (items.flatMap Script.Item.declared)
        imports := m.imports.extend (items.flatMap (Script.Item.imported link))
        exports := m.exports.extend (items.flatMap (Script.Item.exported link))
        stars := m.stars ++ items.flatMap (Script.Item.taken link) } := by
  induction items generalizing m with
  | nil => simp
  | cons item items ih => simp [ih, enter_eq, Table.extend_append]

theorem ofSpecifier_congr {known others : List String} (h : ∀ id, id ∈ known ↔ id ∈ others)
    (id specifier : String) :
    Link.ofSpecifier known id specifier = Link.ofSpecifier others id specifier := by
  have hc : known.contains = others.contains := by
    funext x
    rw [Bool.eq_iff_iff, List.contains_iff_mem, List.contains_iff_mem, h]
  rw [Link.ofSpecifier, Link.ofSpecifier, hc]

theorem mem_moduleIds_assemble {parsed : List ParsedModule} {id : String} :
    id ∈ (assemble parsed).moduleIds ↔ id ∈ parsed.map Prod.fst := by
  rw [moduleIds, assemble, Table.ofList, Table.mem_keys_extend]
  simp [Table.keys]

theorem exists_of_module?_assemble {parsed : List ParsedModule} {id : String} {m : SourceModule}
    (hm : (assemble parsed).module? id = some m) : ∃ source items, (id, source, items) ∈ parsed ∧
      m = SourceModule.build (parsed.map Prod.fst) id source items := by
  rcases Table.mem_of_mem_extend (Table.mem_of_get? hm) with h | h
  · cases h
  · obtain ⟨⟨_, source, items⟩, hp, heq⟩ := List.mem_map.mp h
    obtain ⟨rfl, rfl⟩ := Prod.mk.inj heq
    exact ⟨source, items, hp, rfl⟩

/-- In an assembled project all tables are read off the items. -/
theorem readOff_assemble (parsed : List ParsedModule) {id : String} {m : SourceModule}
    (hm : (assemble parsed).module? id = some m) : (assemble parsed).ReadOff id m := by
  have hlink : Link.ofSpecifier (parsed.map Prod.fst) id = (assemble parsed).link id :=
    funext fun specifier => ofSpecifier_congr (fun _ => mem_moduleIds_assemble.symm) id specifier
  obtain ⟨source, items, -, rfl⟩ := exists_of_module?_assemble hm
  simp only [SourceModule.build, foldl_enter, hlink]
  exact ⟨rfl, rfl, rfl, rfl, rfl⟩

/-! ### Soundness -/

variable {p : Project}

/-- An import that asks no other module. -/
theorem derives_answer {id name : String} {m : SourceModule} {entry : ImportEntry} {r : Resolved}
    (found : p.module? id = some m) (undeclared : NoEntry m.declaring name)
    (last : LastEntry (m.importing (p.link id)) name entry)
    (silent : entry.asks? = none) (h : entry.answer m = .ok r) : p.Derives .inside id name r := by
  obtain ⟨link, imported⟩ := entry
  cases link with
  | toModule target =>
    cases imported with
    | star =>
      cases h
      exact .whole found undeclared last
    | named other => cases silent
    | default => cases silent
  | toPackage package =>
    cases imported with
    | named other =>
      cases h
      exact .packageNamed found undeclared last
    | default =>
      cases h
      exact .packageDefault found undeclared last
    | star =>
      cases h
      exact .packageWhole found undeclared last
  | missing specifier => cases h

/-- An import that asks another module. -/
theorem derives_asks {id name target other : String} {m : SourceModule} {entry : ImportEntry}
    {r : Resolved} (found : p.module? id = some m)
    (undeclared : NoEntry m.declaring name)
    (last : LastEntry (m.importing (p.link id)) name entry)
    (asks : entry.asks? = some (target, other)) (there : p.Derives .outside target other r) :
    p.Derives .inside id name r := by
  obtain ⟨link, imported⟩ := entry
  cases link <;> cases imported <;> cases asks
  · exact .named found undeclared last there
  · exact .default found undeclared last there

/-- An export that asks neither its own nor another module. -/
theorem derives_said {id name : String} {m : SourceModule} {entry : ExportEntry} {r : Resolved}
    (found : p.module? id = some m)
    (last : LastEntry (m.exporting (p.link id)) name entry)
    (said : entry.answer? m = some (.ok r)) : p.Derives .outside id name r := by
  cases entry with
  | own inner => cases said
  | again link other =>
    cases link with
    | toPackage package =>
      cases said
      exact .packageAgain found last
    | toModule target | missing specifier => cases said
  | star link =>
    cases link with
    | toModule target =>
      cases said
      exact .star found last
    | toPackage package =>
      cases said
      exact .packageStar found last
    | missing specifier => cases said

theorem firstPackage?_eq_some {links : List Link} {package : String}
    (h : firstPackage? links = some package) :
    ∃ before after, links = before ++ .toPackage package :: after ∧
      ∀ other, .toPackage other ∉ before := by
  induction links with
  | nil => cases h
  | cons link links ih =>
    cases link with
    | toPackage name =>
      cases h
      exact ⟨[], links, rfl, by simp⟩
    | toModule target | missing specifier =>
      obtain ⟨before, after, rfl, hfirst⟩ := ih h
      exact ⟨_ :: before, after, rfl, by simpa using hfirst⟩

/-- An answer that is found by searching modules one after the other is that of one of them. -/
theorem exists_link_of_searchStars {ask : String → List String → Search} {links : List Link}
    {entered : List String} {answer : Except Fault Resolved}
    (h : (searchStars ask links entered).1 = some answer) :
    ∃ target more, .toModule target ∈ links ∧ (ask target more).1 = answer := by
  induction links generalizing entered with
  | nil => cases h
  | cons link links ih =>
    cases link with
    | toModule target =>
      cases heq : ask target entered with
      | mk found more =>
        by_cases hu : IsUnknown found
        · rw [searchStars_unknown heq hu] at h
          obtain ⟨t, further, ht, ha⟩ := ih h
          exact ⟨t, further, List.mem_cons_of_mem _ ht, ha⟩
        · rw [searchStars_known heq hu] at h
          cases h
          exact ⟨target, entered, List.mem_cons_self, by rw [heq]⟩
    | toPackage package | missing specifier =>
      obtain ⟨t, further, ht, ha⟩ := ih h
      exact ⟨t, further, List.mem_cons_of_mem _ ht, ha⟩

/-- Every answer within some number of steps follows from the rules. -/
theorem derives_within (hp : ∀ {id m}, p.module? id = some m → p.ReadOff id m) (n : ℕ) :
    (∀ name id r, p.nameWithin n name id = .ok r → p.Derives .inside id name r) ∧
    ∀ id name entered r, (p.exportWithin n id name entered).1 = .ok r →
      p.Derives .outside id name r := by
  induction n with
  | zero => exact ⟨fun _ _ _ h => (by cases h), fun _ _ _ _ h => (by cases h)⟩
  | succ n ih =>
    constructor
    · intro name id r h
      cases nameCase p name id with
      | lost none => cases (nameWithin_lost n none).symm.trans h
      | @declared m x found entry =>
        rw [nameWithin_declared n found entry] at h
        have hlast : LastEntry m.declaring name x := by
          rwa [(hp found).declarations, Table.get?_ofList_eq_some] at entry
        have hname : x.name = name := (SourceModule.mem_declaring.mp hlast.mem).2
        cases hi : x.init with
        | none =>
          rw [SourceModule.definition, hi] at h
          cases h
        | some init =>
          rw [SourceModule.definition, hi, hname, (hp found).place] at h
          cases h
          exact .declared found hlast hi
      | unknown found undeclared unimported =>
        cases (nameWithin_unknown n found undeclared unimported).symm.trans h
      | asks found undeclared imported asks =>
        rw [nameWithin_asks n found undeclared imported asks] at h
        rw [(hp found).declarations, Table.get?_ofList_eq_none] at undeclared
        rw [(hp found).imports, Table.get?_ofList_eq_some] at imported
        exact derives_asks found undeclared imported asks (ih.2 _ _ _ r h)
      | answer found undeclared imported silent =>
        rw [nameWithin_answer n found undeclared imported silent] at h
        rw [(hp found).declarations, Table.get?_ofList_eq_none] at undeclared
        rw [(hp found).imports, Table.get?_ofList_eq_some] at imported
        exact derives_answer found undeclared imported silent h
    · intro id name entered r h
      cases exportCase p id name entered with
      | entered again =>
        rw [exportWithin_entered n again] at h
        cases h
      | lost new none =>
        rw [exportWithin_lost n new none] at h
        cases h
      | own new found entry =>
        rw [exportWithin_own n new found entry] at h
        rw [(hp found).exports, Table.get?_ofList_eq_some] at entry
        exact .own found entry (ih.1 _ _ r h)
      | again new found entry =>
        rw [exportWithin_again n new found entry] at h
        rw [(hp found).exports, Table.get?_ofList_eq_some] at entry
        exact .again found entry (ih.2 _ _ _ r h)
      | answer new found entry said =>
        rw [exportWithin_answer n new found entry said] at h
        rw [(hp found).exports, Table.get?_ofList_eq_some] at entry
        exact derives_said found entry (said.trans (congrArg some h))
      | default new found absent named =>
        subst named
        rw [exportWithin_default n new found absent] at h
        cases h
      | @stars m new found absent named =>
        rw [exportWithin_stars n new found absent named] at h
        rw [(hp found).exports, Table.get?_ofList_eq_none] at absent
        have hstars := (hp found).stars
        cases hout : searchStars (fun target => p.exportWithin n target name) m.stars
            (id :: entered) with
        | mk out more =>
          rw [hout] at h
          cases out with
          | some answer =>
            obtain ⟨target, before, hlink, ha⟩ :=
              exists_link_of_searchStars (congrArg Prod.fst hout)
            exact .taken found absent named (hstars ▸ hlink)
              (ih.2 target name before r (ha.trans h))
          | none =>
            rw [starAnswer] at h
            split at h
            · next package hfirst =>
              cases h
              obtain ⟨before, after, hlinks, hbefore⟩ := firstPackage?_eq_some hfirst
              exact .packageTaken found absent named (hstars ▸ hlinks) hbefore
            · cases h

/-- A definition that follows from the rules is that of an item. -/
theorem Derives.declaredBy {view : View} {id name : String} {r : Resolved} {d : Definition}
    (h : p.Derives view id name r) (hr : r = .definition d) : p.DeclaredBy d := by
  induction h with
  | @declared id name m x init found last value =>
    cases hr
    obtain ⟨hitem, hname⟩ := SourceModule.mem_declaring.mp last.mem
    exact ⟨m, x, found, hitem, hname, value, rfl⟩
  | named _ _ _ _ ih | default _ _ _ _ ih | own _ _ _ ih | again _ _ _ ih | taken _ _ _ _ _ ih =>
    exact ih hr
  | whole | packageNamed | packageDefault | packageWhole | packageAgain | star | packageStar
  | packageTaken => cases hr

/-- Names and exports are resolved to what the rules give them as meaning, and a definition to which
they are resolved is that of an item of its module. -/
theorem resolution_sound (parsed : List ParsedModule) (id name : String) (r : Resolved) :
    let p := assemble parsed
    (p.resolve name id = .ok r → p.Derives .inside id name r) ∧
      (p.resolveExport id name = .ok r → p.Derives .outside id name r) ∧
      ((p.resolve name id = .ok r ∨ p.resolveExport id name = .ok r) →
        ∀ d, r = .definition d → p.DeclaredBy d) := by
  intro p
  have hwithin := derives_within (readOff_assemble parsed) p.stepBound
  have hname : p.resolve name id = .ok r → p.Derives .inside id name r := hwithin.1 name id r
  have hexport : p.resolveExport id name = .ok r → p.Derives .outside id name r :=
    hwithin.2 id name [] r
  refine ⟨hname, hexport, fun h d hd => ?_⟩
  rcases h with h | h
  · exact (hname h).declaredBy hd
  · exact (hexport h).declaredBy hd

end Project

open Script in
/-- A name that is imported, exported again under another name, and taken over from a module that
declares it twice. -/
def relay : List ParsedModule :=
  let here : Span := default
  [("main.ts", "", [.imports "./api" [.named "user" "u"], .imports "io-ts" [.star "t"]]),
    ("api.ts", "", [.exportsAll "zod" none, .exports [("User", "user")] (some "./model")]),
    ("model.ts", "", [.exportsAll "./api" none, .exportsAll "./user" none]),
    ("user.ts", "", [.declares ⟨"User", some (.null here), true, none, here⟩,
      .declares ⟨"User", some (.ident "t" here), false, some "A user.", here⟩])]

open Script in
theorem Project.resolution_sound_relay :
    let p := assemble relay
    let user : Resolved := .definition ⟨"User", "user.ts", .ident "t" default, some "A user."⟩
    (p.resolve "u" "main.ts" = .ok user ∧ p.Derives .inside "main.ts" "u" user) ∧
      (p.resolveExport "model.ts" "x" = .ok (.external "zod" "x") ∧
        p.Derives .outside "model.ts" "x" (.external "zod" "x")) ∧
      p.DeclaredBy ⟨"User", "user.ts", .ident "t" default, some "A user."⟩ := by
  intro p user
  have hname : p.resolve "u" "main.ts" = .ok user := rfl
  have hexport : p.resolveExport "model.ts" "x" = .ok (.external "zod" "x") := rfl
  exact ⟨⟨hname, (resolution_sound relay "main.ts" "u" user).1 hname⟩,
    ⟨hexport, (resolution_sound relay "model.ts" "x" (.external "zod" "x")).2.1 hexport⟩,
    (resolution_sound relay "main.ts" "u" user).2.2 (.inl hname) _ rfl⟩

end CodecDocs
