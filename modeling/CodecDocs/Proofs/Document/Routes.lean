import CodecDocs.Proofs.Document.Closure
import CodecDocs.Registry.Builtin

/-! What becomes of the routes of an entry module. Each of them is private, reported or read as an
operation, and nothing between the specification and its routes gets lost without a report. The
operations then go into a table by path and method, where the last one of a place stays: an
operation is found in the document unless a later one has the same path and the same method. -/

namespace CodecDocs

/-! ### Evaluation at the start of a session -/

namespace Session

variable {α β : Type}

theorem bind_apply (act : StateM Session α) (f : α → StateM Session β) (session : Session) :
    (act >>= f) session = f (act session).1 (act session).2 := rfl

theorem Steady.fst_eq {act : StateM Session α} (h : Steady act) (asked : List Query) :
    (act ⟨[], asked⟩).1 = (act start).1 := by
  obtain ⟨a, more, ha⟩ := h []
  rw [start, ha, ha]

theorem Steady.bind_fst {act : StateM Session α} {f : α → StateM Session β} (h : Steady act)
    (hf : ∀ a, Steady (f a)) : ((act >>= f) start).1 = (f (act start).1 start).1 := by
  obtain ⟨a, more, ha⟩ := h []
  have hstart : act start = (a, ⟨[], more⟩) := by rw [start, ha, List.nil_append]
  rw [bind_apply, hstart, (hf a).fst_eq]

theorem Steady.mapM_fst {f : α → StateM Session β} (h : ∀ a, Steady (f a)) (as : List α) :
    (as.mapM f start).1 = as.map fun a => (f a start).1 := by
  induction as with
  | nil => rfl
  | cons a as ih =>
    rw [List.mapM_cons, Steady.bind_fst (h a) fun b => (mapM h as).bind fun _ => .pure _,
      Steady.bind_fst (mapM h as) fun _ => .pure _, ih]
    rfl

end Session

namespace Eval

variable {α β : Type}

theorem Steady.fst_eq {act : Eval α} (h : Steady act) (asked : List Query) :
    (act ⟨[], asked⟩).1 = (act Session.start).1 := Session.Steady.fst_eq h asked

theorem Steady.bind_ok {act : Eval α} {f : α → Eval β} {a : α} (h : Steady act)
    (hf : Steady (f a)) (ha : (act Session.start).1 = .ok a) :
    ((act >>= f) Session.start).1 = (f a Session.start).1 := by
  obtain ⟨outcome, more, ho⟩ := steady_iff.mp h []
  rw [Session.start, ho] at ha
  subst ha
  have hstart : act Session.start = (.ok a, ⟨[], more⟩) := by
    rw [Session.start, ho, List.nil_append]
  rw [bind_of_ok hstart]
  exact hf.fst_eq more

theorem bind_error {act : Eval α} {e : Fault} (f : α → Eval β)
    (ha : (act Session.start).1 = .error e) : ((act >>= f) Session.start).1 = .error e := by
  have hact : act Session.start = (.error e, (act Session.start).2) := Prod.ext ha rfl
  rw [bind_of_error hact]

/-- Actions that cannot fail, one after the other. -/
theorem mapM_lift_fst {f : α → StateM Session β} (h : ∀ a, Session.Steady (f a)) (as : List α) :
    (as.mapM (fun a => (ExceptT.lift (f a) : Eval β)) Session.start).1 =
      .ok (as.map fun a => (f a Session.start).1) := by
  have hf : ∀ a, Steady (ExceptT.lift (f a) : Eval β) := fun a => .lift (h a)
  induction as with
  | nil => rfl
  | cons a as ih =>
    have hfirst : ((ExceptT.lift (f a) : Eval β) Session.start).1 = .ok (f a Session.start).1 := rfl
    have hrest := Steady.mapM hf as
    rw [List.mapM_cons, (hf a).bind_ok (hrest.bind fun _ => .pure _) hfirst]
    exact hrest.bind_ok (.pure _) ih

end Eval

/-! ### Places of operations -/

/-- The wire form under a path and a method. -/
def Document.operation? (d : Document) (path method : String) : Option Json :=
  ((d.value.get? "paths").bind fun paths => paths.get? path).bind fun methods => methods.get? method

namespace Operation

variable (w : Worklist)

/-- Two operations have the same path and method. -/
def SharesPlace (o other : Operation) : Prop := o.path = other.path ∧ o.method = other.method

/-- Writes an operation into a table of paths. -/
def place (paths : Table String (Table String Json)) (o : Operation) :
    Table String (Table String Json) :=
  paths.insert o.path (Table.insert ((paths.get? o.path).getD []) o.method (o.wire w))

/-- What a table of paths has under a path and a method. -/
def placed? (paths : Table String (Table String Json)) (path method : String) : Option Json :=
  (paths.get? path).bind fun methods => methods.get? method

theorem placed?_place_self (paths : Table String (Table String Json)) (o : Operation) :
    placed? (place w paths o) o.path o.method = some (o.wire w) := by
  simp [placed?, place, Table.get?_insert]

theorem placed?_place_of_ne (paths : Table String (Table String Json)) {o other : Operation}
    (h : ¬ SharesPlace other o) :
    placed? (place w paths other) o.path o.method = placed? paths o.path o.method := by
  unfold placed? place
  rw [Table.get?_insert]
  split_ifs with hp
  · have hm : other.method ≠ o.method := fun hm => h ⟨hp, hm⟩
    rw [Option.bind_some, Table.get?_insert, if_neg hm, hp]
    cases paths.get? o.path <;> rfl
  · rfl

/-- The wire form tells the id of its operation. -/
theorem wire_operationId (o : Operation) :
    (o.wire w).get? "operationId" = some (.string o.operationId) := by
  obtain ⟨path, method, id, comment, parameters, body, responses⟩ := o
  cases comment with
  | none => rfl
  | some comment =>
    obtain ⟨summary, description, tags⟩ := comment
    cases summary <;> cases description <;> rfl

/-- The last operation of a place stays there. -/
theorem placed?_foldl_place (paths : Table String (Table String Json))
    (before after : List Operation) {o : Operation} (h : ∀ other ∈ after, ¬ SharesPlace other o) :
    placed? ((before ++ o :: after).foldl (place w) paths) o.path o.method = some (o.wire w) := by
  rw [List.foldl_append, List.foldl_cons]
  generalize before.foldl (place w) paths = paths
  have hself := placed?_place_self w paths o
  generalize place w paths o = paths at hself ⊢
  induction after generalizing paths with
  | nil => exact hself
  | cons other after ih =>
    rw [List.forall_mem_cons] at h
    rw [List.foldl_cons]
    exact ih h.2 _ ((placed?_place_of_ne w paths h.1).trans hself)

end Operation

namespace Survey

variable (v : Survey) (info : Json) (entry : String)

theorem operation?_document (path method : String) :
    (v.document info entry).operation? path method =
      Operation.placed? (v.operations.foldl (Operation.place v.worklist) []) path method := by
  have hpaths : (v.document info entry).value.get? "paths" =
      some (.object (v.paths.map fun p => (p.1, .object p.2))) := rfl
  rw [Document.operation?, hpaths, Option.bind_some, Json.get?, Table.get?_map, Option.bind_map]
  rfl

/-- An operation is found in the document unless a later one takes its place. -/
theorem operation?_of_last {before after : List Operation} {o : Operation}
    (ho : v.operations = before ++ o :: after)
    (hlast : ∀ other ∈ after, ¬ Operation.SharesPlace other o) :
    (v.document info entry).operation? o.path o.method = some (o.wire v.worklist) := by
  rw [operation?_document, ho]
  exact Operation.placed?_foldl_place _ _ before after hlast

end Survey

/-! ### Routes -/

namespace Setting

variable (s : Setting)

/-- The entries that a specification is read to have. -/
def HasEntries (d : Definition) (entries : Table String Schema) : Prop :=
  ∃ spec required notes, (s.evaluate d.init d.moduleId Session.start).1 = .ok spec ∧
    (s.deref spec Session.start).1 = .ok (.object entries required notes)

/-- The methods that an entry of a specification is read to have. -/
def HasMethods (entry : Schema) (methods : Table String Schema) : Prop :=
  ∃ required notes, (s.deref entry Session.start).1 = .ok (.object methods required notes)

/-- The documentation of a route, at its use or its definition, calls it private. -/
def PrivateRoute (route : Schema) : Prop :=
  ∃ found comment, (s.derefDocumented route Session.start).1 = .ok (found, comment) ∧
    Route.isPrivate comment = true

def Reported (diagnostics : List Diagnostic) (root : String) : Prop :=
  ∃ fault, ⟨root, fault⟩ ∈ diagnostics

/-- Every exported specification is reported, or it has entries; each entry is reported, or it has
methods; and each route under a method is private, reported, or one of the operations. -/
def RoutesAccounted (entry : String) (diagnostics : List Diagnostic)
    (operations : List Operation) : Prop :=
  ∀ d ∈ s.project.exportedDefinitions entry, d.isSpec = true →
    Reported diagnostics d.name ∨ ∃ entries, s.HasEntries d entries ∧
      ∀ key value, (key, value) ∈ entries →
        Reported diagnostics key ∨ ∃ methods, s.HasMethods value methods ∧
          ∀ method route, (method, route) ∈ methods →
            s.PrivateRoute route ∨ Reported diagnostics (key ++ "." ++ method) ∨
              ∃ o ∈ operations, (s.operation? key route Session.start).1 = .ok (some o)

/-- A route without an operation and without a fault is private. -/
theorem private_of_none {key : String} {route : Schema}
    (h : (s.operation? key route Session.start).1 = .ok none) : s.PrivateRoute route := by
  obtain ⟨⟨found, comment⟩, after, hd, h⟩ := Eval.exists_of_bind_ok h
  refine ⟨found, comment, by rw [hd], ?_⟩
  by_contra hp
  dsimp only at h
  rw [if_neg hp] at h
  split at h
  · obtain ⟨path, _, -, h⟩ := Eval.exists_of_bind_ok h
    obtain ⟨method, _, -, h⟩ := Eval.exists_of_bind_ok h
    obtain ⟨request, _, -, h⟩ := Eval.exists_of_bind_ok h
    obtain ⟨responses, _, -, h⟩ := Eval.exists_of_bind_ok h
    cases h
  · cases h

/-- The routes of a specification as they are read at the start of a session. -/
def routesOf (d : Definition) : List Route := (s.specRoutes d Session.start).1

theorem routes_survey (limit : ℕ) (options : DocumentOptions) (entry : String)
    (asked : List Query) :
    (s.survey limit options entry ⟨[], asked⟩).1.routes =
      ((s.project.exportedDefinitions entry).filter Definition.isSpec).flatMap s.routesOf := by
  have hroutes := Session.Steady.mapM s.steady_specRoutes
    ((s.project.exportedDefinitions entry).filter Definition.isSpec)
  rw [survey_apply]
  dsimp only
  rw [hroutes.fst_eq, Session.Steady.mapM_fst s.steady_specRoutes]
  rfl

/-- The routes of an entry: one fault, or one route for each method. -/
theorem entryRoutes_fst (key : String) (value : Schema) :
    (∃ fault, (s.entryRoutes key value Session.start).1 = [⟨key, .error fault⟩]) ∨
      ∃ methods, s.HasMethods value methods ∧
        (s.entryRoutes key value Session.start).1 = methods.map fun m =>
          ⟨key ++ "." ++ m.1, (s.operation? key m.2 Session.start).1⟩ := by
  obtain ⟨outcome, more, ho⟩ := Eval.steady_iff.mp (s.steady_deref value) []
  have hstart : (s.deref value).outcome Session.start = (outcome, ⟨[], more⟩) := ho []
  rw [entryRoutes, Session.bind_apply, hstart]
  cases outcome with
  | error e => exact .inl ⟨e, rfl⟩
  | ok found =>
    cases found with
    | object methods required notes =>
      refine .inr ⟨methods, ⟨required, notes, congrArg Prod.fst hstart⟩, ?_⟩
      have hread : ∀ m : String × Schema, Session.Steady (do
          return (⟨key ++ "." ++ m.1, ← (s.operation? key m.2).outcome⟩ : Route)) :=
        fun m => Session.Steady.bind (s.steady_operation? key m.2) fun _ => .pure _
      have hfst := (Session.Steady.mapM hread methods).fst_eq more
      rw [Session.Steady.mapM_fst hread] at hfst
      exact hfst
    | _ => exact .inl ⟨_, rfl⟩

/-- The routes of the entries of a specification, one entry after the other. -/
theorem entries_fst (entries : Table String Schema) (asked : List Query) :
    ((do return (← entries.mapM fun e => ExceptT.lift (s.entryRoutes e.1 e.2)).flatten :
      Eval (List Route)) ⟨[], asked⟩).1 =
        .ok (entries.flatMap fun e => (s.entryRoutes e.1 e.2 Session.start).1) := by
  have hread : ∀ e : String × Schema, Session.Steady (s.entryRoutes e.1 e.2) :=
    fun e => s.steady_entryRoutes e.1 e.2
  have hmap := Eval.Steady.mapM (fun e => Eval.Steady.lift (hread e)) entries
  have hlift := Eval.mapM_lift_fst hread entries
  refine (Eval.Steady.fst_eq (hmap.bind fun _ => .pure _) asked).trans ?_
  rw [List.flatMap_def]
  exact hmap.bind_ok (.pure _) hlift

theorem routesOf_apply (d : Definition) {outcome : Except Fault (List Route)}
    (h : ((s.evaluate d.init d.moduleId >>= s.routes) Session.start).1 = outcome) :
    s.routesOf d = match outcome with
      | .ok routes => routes
      | .error fault => [⟨d.name, .error fault⟩] := by
  obtain ⟨after, hafter⟩ : ∃ after,
      (Eval.outcome (s.evaluate d.init d.moduleId >>= s.routes)) Session.start = (outcome, after) :=
    ⟨_, Prod.ext h rfl⟩
  rw [routesOf, specRoutes, Session.bind_apply, hafter]
  cases outcome <;> rfl

/-- The routes of a specification: one fault, or the routes of its entries. -/
theorem routesOf_cases (d : Definition) :
    (∃ fault, s.routesOf d = [⟨d.name, .error fault⟩]) ∨
      ∃ entries, s.HasEntries d entries ∧
        s.routesOf d = entries.flatMap fun e => (s.entryRoutes e.1 e.2 Session.start).1 := by
  have hsteady := s.steady_evaluate d.init d.moduleId
  cases he : (s.evaluate d.init d.moduleId Session.start).1 with
  | error e => exact .inl ⟨e, s.routesOf_apply d (Eval.bind_error _ he)⟩
  | ok spec =>
    have hspec := hsteady.bind_ok (s.steady_routes spec) he
    obtain ⟨outcome, more, ho⟩ := Eval.steady_iff.mp (s.steady_deref spec) []
    have hderef : s.deref spec Session.start = (outcome, ⟨[], more⟩) := ho []
    cases outcome with
    | error e =>
      rw [routes, Eval.bind_of_error hderef] at hspec
      exact .inl ⟨e, s.routesOf_apply d hspec⟩
    | ok found =>
      rw [routes, Eval.bind_of_ok hderef] at hspec
      cases found with
      | object entries required notes =>
        have hentries := s.routesOf_apply d (hspec.trans (s.entries_fst entries more))
        exact .inr ⟨entries, ⟨spec, required, notes, he, congrArg Prod.fst hderef⟩, hentries⟩
      | _ => exact .inl ⟨_, s.routesOf_apply d hspec⟩

/-! ### No route is lost -/

/-- A failed route is reported, and one with an operation is among the operations. -/
theorem mem_of_route {v : Survey} {r : Route} (hr : r ∈ v.routes) :
    (∀ fault, r.outcome = .error fault → ⟨r.key, fault⟩ ∈ Route.diagnostics v.routes) ∧
      ∀ o, r.outcome = .ok (some o) → o ∈ v.operations := by
  constructor
  · intro fault hf
    exact List.mem_filterMap.mpr ⟨r, hr, by simp [hf]⟩
  · intro o ho
    exact List.mem_filterMap.mpr ⟨r, hr, by simp [ho]⟩

/-- Routes are never lost between a specification and the operations. -/
theorem routesAccounted_survey (limit : ℕ) (options : DocumentOptions) (entry : String)
    (asked : List Query) (info : Json) :
    let v := (s.survey limit options entry ⟨[], asked⟩).1
    s.RoutesAccounted entry (v.document info entry).diagnostics v.operations := by
  intro v d hd hspec
  have hsub : ∀ r ∈ s.routesOf d, r ∈ v.routes := fun r hr => by
    rw [show v.routes = _ from s.routes_survey limit options entry asked]
    exact List.mem_flatMap.mpr ⟨d, List.mem_filter.mpr ⟨hd, hspec⟩, hr⟩
  have hreported : ∀ r ∈ s.routesOf d, ∀ fault, r.outcome = .error fault →
      Reported (v.document info entry).diagnostics r.key := fun r hr fault hf =>
    ⟨fault, List.mem_append_left _ ((mem_of_route (hsub r hr)).1 fault hf)⟩
  rcases s.routesOf_cases d with ⟨fault, hroutes⟩ | ⟨entries, hentries, hroutes⟩
  · exact .inl (hreported ⟨d.name, .error fault⟩ (by simp [hroutes]) fault rfl)
  refine .inr ⟨entries, hentries, fun key value hvalue => ?_⟩
  have hentry : ∀ r ∈ (s.entryRoutes key value Session.start).1, r ∈ s.routesOf d := by
    intro r hr
    rw [hroutes]
    exact List.mem_flatMap.mpr ⟨(key, value), hvalue, hr⟩
  rcases s.entryRoutes_fst key value with ⟨fault, hr⟩ | ⟨methods, hmethods, hr⟩
  · exact .inl (hreported ⟨key, .error fault⟩ (hentry _ (by simp [hr])) fault rfl)
  refine .inr ⟨methods, hmethods, fun method route hroute => ?_⟩
  let r : Route := ⟨key ++ "." ++ method, (s.operation? key route Session.start).1⟩
  have hmem : r ∈ s.routesOf d := hentry r (hr ▸ List.mem_map_of_mem hroute)
  cases ho : (s.operation? key route Session.start).1 with
  | error fault => exact .inr (.inl (hreported r hmem fault ho))
  | ok operation =>
    cases operation with
    | none => exact .inl (s.private_of_none ho)
    | some o => exact .inr (.inr ⟨o, (mem_of_route (hsub r hmem)).2 o ho, rfl⟩)

/-- No route of an exported specification is lost: it is private, reported or an operation, and the
document shows each operation at its path and method, up to those whose place a later operation
takes. -/
theorem no_route_lost (limit : ℕ) (options : DocumentOptions) (entry : String)
    (asked : List Query) (info : Json) :
    let v := (s.survey limit options entry ⟨[], asked⟩).1
    let document := v.document info entry
    s.RoutesAccounted entry document.diagnostics v.operations ∧
      ∀ before o after, v.operations = before ++ o :: after →
        (∀ other ∈ after, ¬ Operation.SharesPlace other o) →
          document.operation? o.path o.method = some (o.wire v.worklist) :=
  ⟨s.routesAccounted_survey limit options entry asked info,
    fun _ _ _ ho hlast => Survey.operation?_of_last _ info entry ho hlast⟩

end Setting

open Script in
/-- A specification whose two routes have one path, written in two ways, and one method. -/
def twins : Project :=
  let here : Span := default
  let field (name : String) (value : Expr) : Property := .keyed (.name name) value none here
  let route (path : String) : Expr :=
    .object [field "path" (.string path here), field "method" (.string "get" here)] here
  let spec : Expr :=
    .object [field "show" (.object [field "get" (route "/users/:id")] here),
      field "find" (.object [field "get" (route "/users/\x7bid\x7d")] here)] here
  Project.assemble [("api.ts", "", [.imports "@api-ts/io-ts-http" [.named "apiSpec" "apiSpec"],
    .declares ⟨"Api", some (.call (.ident "apiSpec" here) [spec] here), true, none, here⟩])]

def twinSurvey : Survey :=
  ((Setting.mk twins .builtin none).survey 1 ⟨.empty, false⟩ "api.ts" .start).1

theorem twinSurvey_operations :
    ∃ first second, twinSurvey.operations = [first, second] ∧
      (first.operationId = "show" ∧ second.operationId = "find") ∧
      (first.path = second.path ∧ first.method = second.method) :=
  ⟨_, _, rfl, ⟨rfl, rfl⟩, rfl, rfl⟩

/-- The second route stands in the document and the first one does not, which nothing reports. -/
theorem Setting.no_route_lost_twins :
    let v := twinSurvey
    let document := v.document .null "api.ts"
    document.diagnostics = [] ∧ ∃ first second, v.operations = [first, second] ∧
      document.operation? second.path second.method = some (second.wire v.worklist) := by
  obtain ⟨first, second, hops, -⟩ := twinSurvey_operations
  have h := (Setting.mk twins .builtin none).no_route_lost 1 ⟨.empty, false⟩ "api.ts" [] .null
  exact ⟨rfl, first, second, hops, h.2 [first] second [] hops (by simp)⟩

/-- Two routes that are read without a fault can have one place, and then one of them is lost. -/
theorem Setting.document_loses_twin :
    let v := twinSurvey
    let document := v.document .null "api.ts"
    ∃ o ∈ v.operations, document.diagnostics = [] ∧
      document.operation? o.path o.method ≠ some (o.wire v.worklist) := by
  obtain ⟨first, second, hops, hid, hplace⟩ := twinSurvey_operations
  refine ⟨first, by simp [hops], rfl, ?_⟩
  have hsplit : twinSurvey.operations = [first] ++ second :: [] := hops
  have hlast : (twinSurvey.document .null "api.ts").operation? second.path second.method =
      some (second.wire twinSurvey.worklist) :=
    twinSurvey.operation?_of_last .null "api.ts" hsplit (by simp)
  rw [hplace.1, hplace.2, hlast]
  intro h
  have hwire := Operation.wire_operationId twinSurvey.worklist second
  rw [Option.some.inj h, Operation.wire_operationId, hid.1, hid.2] at hwire
  simp at hwire

end CodecDocs
