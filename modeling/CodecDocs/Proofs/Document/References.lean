import CodecDocs.Proofs.Document.Drain
import CodecDocs.Proofs.Wire

/-! The references of a document. Every reference in a schema that a document shows has a token, and
the token is that of a component or of a failure that the document reports; components and failures
have one token each. -/

namespace CodecDocs

/-! ### What a document shows -/

/-- The schema of a parameter as its wire form shows it. -/
def Parameter.shown (p : Parameter) : Schema :=
  p.schema.withNotes ⟨none, p.schema.notes.annotations⟩

/-- The schemas whose wire forms stand in that of an operation. -/
def Operation.shown (o : Operation) : List Schema :=
  o.parameters.map Parameter.shown ++ o.body.toList ++ o.responses.values

/-- The schemas whose wire forms stand in a document. -/
def Survey.shown (v : Survey) : List Schema :=
  v.operations.flatMap Operation.shown ++ v.components.values

theorem Operation.refers_of_shown {o : Operation} {schema : Schema} (h : schema ∈ o.shown)
    {target : Target} (ht : schema.Refers target) : ∃ s ∈ o.schemas, s.Refers target := by
  simp only [shown, List.mem_append, List.mem_map] at h
  rcases h with (⟨p, hp, rfl⟩ | h) | h
  · refine ⟨p.schema, ?_, Schema.refers_withNotes.mp ht⟩
    simp only [schemas, List.mem_append, List.mem_map]
    exact .inl (.inl ⟨p, hp, rfl⟩)
  · refine ⟨schema, ?_, ht⟩
    simp only [schemas, List.mem_append]
    exact .inl (.inr h)
  · refine ⟨schema, ?_, ht⟩
    simp only [schemas, List.mem_append]
    exact .inr h

/-- The wire form of an operation is made from those of the schemas that it shows. -/
theorem Operation.wire_congr {o : Operation} {w u : Worklist}
    (h : ∀ schema ∈ o.shown, Wire.schema? w schema = Wire.schema? u schema) :
    o.wire w = o.wire u := by
  have hparameters : o.parameters.map (Parameter.wire w) = o.parameters.map (Parameter.wire u) := by
    refine List.map_congr_left fun p hp => ?_
    have hp : p.shown ∈ o.shown := by
      simp only [shown, List.mem_append]
      exact .inl (.inl (List.mem_map_of_mem hp))
    have := h _ hp
    simp only [Parameter.shown] at this
    simp only [Parameter.wire, Wire.root, this]
  have hbody : bodyFields w o = bodyFields u o := by
    have : o.body.bind (Wire.schema? w) = o.body.bind (Wire.schema? u) := by
      refine Option.bind_congr fun schema hs => h schema ?_
      simp only [shown, List.mem_append]
      exact .inl (.inr (Option.mem_toList.mpr hs))
    simp only [bodyFields, this]
  have hresponses : (o.responses.map fun r => (r.1, responseWire w r.1 r.2)) =
      o.responses.map fun r => (r.1, responseWire u r.1 r.2) := by
    refine List.map_congr_left fun r hr => ?_
    have hr : r.2 ∈ o.shown := by
      simp only [shown, List.mem_append]
      exact .inr (List.mem_map_of_mem hr)
    simp only [responseWire, h _ hr]
  simp only [wire, hparameters, hbody, hresponses]

/-- A document knows its worklist only by the tokens of what the schemas that it shows refer to. -/
theorem Survey.value_congr (v : Survey) {u : Worklist}
    (h : ∀ schema ∈ v.shown, ∀ target, schema.Refers target →
      u.token? target = v.worklist.token? target) (info : Json) :
    Survey.value ⟨v.routes, u, v.expansions⟩ info = v.value info := by
  have hschema : ∀ schema ∈ v.shown, Wire.schema? u schema = Wire.schema? v.worklist schema := by
    intro schema hs
    rw [Wire.schema?, Wire.schema?, Wire.schemaFields_congr (h schema hs)]
  have hpaths : Survey.paths ⟨v.routes, u, v.expansions⟩ = v.paths := by
    refine List.foldl_ext _ _ _ fun paths o ho => ?_
    have : o.wire u = o.wire v.worklist := Operation.wire_congr fun schema hs =>
      hschema schema (List.mem_append_left _ (List.mem_flatMap.mpr ⟨o, ho, hs⟩))
    simp only [this]
  have hcomponents : (v.components.map fun c => (c.1, Wire.root u c.2)) =
      v.components.map fun c => (c.1, Wire.root v.worklist c.2) := by
    refine List.map_congr_left fun c hc => ?_
    have := hschema c.2 (List.mem_append_right _ (List.mem_map_of_mem hc))
    simp only [Wire.root, this]
  simp only [value, hpaths]
  rw [← hcomponents]
  rfl

/-! ### Components and failures -/

namespace Expansion

theorem mem_components {es : List Expansion} {p : String × Schema} (h : p ∈ components es) :
    ∃ e ∈ es, e.outcome = .ok p.2 := by
  obtain ⟨e, he, hp⟩ := List.mem_filterMap.mp h
  refine ⟨e, he, ?_⟩
  cases ho : e.outcome with
  | ok schema =>
    simp only [ho, Option.some.injEq] at hp
    rw [← hp]
  | error fault => simp [ho] at hp

/-- Every expansion becomes a component or a failure, under its own token. -/
theorem tokens_perm (es : List Expansion) :
    ((components es).keys ++ (diagnostics es).map Diagnostic.root).Perm
      (es.map Expansion.token) := by
  induction es with
  | nil => exact .refl _
  | cons e es ih =>
    cases ho : e.outcome with
    | ok schema =>
      have hc : components (e :: es) = (e.token, schema) :: components es := by
        simp [components, ho]
      have hd : diagnostics (e :: es) = diagnostics es := by simp [diagnostics, ho]
      rw [hc, hd]
      exact ih.cons e.token
    | error fault =>
      have hc : components (e :: es) = components es := by simp [components, ho]
      have hd : diagnostics (e :: es) = ⟨e.token, fault⟩ :: diagnostics es := by
        simp [diagnostics, ho]
      rw [hc, hd]
      exact List.perm_middle.trans (ih.cons e.token)

end Expansion

namespace Survey

variable (v : Survey)

theorem components_perm : v.components.Perm (Expansion.components v.expansions) :=
  List.mergeSort_perm _ _

theorem components_document (info : Json) (entry : String) :
    (v.document info entry).components =
      v.components.map fun p => (p.1, Wire.root v.worklist p.2) := rfl

theorem keys_document (info : Json) (entry : String) :
    (v.document info entry).components.keys = v.components.keys := by
  rw [components_document, Table.keys, Table.keys, List.map_map]
  rfl

end Survey

/-! ### The whole -/

/-- The names that the schemas of a document refer to have all been seen. -/
theorem Setting.seen_of_shown (s : Setting) (options : DocumentOptions) (entry : String) (limit : ℕ)
    (session : Session) {v : Survey} (hv : (s.survey limit options entry session).1 = v)
    {schema : Schema} (hs : schema ∈ v.shown) {target : Target} (ht : schema.Refers target) :
    target ∈ v.worklist.seen.keys := by
  subst hv
  have hd := s.drained_survey options entry limit session
  have hc := s.consistent_roots options entry (s.survey limit options entry session).1.operations
  rcases List.mem_append.mp hs with hs | hs
  · obtain ⟨o, ho, hs⟩ := List.mem_flatMap.mp hs
    obtain ⟨x, hx, hr⟩ := Operation.refers_of_shown hs ht
    have hroot := (s.mem_keys_roots options entry).mpr (.inr ⟨o, ho, x, hx, hr⟩)
    exact ((hd.seen hc).map Prod.fst).subset hroot
  · obtain ⟨p, hp, rfl⟩ := List.mem_map.mp hs
    obtain ⟨e, he, hok⟩ := Expansion.mem_components ((Survey.components_perm _).mem_iff.mp hp)
    exact hd.visited hc e he p.2 hok target ht

/-- No reference of a document dangles: it is written with the token of its name, and this is the
token of a component or of a failure. Components and failures together have the tokens of the names
seen, each once, and nothing else of a worklist goes into a document. -/
theorem Setting.no_dangling_reference (s : Setting) (options : DocumentOptions) (entry : String)
    (limit : ℕ) (session : Session) (v : Survey)
    (hv : (s.survey limit options entry session).1 = v) (hf : v.Finished) (info : Json) :
    let components := (v.document info entry).components.keys
    let failures := (Expansion.diagnostics v.expansions).map Diagnostic.root
    (∀ schema ∈ v.shown, ∀ name origin notes, .reference name origin notes ∈ schema.nodes →
      ∃ token, v.worklist.token? (name, origin) = some token ∧
        Wire.schemaFields v.worklist (.reference name origin notes) =
          some (Wire.applyNotes (Wire.referenceFields token notes) notes) ∧
        (token ∈ components ∨ token ∈ failures)) ∧
    (components ++ failures).Nodup ∧ (components ++ failures).Perm v.worklist.seen.values ∧
    ∀ u : Worklist, (∀ schema ∈ v.shown, ∀ target, schema.Refers target →
        u.token? target = v.worklist.token? target) →
      Survey.value ⟨v.routes, u, v.expansions⟩ info = v.value info := by
  intro components failures
  have hd := s.drained_survey options entry limit session
  have hc := s.consistent_roots options entry (s.survey limit options entry session).1.operations
  rw [hv] at hd hc
  have hperm : (components ++ failures).Perm v.worklist.seen.values := by
    have hkeys : components.Perm (Expansion.components v.expansions).keys := by
      have : components = v.components.keys := v.keys_document info entry
      rw [this]
      exact v.components_perm.map Prod.fst
    rw [hd.values_of_finished hc hf]
    exact (hkeys.append_right failures).trans (Expansion.tokens_perm v.expansions)
  refine ⟨fun schema hs name origin notes hr => ?_, ?_, hperm, fun u hu => v.value_congr hu info⟩
  · have hrefers : schema.Refers (name, origin) := ⟨notes, hr⟩
    obtain ⟨token, ht⟩ :=
      Worklist.exists_token (s.seen_of_shown options entry limit session hv hs hrefers)
    refine ⟨token, ht, Wire.schemaFields_reference ht notes, ?_⟩
    have hvalue : token ∈ v.worklist.seen.values := List.mem_map_of_mem (Table.mem_of_get? ht)
    exact List.mem_append.mp (hperm.mem_iff.mpr hvalue)
  · exact hperm.nodup_iff.mpr (hd.consistent hc).tokens

/-- The failure has a token beside those of the components. -/
theorem no_dangling_reference_forest :
    forestSurvey.Finished ∧ (∀ schema ∈ forestSurvey.shown, ∀ target, schema.Refers target →
        ∃ token, forestSurvey.worklist.token? target = some token) ∧
      ((forestSurvey.document .null "forest.ts").components.keys ++
        (Expansion.diagnostics forestSurvey.expansions).map Diagnostic.root).Perm
          ["Tree", "Leaf", "Gone"] := by
  have hf : forestSurvey.Finished := by decide
  have h := (Setting.mk forest .empty none).no_dangling_reference ⟨.empty, true⟩ "forest.ts" 3
    .start forestSurvey rfl hf .null
  refine ⟨hf, fun schema hs target ⟨notes, hr⟩ => ?_, ?_⟩
  · obtain ⟨token, ht, -⟩ := h.1 schema hs target.1 target.2 notes hr
    exact ⟨token, ht⟩
  · have hvalues : forestSurvey.worklist.seen.values = ["Tree", "Leaf", "Gone"] := by decide
    exact hvalues ▸ h.2.2.1

end CodecDocs
