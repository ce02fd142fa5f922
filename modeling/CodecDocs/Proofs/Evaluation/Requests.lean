import CodecDocs.Proofs.Evaluation.History

/-! Requests put to one evaluator after the other. Each is answered as if it were the first, whether
those before it succeeded, failed or ran into a circle: the names being expanded are after every
request those from before it, and the questions to the oracle are those that each request asks by
itself. -/

namespace CodecDocs

open Script (Expr)

/-! ### Steady actions in a row -/

namespace Session

variable {α β : Type}

/-- A steady action, by what it does when nothing was asked before. -/
theorem Steady.apply_eq {act : StateM Session α} (h : Steady act) (expanding : List Target)
    (asked : List Query) : act ⟨expanding, asked⟩ =
      ((act ⟨expanding, []⟩).1, ⟨expanding, asked ++ (act ⟨expanding, []⟩).2.asked⟩) := by
  obtain ⟨a, more, ha⟩ := h expanding
  rw [ha asked, ha [], List.nil_append]

/-- Steady actions in a row, each by what it does when nothing was asked before. -/
theorem Steady.mapM_eq {f : α → StateM Session β} (h : ∀ a, Steady (f a)) (as : List α)
    (expanding : List Target) (asked : List Query) : as.mapM f ⟨expanding, asked⟩ =
      (as.map fun a => (f a ⟨expanding, []⟩).1,
        ⟨expanding, asked ++ as.flatMap fun a => (f a ⟨expanding, []⟩).2.asked⟩) := by
  induction as generalizing asked with
  | nil => rw [List.flatMap_nil, List.append_nil]; rfl
  | cons a as ih =>
    rw [List.mapM_cons, List.map_cons, List.flatMap_cons, ← List.append_assoc]
    calc (do return (← f a) :: (← as.mapM f)) (⟨expanding, asked⟩ : Session)
        = (do return (f a ⟨expanding, []⟩).1 :: (← as.mapM f))
            ⟨expanding, asked ++ (f a ⟨expanding, []⟩).2.asked⟩ :=
          congrArg (fun r : β × Session => (do return r.1 :: (← as.mapM f)) r.2)
            ((h a).apply_eq expanding asked)
      _ = _ := congrArg (fun r : List β × Session => ((f a ⟨expanding, []⟩).1 :: r.1, r.2)) (ih _)

end Session

/-! ### Requests -/

/-- What an evaluator may be asked for. -/
inductive Request where
  | evaluate (e : Expr) (id : String)
  | expand (name : String) (origin : Origin)
  | deref (schema : Schema)
  | routes (spec : Schema)

inductive Answer where
  | schema (outcome : Except Fault Schema)
  | expansion (outcome : Except Fault (Schema × Option DocComment))
  | routes (outcome : Except Fault (List Route))

namespace Setting

variable (s : Setting)

def answer : Request → StateM Session Answer
  | .evaluate e id => Answer.schema <$> (s.evaluate e id).outcome
  | .expand name origin => Answer.expansion <$> (s.expand name origin).outcome
  | .deref schema => Answer.schema <$> (s.deref schema).outcome
  | .routes spec => Answer.routes <$> (s.routes spec).outcome

/-- The answers to requests that are put one after the other. -/
def answers (requests : List Request) : StateM Session (List Answer) := requests.mapM s.answer

theorem steady_answer (request : Request) : Session.Steady (s.answer request) := by
  have hmap : ∀ {α : Type} {act : Eval α} (f : Except Fault α → Answer), act.Steady →
      Session.Steady (f <$> act.outcome) := fun f h => Session.Steady.bind h fun _ => .pure _
  cases request with
  | evaluate e id => exact hmap _ (s.steady_evaluate e id)
  | expand name origin => exact hmap _ (s.steady_expand name origin)
  | deref schema => exact hmap _ (s.steady_deref schema)
  | routes spec => exact hmap _ (s.steady_routes spec)

/-- No request leaves a trace in the names being expanded, whatever they are and however it ends,
and in a row of requests each gets the answer and asks the questions that it gets and asks when it
is the first one. -/
theorem answers_without_history :
    (∀ request session, (s.answer request session).2.expanding = session.expanding) ∧
    (∀ requests expanding asked, s.answers requests ⟨expanding, asked⟩ =
      (requests.map fun request => (s.answer request ⟨expanding, []⟩).1,
        ⟨expanding, asked ++ requests.flatMap fun request =>
          (s.answer request ⟨expanding, []⟩).2.asked⟩)) ∧
    ∀ requests, (s.answers requests .start).1 =
      requests.map fun request => (s.answer request .start).1 := by
  have hrow := Session.Steady.mapM_eq s.steady_answer
  refine ⟨fun request session => ?_, hrow, fun requests => ?_⟩
  · exact congrArg (·.2.expanding)
      ((s.steady_answer request).apply_eq session.expanding session.asked)
  · exact congrArg Prod.fst (hrow requests [] [])

end Setting

end CodecDocs
