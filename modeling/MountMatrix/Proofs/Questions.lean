import MountMatrix.Dialogue

/-! # What a part asks

A part of the program that asks only certain questions depends on the answers to these and on
nothing else: it keeps whatever they keep, and cannot tell surroundings apart that agree on them.

* `Dialogue.Asks`: every question of a dialogue is of a certain kind.
* `Dialogue.Asks.run`: what each such question keeps is kept by the whole run.
* `Dialogue.Asks.run_agree`: surroundings that agree on such questions lead to the same end.
-/

set_option autoImplicit false

namespace MountMatrix

namespace Dialogue

variable {I : Interface} {ε α β σ τ : Type}

/-- Whatever is answered, every question is allowed. -/
inductive Asks (allowed : I.Question → Prop) : Dialogue I ε α → Prop
  | finished (result : Except ε α) : Asks allowed (.finished result)
  | note {rest : Dialogue I ε α} (notice : Notice) (later : Asks allowed rest) :
      Asks allowed (.note notice rest)
  | ask {question : I.Question} {rest : I.Answer question → Dialogue I ε α}
      (here : allowed question) (later : ∀ answer, Asks allowed (rest answer)) :
      Asks allowed (.ask question rest)

variable {allowed : I.Question → Prop}

theorem Asks.bind {first : Dialogue I ε α} {next : α → Dialogue I ε β} (h : first.Asks allowed)
    (hnext : ∀ value, (next value).Asks allowed) : (first.bind next).Asks allowed := by
  induction h with
  | finished result =>
    cases result with
    | ok value => exact hnext value
    | error failure => exact .finished _
  | note notice _ ih => exact .note notice ih
  | ask here _ ih => exact .ask here ih

theorem asks_traverse {act : α → Dialogue I ε β} {items : List α}
    (h : ∀ item ∈ items, (act item).Asks allowed) : (traverse items act).Asks allowed := by
  induction items with
  | nil => exact .finished _
  | cons item items ih =>
    obtain ⟨hitem, hitems⟩ := List.forall_mem_cons.mp h
    exact hitem.bind fun value => (ih hitems).bind fun values => .finished _

theorem asks_forEach {act : α → Dialogue I ε Unit} {items : List α}
    (h : ∀ item ∈ items, (act item).Asks allowed) : (forEach items act).Asks allowed := by
  induction items with
  | nil => exact .finished _
  | cons item items ih =>
    obtain ⟨hitem, hitems⟩ := List.forall_mem_cons.mp h
    exact hitem.bind fun _ => ih hitems

/-- What the answer to each allowed question keeps, the whole run keeps. -/
theorem Asks.run {d : Dialogue I ε α} (h : d.Asks allowed) {respond : Responder I σ} {P : σ → Prop}
    (hstep : ∀ question state, allowed question → P state → P (respond question state).2)
    {state : σ} (hstate : P state) : P (d.run respond state).state := by
  induction h generalizing state with
  | finished result => exact hstate
  | note notice _ ih => exact ih hstate
  | ask here _ ih => exact ih _ (hstep _ _ here hstate)

/-- Surroundings whose states are related, and stay so while they give the same answers to allowed
questions, lead to the same result with the same reports on the way. -/
theorem Asks.run_agree {d : Dialogue I ε α} (h : d.Asks allowed) {first : Responder I σ}
    {second : Responder I τ} {related : σ → τ → Prop}
    (hstep : ∀ question state state', allowed question → related state state' →
      (first question state).1 = (second question state').1 ∧
        related (first question state).2 (second question state').2)
    {state : σ} {state' : τ} (hstate : related state state') :
    (d.run first state).result = (d.run second state').result ∧
      related (d.run first state).state (d.run second state').state ∧
      (d.run first state).log = (d.run second state').log := by
  induction h generalizing state state' with
  | finished result => exact ⟨rfl, hstate, rfl⟩
  | note notice _ ih =>
    obtain ⟨hresult, hend, hlog⟩ := ih hstate
    exact ⟨hresult, hend, congrArg (notice :: ·) hlog⟩
  | @ask question rest here _ ih =>
    obtain ⟨hanswer, hnext⟩ := hstep question state state' here hstate
    rw [run_ask, run_ask, hanswer]
    exact ih _ hnext

theorem asks_of_any (d : Dialogue I ε α) : d.Asks fun _ => True := by
  induction d with
  | finished result => exact .finished result
  | note notice rest ih => exact .note notice ih
  | ask question rest ih => exact .ask trivial ih

/-- A second part that follows has the last word, on the state as on the result. -/
theorem run_bind_cases (first : Dialogue I ε α) (next : α → Dialogue I ε β)
    (respond : Responder I σ) (state : σ) :
    (∃ value, let before := (first.run respond state).state
      ((first.bind next).run respond state).result = ((next value).run respond before).result ∧
      ((first.bind next).run respond state).state = ((next value).run respond before).state) ∨
    ∃ failure, ((first.bind next).run respond state).result = .error failure ∧
      ((first.bind next).run respond state).state = (first.run respond state).state := by
  cases hresult : (first.run respond state).result with
  | ok value => exact .inl ⟨value, by simp only [run_bind, hresult, and_self]⟩
  | error failure => exact .inr ⟨failure, by simp only [run_bind, hresult, and_self]⟩

end Dialogue

end MountMatrix
