import MountMatrix.Dialogue

/-! # Loops up to the first failure

Dialogues whose end can be foretold without knowing the state that they start in, as long as an
invariant holds there. A loop of such dialogues is one itself.

* `Dialogue.Predictable`: one result and one log in all states of an invariant, and one change.
* `Predictable.traverse_ok`: a loop in which every turn succeeds.
* `Predictable.traverse_error`: a loop that stops at the first turn that fails.
-/

set_option autoImplicit false

namespace MountMatrix.Dialogue

variable {I : Interface} {σ ε α β : Type}

structure Predictable (respond : Responder I σ) (invariant : σ → Prop) (d : Dialogue I ε α)
    (result : Except ε α) (effect : σ → σ) (log : List Notice) : Prop where
  run_eq : ∀ state, invariant state → d.run respond state = ⟨result, effect state, log⟩
  keeps : ∀ state, invariant state → invariant (effect state)

namespace Predictable

variable {respond : Responder I σ} {invariant : σ → Prop}

theorem finished (result : Except ε α) :
    Predictable respond invariant (.finished result) result id [] where
  run_eq _ _ := rfl
  keeps _ h := h

theorem note {d : Dialogue I ε α} {result : Except ε α} {effect : σ → σ} {log : List Notice}
    (notice : Notice) (rest : Predictable respond invariant d result effect log) :
    Predictable respond invariant (.note notice d) result effect (notice :: log) where
  run_eq state h := by rw [run_note, rest.run_eq state h]
  keeps := rest.keeps

theorem bind_ok {d : Dialogue I ε α} (next : α → Dialogue I ε β) {value : α}
    {result : Except ε β} {effect effect' : σ → σ} {log log' : List Notice}
    (first : Predictable respond invariant d (.ok value) effect log)
    (second : Predictable respond invariant (next value) result effect' log') :
    Predictable respond invariant (d.bind next) result (effect' ∘ effect) (log ++ log') where
  run_eq state h := by
    rw [run_bind, first.run_eq state h]
    dsimp only
    rw [second.run_eq _ (first.keeps state h)]
    rfl
  keeps state h := second.keeps _ (first.keeps state h)

theorem bind_error {d : Dialogue I ε α} (next : α → Dialogue I ε β) {failure : ε}
    {effect : σ → σ} {log : List Notice}
    (first : Predictable respond invariant d (.error failure) effect log) :
    Predictable respond invariant (d.bind next) (.error failure) effect log where
  run_eq state h := by rw [run_bind, first.run_eq state h]
  keeps := first.keeps

/-! ## Loops -/

variable {act : α → Dialogue I ε β} {value : α → β} {effect : α → σ → σ}
  {log : α → List Notice}

theorem traverse_ok {items : List α}
    (succeeds : ∀ x ∈ items,
      Predictable respond invariant (act x) (.ok (value x)) (effect x) (log x)) :
    Predictable respond invariant (traverse items act) (.ok (items.map value))
      (fun state => items.foldl (fun state x => effect x state) state) (items.flatMap log) := by
  induction items with
  | nil => exact finished _
  | cons x rest ih =>
    have hx := succeeds x List.mem_cons_self
    have hrest := ih fun y hy => succeeds y (List.mem_cons_of_mem x hy)
    have hvalues := hrest.bind_ok (fun values => succeed (value x :: values)) (finished _)
    rw [List.append_nil] at hvalues
    exact hx.bind_ok (fun first => (traverse rest act).bind fun values =>
      succeed (first :: values)) hvalues

theorem traverse_error {before : List α} {x : α} (after : List α) {failure : ε} {stop : σ → σ}
    {stopLog : List Notice}
    (succeeds : ∀ y ∈ before,
      Predictable respond invariant (act y) (.ok (value y)) (effect y) (log y))
    (fails : Predictable respond invariant (act x) (.error failure) stop stopLog) :
    Predictable respond invariant (traverse (before ++ x :: after) act) (.error failure)
      (fun state => stop (before.foldl (fun state x => effect x state) state))
      (before.flatMap log ++ stopLog) := by
  induction before with
  | nil =>
    exact fails.bind_error fun first => (traverse after act).bind fun values =>
      succeed (first :: values)
  | cons y before ih =>
    have hy := succeeds y List.mem_cons_self
    have hrest := ih fun z hz => succeeds z (List.mem_cons_of_mem y hz)
    rw [List.flatMap_cons, List.append_assoc]
    exact hy.bind_ok (fun first => (traverse (before ++ x :: after) act).bind fun values =>
      succeed (first :: values)) (hrest.bind_error _)

end Predictable

end MountMatrix.Dialogue
