import MountMatrix.Log

/-! # Dialogues

What a part of the program does, as a value: it reports notices, asks questions of its surroundings
and goes on with the answers, until it succeeds or fails. What the surroundings are is left open.

* `Interface`: the questions that can be asked, each with its type of answers.
* `Dialogue`: a finite course of notices and questions with a result.
* `Dialogue.bind`, `Dialogue.forEach`, `Dialogue.traverse`: one after the other, up to the first
  failure.
* `Responder`: surroundings with a state, which each answer may change.
* `Dialogue.run`: the course that a dialogue takes in given surroundings.
-/

set_option autoImplicit false

namespace MountMatrix

structure Interface where
  Question : Type
  Answer : Question → Type

/-- A course of notices and questions that ends in a value or a failure. -/
inductive Dialogue (I : Interface) (ε α : Type) where
  | finished (result : Except ε α)
  | note (notice : Notice) (rest : Dialogue I ε α)
  | ask (question : I.Question) (rest : I.Answer question → Dialogue I ε α)

namespace Dialogue

variable {I J : Interface} {ε ε' α β : Type}

/-! ## Composition -/

def succeed (value : α) : Dialogue I ε α :=
  finished (.ok value)

def fail (failure : ε) : Dialogue I ε α :=
  finished (.error failure)

/-- The second part follows when the first succeeds, and is given its value. -/
def bind : Dialogue I ε α → (α → Dialogue I ε β) → Dialogue I ε β
  | finished (.ok value), next => next value
  | finished (.error failure), _ => fail failure
  | note notice rest, next => note notice (rest.bind next)
  | ask question rest, next => ask question fun answer => (rest answer).bind next

def noteAll (notices : List Notice) (rest : Dialogue I ε α) : Dialogue I ε α :=
  notices.foldr note rest

/-- Does something for each element in turn, up to the first failure. -/
def forEach : List α → (α → Dialogue I ε Unit) → Dialogue I ε Unit
  | [], _ => succeed ()
  | x :: rest, act => (act x).bind fun _ => forEach rest act

/-- Does something for each element in turn, up to the first failure, and collects the values. -/
def traverse : List α → (α → Dialogue I ε β) → Dialogue I ε (List β)
  | [], _ => succeed []
  | x :: rest, act =>
    (act x).bind fun value => (traverse rest act).bind fun values => succeed (value :: values)

def mapError (f : ε → ε') : Dialogue I ε α → Dialogue I ε' α
  | finished result => finished (result.mapError f)
  | note notice rest => note notice (rest.mapError f)
  | ask question rest => ask question fun answer => (rest answer).mapError f

/-- The same course among wider surroundings: each question is put as a question of the wider
interface, whose answers serve as answers to it. -/
def within (put : I.Question → J.Question)
    (take : (question : I.Question) → J.Answer (put question) → I.Answer question) :
    Dialogue I ε α → Dialogue J ε α
  | finished result => finished result
  | note notice rest => note notice (rest.within put take)
  | ask question rest => ask (put question) fun answer =>
      (rest (take question answer)).within put take

theorem bind_assoc {γ : Type} (d : Dialogue I ε α) (f : α → Dialogue I ε β)
    (g : β → Dialogue I ε γ) : (d.bind f).bind g = d.bind fun value => (f value).bind g := by
  induction d with
  | finished result => cases result <;> rfl
  | note notice rest ih => exact congrArg (note notice) ih
  | ask question rest ih => exact congrArg (ask question) (funext ih)

theorem forEach_append (first second : List α) (act : α → Dialogue I ε Unit) :
    forEach (first ++ second) act =
      (forEach first act).bind fun _ => forEach second act := by
  induction first with
  | nil => rfl
  | cons x first ih => simp [forEach, bind_assoc, ih]

/-- A loop within a loop is one loop over all that the inner loops go over. -/
theorem forEach_flatMap (outer : List α) (inner : α → List β) (act : β → Dialogue I ε Unit) :
    forEach (outer.flatMap inner) act = forEach outer fun x => forEach (inner x) act := by
  induction outer with
  | nil => rfl
  | cons x outer ih => rw [List.flatMap_cons, forEach_append, ih, forEach]

theorem forEach_map (items : List α) (f : α → β) (act : β → Dialogue I ε Unit) :
    forEach (items.map f) act = forEach items fun x => act (f x) := by
  induction items with
  | nil => rfl
  | cons x items ih => rw [List.map_cons, forEach, forEach, ih]

end Dialogue

/-! ## Surroundings -/

/-- Surroundings that answer every question from their state, which an answer may change. -/
def Responder (I : Interface) (σ : Type) : Type :=
  (question : I.Question) → σ → I.Answer question × σ

/-- The same surroundings, which also keep every question they are asked, in order. -/
def Responder.traced {I : Interface} {σ : Type} (respond : Responder I σ) :
    Responder I (σ × List I.Question) :=
  fun question state =>
    let (answer, next) := respond question state.1
    (answer, next, state.2 ++ [question])

structure Outcome (σ ε α : Type) where
  result : Except ε α
  state : σ
  log : List Notice

def Dialogue.run {I : Interface} {σ ε α : Type} (respond : Responder I σ) :
    Dialogue I ε α → σ → Outcome σ ε α
  | finished result, state => ⟨result, state, []⟩
  | note notice rest, state =>
    let outcome := rest.run respond state
    { outcome with log := notice :: outcome.log }
  | ask question rest, state =>
    let (answer, next) := respond question state
    (rest answer).run respond next

/-! ## How composition runs -/

namespace Dialogue

variable {I : Interface} {σ ε α β : Type} (respond : Responder I σ)

@[simp]
theorem run_succeed (value : α) (state : σ) :
    (succeed (ε := ε) value).run respond state = ⟨.ok value, state, []⟩ := rfl

@[simp]
theorem run_fail (failure : ε) (state : σ) :
    (fail (α := α) failure).run respond state = ⟨.error failure, state, []⟩ := rfl

@[simp]
theorem run_finished (result : Except ε α) (state : σ) :
    (finished result).run respond state = ⟨result, state, []⟩ := rfl

@[simp]
theorem run_note (notice : Notice) (rest : Dialogue I ε α) (state : σ) :
    (note notice rest).run respond state =
      { rest.run respond state with log := notice :: (rest.run respond state).log } := rfl

@[simp]
theorem run_ask (question : I.Question) (rest : I.Answer question → Dialogue I ε α) (state : σ) :
    (ask question rest).run respond state =
      (rest (respond question state).1).run respond (respond question state).2 := rfl

@[simp]
theorem run_noteAll (notices : List Notice) (rest : Dialogue I ε α) (state : σ) :
    (noteAll notices rest).run respond state =
      { rest.run respond state with log := notices ++ (rest.run respond state).log } := by
  induction notices with
  | nil => rfl
  | cons notice notices ih =>
    exact congrArg (fun outcome => { outcome with log := notice :: outcome.log }) ih

/-- The second part starts where a successful first part ended, and its notices follow. -/
theorem run_bind (first : Dialogue I ε α) (next : α → Dialogue I ε β) (state : σ) :
    (first.bind next).run respond state =
      let outcome := first.run respond state
      match outcome.result with
      | .ok value =>
        let later := (next value).run respond outcome.state
        ⟨later.result, later.state, outcome.log ++ later.log⟩
      | .error failure => ⟨.error failure, outcome.state, outcome.log⟩ := by
  induction first generalizing state with
  | finished result => cases result <;> rfl
  | note notice rest ih =>
    have step := ih state
    simp only [bind, run, step]
    split <;> simp_all
  | ask question rest ih => exact ih _ _

theorem run_mapError {ε' : Type} (f : ε → ε') (d : Dialogue I ε α) (state : σ) :
    (d.mapError f).run respond state =
      ⟨(d.run respond state).result.mapError f, (d.run respond state).state,
        (d.run respond state).log⟩ := by
  induction d generalizing state with
  | finished result => rfl
  | note notice rest ih => simp [mapError, ih]
  | ask question rest ih => exact ih _ _

/-- Among wider surroundings a dialogue takes the course that it takes when its own questions are
answered as the wider surroundings answer them. -/
theorem run_within {J : Interface} (put : J.Question → I.Question)
    (take : (question : J.Question) → I.Answer (put question) → J.Answer question)
    (d : Dialogue J ε α) (state : σ) :
    (d.within put take).run respond state =
      d.run (fun question state =>
        (take question (respond (put question) state).1, (respond (put question) state).2))
        state := by
  induction d generalizing state with
  | finished result => rfl
  | note notice rest ih =>
    exact congrArg (fun outcome => { outcome with log := notice :: outcome.log }) (ih state)
  | ask question rest ih => exact ih _ _

end Dialogue

end MountMatrix
