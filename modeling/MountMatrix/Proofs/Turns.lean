import Mathlib.Data.List.Induction
import Mathlib.Logic.Function.Basic
import MountMatrix.Proofs.StoreRun

/-! # Runs that take turns

Several runs of the manager share one store. Whoever has the turn makes one call, which is carried
out and answered before anyone else goes on; the turns may come in any order.

* `Dialogue.advance`: one turn of a dialogue, up to the answer to its next question.
* `run_advance`, `run_of_result?`: a run is the turns of its dialogue.
* `Interleaving`, `Interleaving.afterTurns`: dialogues under way, and where turns lead them.
* `Interleaving.run_afterTurns_replicate`: one dialogue's turns in a row are a run of it.
* `Follows`: a run that makes the given calls as long as none fails but harmlessly.
* `OnCourse`: after any turns, how far each run has come and what the store has seen.
-/

set_option autoImplicit false

namespace MountMatrix

/-! ## One turn -/

namespace Dialogue

variable {I : Interface} {σ ε α : Type}

/-- Goes on up to the answer to the next question, if there is one, and tells the question. -/
def advance (respond : Responder I σ) :
    Dialogue I ε α → σ → Dialogue I ε α × σ × Option I.Question
  | finished result, state => (finished result, state, none)
  | note _ rest, state => rest.advance respond state
  | ask question rest, state =>
    let (answer, next) := respond question state
    (rest answer, next, some question)

/-- The result of a dialogue that has no questions left. -/
def result? : Dialogue I ε α → Option (Except ε α)
  | finished result => some result
  | note _ rest => rest.result?
  | ask _ _ => none

theorem run_of_result? (respond : Responder I σ) {d : Dialogue I ε α} {result : Except ε α}
    (h : d.result? = some result) (state : σ) :
    (d.run respond state).result = result ∧ (d.run respond state).state = state := by
  induction d with
  | finished result' => exact ⟨Option.some.inj h, rfl⟩
  | note notice rest ih => exact ih h
  | ask question rest ih => cases h

/-- A run is a turn and then the run of what the turn leaves. -/
theorem run_advance (respond : Responder I σ) (d : Dialogue I ε α) (state : σ) :
    let later := (d.advance respond state).1.run respond (d.advance respond state).2.1
    (d.run respond state).result = later.result ∧ (d.run respond state).state = later.state := by
  induction d with
  | finished result => exact ⟨rfl, rfl⟩
  | note notice rest ih => exact ih
  | ask question rest ih => exact ⟨rfl, rfl⟩

end Dialogue

/-! ## Turns in any order -/

/-- Dialogues under way in the same surroundings, with all that they have asked so far. -/
structure Interleaving (ι : Type) (I : Interface) (σ ε α : Type) where
  runs : ι → Dialogue I ε α
  state : σ
  asked : List (ι × I.Question) := []

namespace Interleaving

variable {ι : Type} [DecidableEq ι] {I : Interface} {σ ε α : Type} (respond : Responder I σ)

/-- A turn of one of the dialogues. One that is at its end lets the turn pass. -/
def turn (now : Interleaving ι I σ ε α) (i : ι) : Interleaving ι I σ ε α :=
  let (rest, next, question?) := (now.runs i).advance respond now.state
  { runs := Function.update now.runs i rest
    state := next
    asked := now.asked ++ question?.toList.map fun question => (i, question) }

def afterTurns (start : Interleaving ι I σ ε α) (turns : List ι) : Interleaving ι I σ ε α :=
  turns.foldl (turn respond) start

def questions (now : Interleaving ι I σ ε α) : List I.Question :=
  now.asked.map Prod.snd

def askedBy (now : Interleaving ι I σ ε α) (i : ι) : List I.Question :=
  (now.asked.filter fun entry => entry.1 = i).map Prod.snd

theorem turn_of_passed {now : Interleaving ι I σ ε α} {i : ι} {rest : Dialogue I ε α} {next : σ}
    (h : (now.runs i).advance respond now.state = (rest, next, none)) :
    now.turn respond i = ⟨Function.update now.runs i rest, next, now.asked⟩ := by
  rw [turn, h]
  simp

theorem turn_of_asked {now : Interleaving ι I σ ε α} {i : ι} {rest : Dialogue I ε α} {next : σ}
    {question : I.Question}
    (h : (now.runs i).advance respond now.state = (rest, next, some question)) :
    now.turn respond i =
      ⟨Function.update now.runs i rest, next, now.asked ++ [(i, question)]⟩ := by
  rw [turn, h]
  rfl

theorem askedBy_append (runs : ι → Dialogue I ε α) (state : σ) (asked : List (ι × I.Question))
    (i j : ι) (question : I.Question) :
    askedBy ⟨runs, state, asked ++ [(i, question)]⟩ j =
      askedBy ⟨runs, state, asked⟩ j ++ if i = j then [question] else [] := by
  by_cases h : i = j <;> simp [askedBy, h]

theorem afterTurns_append (start : Interleaving ι I σ ε α) (first second : List ι) :
    start.afterTurns respond (first ++ second) =
      (start.afterTurns respond first).afterTurns respond second :=
  List.foldl_append

/-- A dialogue that has no turn does not move. -/
theorem runs_afterTurns_of_not_mem {i : ι} {turns : List ι} (h : i ∉ turns)
    (start : Interleaving ι I σ ε α) : (start.afterTurns respond turns).runs i = start.runs i := by
  induction turns generalizing start with
  | nil => rfl
  | cons j turns ih =>
    obtain ⟨hne, hrest⟩ := not_or.mp (mt List.mem_cons.mpr h)
    have hturn : (start.turn respond j).runs i = start.runs i := Function.update_of_ne hne _ _
    exact (ih hrest (start.turn respond j)).trans hturn

/-- However many turns a dialogue has in a row, the run from there on ends as the run from here. -/
theorem run_afterTurns_replicate (k : Nat) (now : Interleaving ι I σ ε α) (i : ι) :
    let later := now.afterTurns respond (List.replicate k i)
    let whole := (now.runs i).run respond now.state
    let rest := (later.runs i).run respond later.state
    whole.result = rest.result ∧ whole.state = rest.state := by
  induction k generalizing now with
  | zero => exact ⟨rfl, rfl⟩
  | succ k ih =>
    obtain ⟨hresult, hstate⟩ := Dialogue.run_advance respond (now.runs i) now.state
    have hself : (now.turn respond i).runs i = ((now.runs i).advance respond now.state).1 :=
      Function.update_self _ _ _
    obtain ⟨hresult', hstate'⟩ := ih (now.turn respond i)
    rw [hself] at hresult' hstate'
    exact ⟨hresult.trans hresult', hstate.trans hstate'⟩

/-- Turns in a row that bring a dialogue to its end are its whole run. -/
theorem run_of_afterTurns_replicate {k : Nat} {now : Interleaving ι I σ ε α} {i : ι}
    {result : Except ε α}
    (h : ((now.afterTurns respond (List.replicate k i)).runs i).result? = some result) :
    ((now.runs i).run respond now.state).result = result ∧
      ((now.runs i).run respond now.state).state =
        (now.afterTurns respond (List.replicate k i)).state := by
  obtain ⟨hresult, hstate⟩ := run_afterTurns_replicate respond k now i
  obtain ⟨hend, hkept⟩ := Dialogue.run_of_result? respond h
    (now.afterTurns respond (List.replicate k i)).state
  exact ⟨hresult.trans hend, hstate.trans hkept⟩

theorem mem_questions {now : Interleaving ι I σ ε α} {question : I.Question} :
    question ∈ now.questions ↔ ∃ i, question ∈ now.askedBy i := by
  simp [questions, askedBy]

end Interleaving

/-! ## Runs that follow their calls -/

namespace Manager

/-- As long as no call fails but harmlessly, the run makes these calls and no more, and ends
well. -/
inductive Follows : Run → List Call → Prop where
  | done : Follows (.finished (.ok ())) []
  | note {part : Run} {calls : List Call} (notice : Notice) :
      Follows part calls → Follows (.note notice part) calls
  | ask {call : Call} {calls : List Call} {rest : Except ServiceError Unit → Run} :
      (∀ answer, Exchange.failure? ⟨call, answer⟩ = none → Follows (rest answer) calls) →
      Follows (.ask call rest) (call :: calls)

theorem Follows.bind {first second : Run} {calls calls' : List Call} (hfirst : Follows first calls)
    (hsecond : Follows second calls') :
    Follows (Dialogue.bind first fun _ => second) (calls ++ calls') := by
  induction hfirst with
  | done => exact hsecond
  | note notice _ ih => exact Follows.note notice ih
  | ask _ ih => exact Follows.ask ih

theorem follows_settle (call : Call) : Follows (settle call) [call] := by
  refine Follows.note _ (Follows.ask fun answer hanswer => ?_)
  cases answer with
  | ok value => exact Follows.done
  | error cause =>
    by_cases hcode : cause.code = some call.harmlessCode
    · simp only [if_pos hcode]
      exact Follows.note _ Follows.done
    · rw [Exchange.failure?_of_not_harmless hcode] at hanswer
      cases hanswer

theorem follows_forEach {α : Type} {act : α → Run} {calls : α → List Call}
    (hact : ∀ x, Follows (act x) (calls x)) (xs : List α) :
    Follows (Dialogue.forEach xs act) (xs.flatMap calls) := by
  induction xs with
  | nil => exact Follows.done
  | cons x xs ih => exact (hact x).bind ih

theorem follows_manage (regions : Regions) (v : Variant) (action : Action) :
    Follows (manage regions v action) (Call.forVariant action regions v) := by
  rw [manage_eq, ← List.flatMap_singleton' (Call.forVariant action regions v)]
  exact Follows.note _ (follows_forEach follows_settle _)

theorem follows_manageMatrix (regions : Regions) (action : Action) :
    Follows (manageMatrix regions action) (Call.forMatrix action regions) := by
  rw [← List.append_nil (Call.forMatrix action regions)]
  have hloop := follows_forEach (fun v => follows_manage regions v action) Variant.matrix
  exact Follows.note _ (hloop.bind (Follows.note _ Follows.done))

section
variable {σ : Type} {part : Run} {call : Call} {calls : List Call}

theorem Follows.result?_eq (h : Follows part []) : part.result? = some (.ok ()) := by
  generalize hcalls : ([] : List Call) = calls at h
  induction h with
  | done => rfl
  | note notice _ ih => exact ih hcalls
  | ask => cases hcalls

theorem Follows.result?_eq_none (h : Follows part (call :: calls)) : part.result? = none := by
  generalize hcalls : call :: calls = calls' at h
  induction h with
  | done => cases hcalls
  | note notice _ ih => exact ih hcalls
  | ask => rfl

/-- With no calls left a turn passes. -/
theorem Follows.advance_nil (h : Follows part []) (backend : Backend σ) (state : σ) :
    ∃ rest, part.advance backend state = (rest, state, none) ∧ Follows rest [] := by
  generalize hcalls : ([] : List Call) = calls at h
  induction h with
  | done => exact ⟨_, rfl, Follows.done⟩
  | note notice _ ih => exact ih hcalls
  | ask => cases hcalls

/-- With calls left a turn makes the first of them. -/
theorem Follows.advance_cons (h : Follows part (call :: calls)) {backend : Backend σ} {state : σ}
    (hanswer : Exchange.failure? ⟨call, (backend call state).1⟩ = none) :
    ∃ rest, part.advance backend state = (rest, (backend call state).2, some call) ∧
      Follows rest calls := by
  generalize hcalls : call :: calls = calls' at h
  induction h with
  | done => cases hcalls
  | note notice _ ih => exact ih hcalls
  | ask hrest =>
    obtain ⟨rfl, rfl⟩ := List.cons.inj hcalls
    exact ⟨_, rfl, hrest _ hanswer⟩

end

/-! ## After any turns -/

section OnCourse
variable {ι : Type} [DecidableEq ι]

/-- Each run has made as many of its calls as it has had turns, in order, and would go on with the
others; the store has seen the calls of all runs in the order in which they were made. -/
structure OnCourse (plan : ι → List Call) (initial : Store) (turns : List ι)
    (now : Interleaving ι ResourceCalls Store CallFailure Unit) : Prop where
  made : ∀ i, now.askedBy i = (plan i).take (turns.count i)
  follows : ∀ i, Follows (now.runs i) ((plan i).drop (turns.count i))
  state : now.state = Backend.memory.after now.questions initial

variable {plan : ι → List Call} {initial : Store} {turns : List ι}
  {now : Interleaving ι ResourceCalls Store CallFailure Unit}

theorem take_turn (plan : ι → List Call) (turns : List ι) (i j : ι) :
    (plan j).take ((turns ++ [i]).count j) = (plan j).take (turns.count j) ++
      if i = j then ((plan i).drop (turns.count i)).head?.toList else [] := by
  by_cases hij : i = j
  · subst hij
    rw [List.count_append, List.count_singleton_self, List.take_add_one, List.head?_drop,
      if_pos rfl]
  · simp [hij]

theorem OnCourse.follows_turn (h : OnCourse plan initial turns now) {i : ι} {rest : Run}
    (hrest : Follows rest ((plan i).drop (turns.count i)).tail) (j : ι) :
    Follows (Function.update now.runs i rest j) ((plan j).drop ((turns ++ [i]).count j)) := by
  by_cases hij : i = j
  · subst hij
    rw [Function.update_self, List.count_append, List.count_singleton_self, ← List.tail_drop]
    exact hrest
  · have hcount : (turns ++ [i]).count j = turns.count j := by simp [hij]
    rw [Function.update_of_ne (Ne.symm hij), hcount]
    exact h.follows j

theorem OnCourse.turn (h : OnCourse plan initial turns now) (i : ι) :
    OnCourse plan initial (turns ++ [i]) (now.turn Backend.memory i) := by
  have hfollows := h.follows i
  cases hleft : (plan i).drop (turns.count i) with
  | nil =>
    rw [hleft] at hfollows
    obtain ⟨rest, hadvance, hrest⟩ := hfollows.advance_nil Backend.memory now.state
    rw [Interleaving.turn_of_passed _ hadvance]
    refine ⟨fun j => ?_, h.follows_turn (by rw [hleft]; exact hrest), h.state⟩
    rw [take_turn, hleft, ← h.made j]
    simp [Interleaving.askedBy]
  | cons call calls =>
    rw [hleft] at hfollows
    have hanswer := Backend.tolerates_singleton.mp (memory_tolerates now.state [call])
    obtain ⟨rest, hadvance, hrest⟩ := hfollows.advance_cons hanswer
    rw [Interleaving.turn_of_asked _ hadvance]
    refine ⟨fun j => ?_, h.follows_turn (by rw [hleft]; exact hrest), ?_⟩
    · rw [Interleaving.askedBy_append, take_turn, hleft, ← h.made j]
      rfl
    · rw [Interleaving.questions, List.map_append, Backend.after_append, h.state]
      rfl

theorem onCourse_afterTurns {parts : ι → Run} (hparts : ∀ i, Follows (parts i) (plan i))
    (initial : Store) (turns : List ι) :
    OnCourse plan initial turns
      (Interleaving.afterTurns Backend.memory { runs := parts, state := initial } turns) := by
  induction turns using List.reverseRecOn with
  | nil => exact ⟨fun i => rfl, hparts, rfl⟩
  | append_singleton turns i ih =>
    rw [Interleaving.afterTurns, List.foldl_concat]
    exact ih.turn i

end OnCourse

end Manager

end MountMatrix
