import MountMatrix.Proofs.StoreRun

/-! # Backends that cannot be told apart

The manager looks at the code of a failure and at nothing else. So backends whose answers agree but
for messages lead a run through the same calls to the same end.

* `verdict`, `CallFailure.gist`: what is left of an answer and of a failed run without messages.
* `Backend.Simulates`: related states give like answers and related states.
* `Alike`: runs that stay alike as long as the answers are.
* `Alike.run`: alike runs in backends that simulate one another.
-/

set_option autoImplicit false

namespace MountMatrix

/-! ## Without messages -/

/-- Success, or the code of the failure. -/
def verdict (answer : Except ServiceError Unit) : Except (Option String) Unit :=
  answer.mapError ServiceError.code

def CallFailure.gist (failure : CallFailure) : Call × Option String :=
  (failure.call, failure.cause.code)

def Exchange.gist (exchange : Exchange) : Call × Except (Option String) Unit :=
  (exchange.call, verdict exchange.answer)

theorem verdict_cases {a b : Except ServiceError Unit} (h : verdict a = verdict b) :
    (a = .ok () ∧ b = .ok ()) ∨
      ∃ cause cause', a = .error cause ∧ b = .error cause' ∧ cause.code = cause'.code := by
  cases a with
  | ok value =>
    cases b with
    | ok value' => exact Or.inl ⟨rfl, rfl⟩
    | error cause' => cases h
  | error cause =>
    cases b with
    | ok value' => cases h
    | error cause' => exact Or.inr ⟨cause, cause', rfl, rfl, Except.error.inj h⟩

/-! ## Like backends -/

namespace Backend

variable {σ τ : Type}

/-- On the calls of a kind two backends give like answers, as long as their states are related. -/
def Simulates (kind : Call → Prop) (related : σ → τ → Prop) (first : Backend σ)
    (second : Backend τ) : Prop :=
  ∀ ⦃state : σ⦄ ⦃state' : τ⦄, related state state' → ∀ call, kind call →
    verdict (first call state).1 = verdict (second call state').1 ∧
      related (first call state).2 (second call state').2

theorem Simulates.after {kind : Call → Prop} {related : σ → τ → Prop} {first : Backend σ}
    {second : Backend τ} (h : Simulates kind related first second) {calls : List Call}
    (hcalls : ∀ call ∈ calls, kind call) {state : σ} {state' : τ} (hstate : related state state') :
    (first.exchanges calls state).map Exchange.gist =
        (second.exchanges calls state').map Exchange.gist ∧
      related (first.after calls state) (second.after calls state') := by
  induction calls generalizing state state' with
  | nil => exact ⟨rfl, hstate⟩
  | cons call calls ih =>
    obtain ⟨hcall, hrest⟩ := List.forall_mem_cons.mp hcalls
    obtain ⟨hanswer, hnext⟩ := h hstate call hcall
    obtain ⟨hlater, hend⟩ := ih hrest hnext
    refine ⟨?_, hend⟩
    rw [exchanges, exchanges, List.map_cons, List.map_cons, hlater, Exchange.gist, Exchange.gist,
      hanswer]

end Backend

/-! ## Alike runs -/

namespace Manager

/-- Two runs that report the same and make the same calls, which are of the given kind, as long as
the answers are alike, and that end alike. -/
inductive Alike (kind : Call → Prop) : Run → Run → Prop where
  | finished {result result' : Except CallFailure Unit} :
      result.mapError CallFailure.gist = result'.mapError CallFailure.gist →
      Alike kind (.finished result) (.finished result')
  | note {part part' : Run} (notice : Notice) :
      Alike kind part part' → Alike kind (.note notice part) (.note notice part')
  | ask {call : Call} {rest rest' : Except ServiceError Unit → Run} :
      kind call → (∀ a b, verdict a = verdict b → Alike kind (rest a) (rest' b)) →
      Alike kind (.ask call rest) (.ask call rest')

variable {kind : Call → Prop}

theorem Alike.bind {first first' second : Run} (hfirst : Alike kind first first')
    (hsecond : Alike kind second second) :
    Alike kind (Dialogue.bind first fun _ => second) (Dialogue.bind first' fun _ => second) := by
  induction hfirst with
  | @finished result result' hresult =>
    cases result with
    | ok value =>
      cases result' with
      | ok value' => exact hsecond
      | error failure' => cases hresult
    | error failure =>
      cases result' with
      | ok value' => cases hresult
      | error failure' => exact Alike.finished hresult
  | note notice _ ih => exact Alike.note notice ih
  | ask hkind _ ih => exact Alike.ask hkind ih

theorem alike_settle {call : Call} (hcall : kind call) :
    Alike kind (settle call) (settle call) := by
  refine Alike.note _ (Alike.ask hcall fun a b hab => ?_)
  rcases verdict_cases hab with ⟨rfl, rfl⟩ | ⟨cause, cause', rfl, rfl, hcode⟩
  · exact Alike.finished rfl
  · by_cases hharmless : cause.code = some call.harmlessCode
    · have hharmless' : cause'.code = some call.harmlessCode := hcode ▸ hharmless
      simp only [if_pos hharmless, if_pos hharmless']
      exact Alike.note _ (Alike.finished rfl)
    · have hharmless' : cause'.code ≠ some call.harmlessCode := hcode ▸ hharmless
      simp only [if_neg hharmless, if_neg hharmless']
      refine Alike.finished ?_
      show Except.error (call, cause.code) = Except.error (call, cause'.code)
      rw [hcode]

theorem alike_forEach {α : Type} {act : α → Run} {xs : List α}
    (hact : ∀ x ∈ xs, Alike kind (act x) (act x)) :
    Alike kind (Dialogue.forEach xs act) (Dialogue.forEach xs act) := by
  induction xs with
  | nil => exact Alike.finished rfl
  | cons x xs ih =>
    obtain ⟨hx, hxs⟩ := List.forall_mem_cons.mp hact
    exact hx.bind (ih hxs)

theorem alike_manageMatrix (regions : Regions) (action : Action)
    (h : ∀ call ∈ Call.forMatrix action regions, kind call) :
    Alike kind (manageMatrix regions action) (manageMatrix regions action) := by
  refine Alike.note _ (Alike.bind (alike_forEach fun v hv => ?_)
    (Alike.note _ (Alike.finished rfl)))
  rw [manage_eq]
  refine Alike.note _ (alike_forEach fun call hcall => alike_settle (h call ?_))
  exact Call.mem_forMatrix.mpr ⟨v, hv, hcall⟩

/-- Like backends lead alike runs to like ends, with the same reports on the way. -/
theorem Alike.run {σ τ : Type} {related : σ → τ → Prop} {first : Backend σ} {second : Backend τ}
    {part part' : Run} (h : Alike kind part part')
    (hsimulates : first.Simulates kind related second)
    {state : σ} {state' : τ} (hstate : related state state') :
    (part.run first state).result.mapError CallFailure.gist =
        (part'.run second state').result.mapError CallFailure.gist ∧
      related (part.run first state).state (part'.run second state').state ∧
      (part.run first state).log = (part'.run second state').log := by
  induction h generalizing state state' with
  | finished hresult => exact ⟨hresult, hstate, rfl⟩
  | note notice _ ih =>
    obtain ⟨hresult, hend, hlog⟩ := ih hstate
    exact ⟨hresult, hend, congrArg (notice :: ·) hlog⟩
  | ask hkind _ ih =>
    obtain ⟨hanswer, hnext⟩ := hsimulates hstate _ hkind
    exact ih _ _ hanswer hnext

end Manager

end MountMatrix
