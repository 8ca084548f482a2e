import MountMatrix.Proofs.StoreRun

/-! # Running it again

A run may be cut short by any failure and may pass over resources that a harmless failure hides.
Whatever earlier runs made of a store, one run without faults brings it to where it belongs.

* `Invocation`, `storeAfter`: earlier runs, each with the faults put in its way.
* `Grown`: what creations make of a store, however far they got.
* `manageMatrix_recovers`: one more run without faults ends where it would have ended at once.
-/

set_option autoImplicit false

namespace MountMatrix

open Manager

/-! ## Histories -/

/-- One use of the manager, and the faults that meet its calls. -/
inductive Invocation where
  | manage (v : Variant) (action : Action) (faults : List Fault)
  | manageMatrix (action : Action) (faults : List Fault)

namespace Invocation

def part (regions : Regions) : Invocation → Run
  | .manage v action _ => Manager.manage regions v action
  | .manageMatrix action _ => Manager.manageMatrix regions action

def faults : Invocation → List Fault
  | .manage _ _ faults => faults
  | .manageMatrix _ faults => faults

def calls (regions : Regions) : Invocation → List Call
  | .manage v action _ => Call.forVariant action regions v
  | .manageMatrix action _ => Call.forMatrix action regions

def storeAfter (regions : Regions) (store : Store) (invocation : Invocation) : Store :=
  ((invocation.part regions).run (Backend.memory.withFaults invocation.faults) (0, store)).state.2

theorem handles_part (regions : Regions) (invocation : Invocation) :
    Handles (invocation.part regions) (invocation.calls regions) := by
  cases invocation with
  | manage v action => exact handles_manage regions v action
  | manageMatrix action => exact handles_manageMatrix regions action

end Invocation

def storeAfter (regions : Regions) (store : Store) (history : List Invocation) : Store :=
  history.foldl (Invocation.storeAfter regions) store

section
variable {regions : Regions}

/-- What each call of a history keeps is kept by the whole history, under any faults. -/
theorem storeAfter_of_step {P : Store → Prop} {history : List Invocation}
    (hstep : ∀ invocation ∈ history, ∀ call ∈ invocation.calls regions, ∀ store, P store →
      P (store.perform call).2)
    {store : Store} (hstore : P store) : P (storeAfter regions store history) := by
  induction history generalizing store with
  | nil => exact hstore
  | cons invocation history ih =>
    obtain ⟨hfirst, hrest⟩ := List.forall_mem_cons.mp hstep
    have hpart := invocation.handles_part regions
    exact ih hrest (hpart.run_withFaults hfirst invocation.faults hstore)

/-! ## Creating again -/

/-- Every value is the one from the beginning or, under a key that was free, the one created. -/
def Grown (regions : Regions) (initial store : Store) : Prop :=
  ∀ k : ResourceKey, store[k]? = initial[k]? ∨
    (initial[k]? = none ∧ store[k]? = Call.firstOffer? (Call.forMatrix .create regions) k)

theorem forMatrix_create {call : Call} (h : call ∈ Call.forMatrix .create regions) :
    ∃ key value, call = .create key value := by
  obtain ⟨v, -, region, -, resource, -, rfl⟩ := Call.mem_forMatrix_iff_ofAction.mp h
  exact ⟨_, _, rfl⟩

theorem forMatrix_cleanup {call : Call} (h : call ∈ Call.forMatrix .cleanup regions) :
    ∃ key, call = .delete key := by
  obtain ⟨v, -, region, -, resource, -, rfl⟩ := Call.mem_forMatrix_iff_ofAction.mp h
  exact ⟨_, rfl⟩

theorem Grown.perform {initial store : Store} (h : Grown regions initial store) {call : Call}
    (hcall : call ∈ Call.forMatrix .create regions) :
    Grown regions initial (store.perform call).2 := by
  obtain ⟨key, value, rfl⟩ := forMatrix_create hcall
  intro k
  rw [Store.getElem?_perform_create]
  by_cases hk : key = k
  · subst hk
    have hoffer := Call.firstOffer?_eq_some (List.Subset.refl _) hcall
    rw [if_pos rfl, hoffer]
    rcases h key with hsame | ⟨hfree, hnew⟩
    · rw [hsame]
      cases hinitial : initial[key]? with
      | none => exact Or.inr ⟨rfl, rfl⟩
      | some old => exact Or.inl rfl
    · rw [hnew, hoffer]
      exact Or.inr ⟨hfree, rfl⟩
  · rw [if_neg hk, Option.or_none]
    exact h k

/-- Where creations have grown a store, further ones lead to the same end. -/
theorem Grown.after_creates {initial store : Store} (h : Grown regions initial store) :
    Backend.memory.after (Call.forMatrix .create regions) store =
      Backend.memory.after (Call.forMatrix .create regions) initial := by
  apply Std.ExtTreeMap.ext_getElem?
  intro k
  rw [getElem?_after_creates store k fun _ => forMatrix_create,
    getElem?_after_creates initial k fun _ => forMatrix_create]
  rcases h k with hsame | ⟨hfree, hnew⟩
  · rw [hsame]
  · rw [hfree, hnew, Option.or_self, Option.none_or]

/-! ## Deleting again -/

theorem Invocation.key_mem_ofMatrix {invocation : Invocation} {call : Call}
    (h : call ∈ invocation.calls regions) : call.key ∈ ResourceKey.ofMatrix regions := by
  cases invocation with
  | manage v action => exact Call.key_mem_ofMatrix h
  | manageMatrix action =>
    obtain ⟨v, -, hcall⟩ := Call.mem_forMatrix.mp h
    exact Call.key_mem_ofMatrix hcall

theorem getElem?_storeAfter (initial : Store) (history : List Invocation) {k : ResourceKey}
    (hk : k ∉ ResourceKey.ofMatrix regions) :
    (storeAfter regions initial history)[k]? = initial[k]? := by
  apply storeAfter_of_step (P := fun store => store[k]? = initial[k]?) _ rfl
  intro invocation _ call hcall store hstore
  have hne : call.key ≠ k := by
    rintro rfl
    exact hk (Invocation.key_mem_ofMatrix hcall)
  rw [Store.getElem?_perform_of_ne store k hne, hstore]

theorem after_deletes (initial : Store) (history : List Invocation) :
    Backend.memory.after (Call.forMatrix .cleanup regions) (storeAfter regions initial history) =
      initial.filter fun key _ => key ∉ ResourceKey.ofMatrix regions := by
  rw [after_deletes_eq_filter _ fun _ => forMatrix_cleanup, Call.map_key_forMatrix]
  exact Store.filter_notMem_congr fun k hk => getElem?_storeAfter initial history hk

end

/-! ## Recovery -/

/-- After any creations with any faults, one more creation without faults ends well and leaves the
store that it would have left at the beginning. After any runs with any faults, one more cleanup
without faults ends well and leaves what the matrix does not own, as it was at the beginning. -/
theorem manageMatrix_recovers (initial : Store) (regions : Regions) :
    (∀ schedules : List (List Fault),
      let earlier := storeAfter regions initial (schedules.map (.manageMatrix .create))
      ((manageMatrix regions .create).run Backend.memory earlier).result = .ok () ∧
      ((manageMatrix regions .create).run Backend.memory earlier).state =
        ((manageMatrix regions .create).run Backend.memory initial).state) ∧
    (∀ history : List Invocation,
      let earlier := storeAfter regions initial history
      ((manageMatrix regions .cleanup).run Backend.memory earlier).result = .ok () ∧
      ((manageMatrix regions .cleanup).run Backend.memory earlier).state =
        initial.filter fun key _ => key ∉ ResourceKey.ofMatrix regions) := by
  refine ⟨?_, ?_⟩
  · intro schedules earlier
    have hgrown : Grown regions initial earlier := by
      apply storeAfter_of_step (P := Grown regions initial) _ fun k => Or.inl rfl
      intro invocation hmem call hcall store hstore
      obtain ⟨faults, -, rfl⟩ := List.mem_map.mp hmem
      exact hstore.perform hcall
    have hcreates := handles_manageMatrix regions .create
    obtain ⟨hok, hend⟩ := hcreates.run_memory earlier
    obtain ⟨-, hend'⟩ := hcreates.run_memory initial
    rw [hend, hend', hgrown.after_creates]
    exact ⟨hok, rfl⟩
  · intro history earlier
    obtain ⟨hok, hend⟩ := (handles_manageMatrix regions .cleanup).run_memory earlier
    rw [hend, after_deletes]
    exact ⟨hok, rfl⟩

end MountMatrix
