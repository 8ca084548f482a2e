import MountMatrix.Proofs.ManagerRun

/-! # Runs on a store

What calls do to the values that a store keeps. Without faults a run settles every resource; with
faults it makes some of its calls, and whatever these calls keep intact stays intact.

* `getElem?_perform_create`, `getElem?_perform_delete`: one call, as seen by one key.
* `getElem?_after_creates`, `getElem?_after_deletes`: many calls, as seen by one key.
* `Run.report`, `Run.leaves`: what can be seen of a run without faults, and the store after it.
* `Handles.run_memory`: a run without faults makes all its calls and ends well.
* `Handles.run_withFaults`: a run keeps what its calls keep, under any faults.
-/

set_option autoImplicit false

namespace MountMatrix

/-! ## One call -/

namespace Store

variable (store : Store) (key k : ResourceKey)

theorem getElem?_perform_create (value : String) :
    (store.perform (.create key value)).2[k]? =
      store[k]?.or (if key = k then some value else none) := by
  by_cases hk : key = k
  · subst hk
    rw [if_pos rfl]
    cases hkey : store[key]? with
    | none =>
      rw [perform_create_of_free hkey, Std.ExtTreeMap.getElem?_insert_self]
      rfl
    | some old =>
      rw [perform_create_of_taken hkey, hkey]
      rfl
  · rw [if_neg hk, Option.or_none]
    cases hkey : store[key]? with
    | none =>
      have hne : compare key k ≠ .eq := fun heq => hk (Std.LawfulEqOrd.eq_of_compare heq)
      rw [perform_create_of_free hkey, Std.ExtTreeMap.getElem?_insert, if_neg hne]
    | some old => rw [perform_create_of_taken hkey]

theorem getElem?_perform_delete :
    (store.perform (.delete key)).2[k]? = if key = k then none else store[k]? := by
  by_cases hk : key = k
  · subst hk
    rw [if_pos rfl]
    cases hkey : store[key]? with
    | none => rw [perform_delete_of_free hkey, hkey]
    | some old => rw [perform_delete_of_taken hkey, Std.ExtTreeMap.getElem?_erase_self]
  · rw [if_neg hk]
    cases hkey : store[key]? with
    | none => rw [perform_delete_of_free hkey]
    | some old =>
      have hne : compare key k ≠ .eq := fun heq => hk (Std.LawfulEqOrd.eq_of_compare heq)
      rw [perform_delete_of_taken hkey, Std.ExtTreeMap.getElem?_erase, if_neg hne]

theorem getElem?_perform_of_ne {call : Call} (h : call.key ≠ k) :
    (store.perform call).2[k]? = store[k]? := by
  cases call with
  | create key value =>
    have hk : key ≠ k := h
    rw [getElem?_perform_create, if_neg hk, Option.or_none]
  | delete key =>
    have hk : key ≠ k := h
    rw [getElem?_perform_delete, if_neg hk]

/-! ## Entries apart from some keys -/

section
variable {store} {store' : Store} {keys : List ResourceKey}

theorem getElem?_filter_notMem (store : Store) (keys : List ResourceKey) (k : ResourceKey) :
    (store.filter fun key _ => key ∉ keys)[k]? = if k ∈ keys then none else store[k]? := by
  rw [Std.ExtTreeMap.getElem?_filter']
  by_cases hk : k ∈ keys
  · rw [if_pos hk]
    simp [hk]
  · rw [if_neg hk]
    cases store[k]? with
    | none => rfl
    | some value => rw [Option.filter_some, if_pos (decide_eq_true hk)]

theorem filter_notMem_congr (h : ∀ key ∉ keys, store[key]? = store'[key]?) :
    (store.filter fun key _ => key ∉ keys) = store'.filter fun key _ => key ∉ keys := by
  apply Std.ExtTreeMap.ext_getElem?
  intro k
  rw [getElem?_filter_notMem, getElem?_filter_notMem]
  exact ite_congr rfl (fun _ => rfl) (h k)

end

end Store

/-! ## Many calls -/

namespace Call

def offer? (key : ResourceKey) : Call → Option String
  | .create key' value => if key' = key then some value else none
  | .delete _ => none

/-- The first value that the calls would put under a key. -/
def firstOffer? (calls : List Call) (key : ResourceKey) : Option String :=
  calls.findSome? (offer? key)

theorem firstOffer?_cons (call : Call) (calls : List Call) (key : ResourceKey) :
    firstOffer? (call :: calls) key = (offer? key call).or (firstOffer? calls key) := by
  rw [firstOffer?, List.findSome?_cons]
  cases offer? key call <;> rfl

theorem exists_create_of_firstOffer? {calls : List Call} {key : ResourceKey} {value : String}
    (h : firstOffer? calls key = some value) : .create key value ∈ calls := by
  obtain ⟨call, hmem, hoffer⟩ := List.exists_of_findSome?_eq_some h
  cases call with
  | create key' value' =>
    rw [offer?] at hoffer
    split at hoffer
    · next hkey =>
      subst hkey
      rwa [Option.some.inj hoffer] at hmem
    · cases hoffer
  | delete key' => cases hoffer

/-- Whatever part of the calls for the matrix is made, a key is offered one value. -/
theorem firstOffer?_eq_some {regions : Regions} {calls : List Call}
    (hcalls : calls ⊆ forMatrix .create regions) {key : ResourceKey} {value : String}
    (h : .create key value ∈ calls) : firstOffer? calls key = some value := by
  have hsome : (firstOffer? calls key).isSome := by
    rw [firstOffer?, List.findSome?_isSome_iff]
    exact ⟨_, h, by rw [offer?, if_pos rfl]; rfl⟩
  obtain ⟨value', hvalue'⟩ := Option.isSome_iff_exists.mp hsome
  rw [hvalue', value_unique (hcalls (exists_create_of_firstOffer? hvalue')) (hcalls h)]

end Call

section After
variable {calls : List Call} (store : Store) (k : ResourceKey)

/-- Values that are there stay, and the first offer fills a free key. -/
theorem getElem?_after_creates (h : ∀ call ∈ calls, ∃ key value, call = .create key value) :
    (Backend.memory.after calls store)[k]? = store[k]?.or (Call.firstOffer? calls k) := by
  induction calls generalizing store with
  | nil => exact (Option.or_none).symm
  | cons call calls ih =>
    obtain ⟨hcall, hcalls⟩ := List.forall_mem_cons.mp h
    obtain ⟨key, value, rfl⟩ := hcall
    have hstep := store.getElem?_perform_create key k value
    rw [Backend.after, ih _ hcalls, Backend.memory, hstep, Call.firstOffer?_cons, Option.or_assoc]
    rfl

theorem getElem?_after_deletes (h : ∀ call ∈ calls, ∃ key, call = .delete key) :
    (Backend.memory.after calls store)[k]? =
      if k ∈ calls.map Call.key then none else store[k]? := by
  induction calls generalizing store with
  | nil => rfl
  | cons call calls ih =>
    obtain ⟨hcall, hcalls⟩ := List.forall_mem_cons.mp h
    obtain ⟨key, rfl⟩ := hcall
    have hstep := store.getElem?_perform_delete key k
    rw [Backend.after, ih _ hcalls, Backend.memory, hstep, List.map_cons]
    by_cases hk : key = k
    · subst hk
      simp [Call.key]
    · have hne : k ≠ key := fun heq => hk heq.symm
      simp [Call.key, hk, hne]

/-- Deletions leave the entries that they are not about. -/
theorem after_deletes_eq_filter (h : ∀ call ∈ calls, ∃ key, call = .delete key) :
    Backend.memory.after calls store = store.filter fun key _ => key ∉ calls.map Call.key := by
  apply Std.ExtTreeMap.ext_getElem?
  intro k
  rw [getElem?_after_deletes store k h, Store.getElem?_filter_notMem]

end After

/-! ## Runs -/

section Runs
variable {σ : Type} {calls made : List Call}

theorem Ended.made_subset {backend : Backend σ} {state : σ} {result : Except CallFailure Unit}
    (h : Ended backend state calls made result) : made ⊆ calls := by
  cases h with
  | through => exact List.Subset.refl _
  | @stopped before rest call _ _ _ _ =>
    rw [List.append_cons before call rest]
    exact List.subset_append_left _ _

/-- What each of the calls keeps is kept by all of them. -/
theorem Backend.after_of_step {backend : Backend σ} {P : σ → Prop}
    (hstep : ∀ call ∈ calls, ∀ state, P state → P (backend call state).2) {state : σ}
    (hstate : P state) : P (backend.after calls state) := by
  induction calls generalizing state with
  | nil => exact hstate
  | cons call calls ih =>
    obtain ⟨hcall, hcalls⟩ := List.forall_mem_cons.mp hstep
    exact ih hcalls (hcall state hstate)

theorem memory_tolerates (store : Store) (calls : List Call) :
    Backend.memory.Tolerates store calls := by
  induction calls generalizing store with
  | nil => exact fun _ hmem => absurd hmem List.not_mem_nil
  | cons call calls ih =>
    refine List.forall_mem_cons.mpr ⟨?_, ih _⟩
    cases hanswer : (Backend.memory call store).1 with
    | ok value => rfl
    | error cause => exact Exchange.failure?_of_harmless (Store.code_of_perform_error hanswer)

namespace Manager

/-- What can be seen of a run on a store, but for the store. -/
structure Report where
  calls : List Call
  log : List Notice
  result : Except CallFailure Unit

/-- The report of a run on a store that nothing disturbs. -/
def Run.report (part : Run) (store : Store) : Report where
  calls := (part.run Backend.memory.traced (store, [])).state.2
  log := (part.run Backend.memory store).log
  result := (part.run Backend.memory store).result

/-- The store that a run leaves. -/
def Run.leaves (part : Run) (store : Store) : Store :=
  (part.run Backend.memory store).state

variable {part : Run}

/-- Where a run ends, every call that it made has taken effect. -/
theorem Handles.exists_made (h : Handles part calls) (backend : Backend σ) (state : σ) :
    ∃ made, Ended backend state calls made (part.run backend state).result ∧
      (part.run backend state).state = backend.after made state := by
  obtain ⟨hresult, hstate, -⟩ := Dialogue.run_traced backend part state []
  obtain ⟨made, hended, htraced, -⟩ := h backend state []
  rw [hresult, hstate, htraced]
  exact ⟨made, hended, rfl⟩

theorem Handles.run_memory (h : Handles part calls) (store : Store) :
    (part.run Backend.memory store).result = .ok () ∧
      (part.run Backend.memory store).state = Backend.memory.after calls store := by
  obtain ⟨made, hended, hstate⟩ := h.exists_made Backend.memory store
  have hok := hended.result_eq_ok_iff.mpr (memory_tolerates store calls)
  refine ⟨hok, ?_⟩
  rw [hok] at hended
  rw [hstate]
  cases hended
  rfl

theorem withFaults_state (faults : List Fault) (call : Call) (number : Nat) (store : Store) :
    (Backend.memory.withFaults faults call (number, store)).2.2 = store ∨
      (Backend.memory.withFaults faults call (number, store)).2.2 = (store.perform call).2 := by
  rw [Backend.withFaults]
  split
  · exact Or.inl rfl
  · exact Or.inr rfl

theorem Handles.run_withFaults (h : Handles part calls) {P : Store → Prop}
    (hstep : ∀ call ∈ calls, ∀ store, P store → P (store.perform call).2) (faults : List Fault)
    {store : Store} (hstore : P store) :
    P (part.run (Backend.memory.withFaults faults) (0, store)).state.2 := by
  obtain ⟨made, hended, hstate⟩ := h.exists_made (Backend.memory.withFaults faults) (0, store)
  have hmade := hended.made_subset
  rw [hstate]
  refine Backend.after_of_step (P := fun state : Nat × Store => P state.2) ?_ hstore
  rintro call hcall ⟨number, store⟩ hbefore
  rcases withFaults_state faults call number store with hsame | hdone
  · show P (Backend.memory.withFaults faults call (number, store)).2.2
    rw [hsame]
    exact hbefore
  · show P (Backend.memory.withFaults faults call (number, store)).2.2
    rw [hdone]
    exact hstep call (hmade hcall) store hbefore

end Manager

end Runs

end MountMatrix
