import MountMatrix.Proofs.Recovery
import MountMatrix.Proofs.Turns

/-! # Runs at the same time

Runs over the matrix that share a store never make each other fail, whatever the order of their
calls. What is left under a key is decided by the last call about it and by whether it was ever
deleted.

* `getElem?_after_of_kept`, `eq_of_getElem?_after`, `mem_after_iff`: mixed calls, as seen by one key.
* `Job`, `Job.interleaved`: runs over the matrix under way at once.
* `state_interleaved_blocks`: runs that do not take turns are whole runs, one after the other.
* `interleaved_runs`: when every run has had its turns, they all have ended well, and the store
  holds what the last calls say.
-/

set_option autoImplicit false

namespace MountMatrix

/-! ## Calls about one key -/

namespace Call

/-- The calls about a key, in order. -/
def about (key : ResourceKey) (calls : List Call) : List Call :=
  calls.filter fun call => call.key = key

theorem about_concat_self {key : ResourceKey} {call : Call} (h : call.key = key)
    (calls : List Call) : about key (calls ++ [call]) = about key calls ++ [call] := by
  simp [about, h]

theorem about_concat_of_ne {key : ResourceKey} {call : Call} (h : call.key ≠ key)
    (calls : List Call) : about key (calls ++ [call]) = about key calls := by
  simp [about, h]

theorem exists_getLast?_about {key : ResourceKey} {call : Call} {calls : List Call}
    (hmem : call ∈ calls) (h : call.key = key) :
    ∃ last, (about key calls).getLast? = some last := by
  have habout : call ∈ about key calls := List.mem_filter.mpr ⟨hmem, decide_eq_true h⟩
  rw [← Option.isSome_iff_exists, List.getLast?_isSome]
  exact List.ne_nil_of_mem habout

end Call

section After
variable {calls : List Call} {store : Store} {k : ResourceKey}

theorem getElem?_after_concat (calls : List Call) (call : Call) (store : Store) (k : ResourceKey) :
    (Backend.memory.after (calls ++ [call]) store)[k]? =
      ((Backend.memory.after calls store).perform call).2[k]? := by
  rw [Backend.after_append]
  rfl

theorem getElem?_after_concat_of_ne {call : Call} (h : call.key ≠ k) (calls : List Call)
    (store : Store) :
    (Backend.memory.after (calls ++ [call]) store)[k]? =
      (Backend.memory.after calls store)[k]? := by
  rw [getElem?_after_concat, Store.getElem?_perform_of_ne _ k h]

/-- A key that no call is about keeps what it holds. -/
theorem getElem?_after_of_untouched (h : ∀ call ∈ calls, call.key ≠ k) (store : Store) :
    (Backend.memory.after calls store)[k]? = store[k]? :=
  Backend.after_of_step (P := fun later => later[k]? = store[k]?)
    (fun call hcall _ hbefore => (Store.getElem?_perform_of_ne _ k (h call hcall)).trans hbefore)
    rfl

/-- A value that is there and is never deleted stays. -/
theorem getElem?_after_of_kept {old : String} (hkept : .delete k ∉ calls)
    (hold : store[k]? = some old) : (Backend.memory.after calls store)[k]? = some old := by
  refine Backend.after_of_step (P := fun later => later[k]? = some old) ?_ hold
  intro call hcall later hlater
  show (later.perform call).2[k]? = some old
  cases call with
  | create key value =>
    rw [Store.getElem?_perform_create, hlater]
    rfl
  | delete key =>
    have hne : key ≠ k := fun heq => hkept (heq ▸ hcall)
    rw [Store.getElem?_perform_delete, if_neg hne, hlater]

/-- A value that was not there from the beginning on is one that a call has created. -/
theorem eq_of_getElem?_after {value held : String}
    (hvalue : ∀ offered, .create k offered ∈ calls → offered = value)
    (hnew : store[k]? = none ∨ .delete k ∈ calls)
    (hheld : (Backend.memory.after calls store)[k]? = some held) : held = value := by
  induction calls using List.reverseRecOn generalizing held with
  | nil =>
    rcases hnew with hfree | hdeleted
    · rw [Backend.after, hfree] at hheld
      cases hheld
    · cases hdeleted
  | append_singleton calls call ih =>
    have hbefore : ∀ offered, .create k offered ∈ calls → offered = value :=
      fun offered hmem => hvalue offered (List.mem_append_left _ hmem)
    have hstill (hcall : call ≠ .delete k) : store[k]? = none ∨ .delete k ∈ calls := by
      refine hnew.imp_right fun hdeleted => ?_
      rcases List.mem_append.mp hdeleted with hmem | hmem
      · exact hmem
      · exact absurd (List.mem_singleton.mp hmem).symm hcall
    by_cases hk : call.key = k
    · rw [getElem?_after_concat] at hheld
      cases call with
      | create key offered =>
        obtain rfl : key = k := hk
        rw [Store.getElem?_perform_create, if_pos rfl] at hheld
        cases hearlier : (Backend.memory.after calls store)[key]? with
        | none =>
          rw [hearlier] at hheld
          have hoffered := hvalue offered (List.mem_append_right _ List.mem_cons_self)
          rw [← Option.some.inj hheld, hoffered]
        | some earlier =>
          rw [hearlier] at hheld
          rw [← Option.some.inj hheld]
          exact ih hbefore (hstill (by simp)) hearlier
      | delete key =>
        obtain rfl : key = k := hk
        rw [Store.getElem?_perform_delete, if_pos rfl] at hheld
        cases hheld
    · rw [getElem?_after_concat_of_ne hk] at hheld
      exact ih hbefore (hstill fun heq => hk (congrArg Call.key heq)) hheld

/-- The last call about a key decides whether it is taken. -/
theorem mem_after_iff {last : Call} (h : (Call.about k calls).getLast? = some last) :
    k ∈ Backend.memory.after calls store ↔ ∃ value, last = .create k value := by
  rw [Std.ExtTreeMap.mem_iff_isSome_getElem?]
  induction calls using List.reverseRecOn with
  | nil => cases h
  | append_singleton calls call ih =>
    by_cases hk : call.key = k
    · rw [Call.about_concat_self hk, List.getLast?_concat] at h
      obtain rfl : call = last := Option.some.inj h
      rw [getElem?_after_concat]
      cases call with
      | create key value =>
        obtain rfl : key = k := hk
        rw [Store.getElem?_perform_create, if_pos rfl, Option.isSome_or]
        simp
      | delete key =>
        obtain rfl : key = k := hk
        rw [Store.getElem?_perform_delete, if_pos rfl]
        simp
    · rw [Call.about_concat_of_ne hk] at h
      rw [getElem?_after_concat_of_ne hk]
      exact ih h

end After

/-! ## Runs over the matrix -/

structure Job where
  action : Action
  regions : Regions
  deriving DecidableEq

namespace Job

variable {n : Nat}

/-- The runs of some jobs on one store, under way after the given turns. -/
def interleaved (jobs : Fin n → Job) (initial : Store) (turns : List (Fin n)) :
    Interleaving (Fin n) ResourceCalls Store CallFailure Unit :=
  Interleaving.afterTurns Backend.memory
    { runs := fun i => Manager.manageMatrix (jobs i).regions (jobs i).action, state := initial }
    turns

variable {jobs : Fin n → Job} {initial : Store} {turns : List (Fin n)}

theorem interleaved_append (jobs : Fin n → Job) (initial : Store) (first second : List (Fin n)) :
    interleaved jobs initial (first ++ second) =
      (interleaved jobs initial first).afterTurns Backend.memory second :=
  Interleaving.afterTurns_append _ _ _ _

theorem onCourse_interleaved (jobs : Fin n → Job) (initial : Store) (turns : List (Fin n)) :
    Manager.OnCourse (fun i => Call.forMatrix (jobs i).action (jobs i).regions) initial turns
      (interleaved jobs initial turns) :=
  Manager.onCourse_afterTurns (fun _ => Manager.follows_manageMatrix _ _) initial turns

theorem result?_interleaved (jobs : Fin n → Job) (initial : Store) (turns : List (Fin n))
    (i : Fin n) :
    ((interleaved jobs initial turns).runs i).result? =
      if turns.count i < 72 then none else some (.ok ()) := by
  have hfollows := (onCourse_interleaved jobs initial turns).follows i
  have hlength : (Call.forMatrix (jobs i).action (jobs i).regions).length = 72 :=
    Call.length_forMatrix _ _
  split
  next hcount =>
    rw [List.drop_eq_getElem_cons (hlength ▸ hcount)] at hfollows
    exact hfollows.result?_eq_none
  next hcount =>
    rw [List.drop_of_length_le (hlength ▸ Nat.le_of_not_lt hcount)] at hfollows
    exact hfollows.result?_eq

/-- Every call that was made is one of its run's calls. -/
theorem exists_job_of_mem {call : Call} (h : call ∈ (interleaved jobs initial turns).questions) :
    ∃ i, call ∈ Call.forMatrix (jobs i).action (jobs i).regions := by
  obtain ⟨i, hi⟩ := Interleaving.mem_questions.mp h
  rw [(onCourse_interleaved jobs initial turns).made i] at hi
  exact ⟨i, List.mem_of_mem_take hi⟩

/-- Whoever creates a resource gives it the value of the table. -/
theorem value_of_mem {region : String} {v : Variant} {resource : Resource} {value : String}
    (hresource : resource ∈ Resource.table)
    (h : .create (.ofResource region v resource) value ∈
      (interleaved jobs initial turns).questions) : value = resource.value := by
  obtain ⟨i, hi⟩ := exists_job_of_mem h
  obtain ⟨w, -, region', -, resource', hresource', heq⟩ := Call.mem_forMatrix_iff_ofAction.mp hi
  cases haction : (jobs i).action with
  | create =>
    rw [haction] at heq
    obtain ⟨hkey, hvalue⟩ := Call.create.inj heq
    obtain ⟨-, hsame, -⟩ := ResourceKey.ofResource_inj hresource' hresource hkey
    rw [← hvalue, hsame]
  | cleanup =>
    rw [haction] at heq
    cases heq

section Complete
variable (complete : ∀ i, 72 ≤ turns.count i)
include complete

theorem askedBy_eq (jobs : Fin n → Job) (initial : Store) (i : Fin n) :
    (interleaved jobs initial turns).askedBy i =
      Call.forMatrix (jobs i).action (jobs i).regions := by
  rw [(onCourse_interleaved jobs initial turns).made i, List.take_of_length_le]
  rw [Call.length_forMatrix]
  exact complete i

theorem exists_last (initial : Store) {i : Fin n} {k : ResourceKey}
    (hk : k ∈ ResourceKey.ofMatrix (jobs i).regions) :
    ∃ last, (Call.about k (interleaved jobs initial turns).questions).getLast? = some last := by
  rw [← Call.map_key_forMatrix (jobs i).action] at hk
  obtain ⟨call, hcall, hkey⟩ := List.mem_map.mp hk
  rw [← askedBy_eq complete jobs initial i] at hcall
  exact Call.exists_getLast?_about (Interleaving.mem_questions.mpr ⟨i, hcall⟩) hkey

/-- A resource of one of the runs is there in the end exactly if the last call about it was a
creation. It has its value from the beginning if that was never deleted, and else the one of the
table. -/
theorem getElem?_interleaved (initial : Store) {i : Fin n} {region : String} {v : Variant}
    {resource : Resource} (hresource : resource ∈ Resource.table)
    (howned : .ofResource region v resource ∈ ResourceKey.ofMatrix (jobs i).regions) :
    let last := interleaved jobs initial turns
    let key := ResourceKey.ofResource region v resource
    (key ∈ last.state ↔
      ∃ value, (Call.about key last.questions).getLast? = some (.create key value)) ∧
    (∀ old, initial[key]? = some old → .delete key ∉ last.questions →
      last.state[key]? = some old) ∧
    (initial[key]? = none ∨ .delete key ∈ last.questions → key ∈ last.state →
      last.state[key]? = some resource.value) := by
  intro last key
  have hstate : last.state = Backend.memory.after last.questions initial :=
    (onCourse_interleaved jobs initial turns).state
  obtain ⟨final, hfinal⟩ := exists_last complete initial howned
  rw [hstate]
  refine ⟨?_, fun old hold hkept => getElem?_after_of_kept hkept hold, fun hnew hmem => ?_⟩
  · rw [mem_after_iff hfinal]
    exact exists_congr fun value => by rw [hfinal, Option.some_inj]
  · rw [Std.ExtTreeMap.mem_iff_isSome_getElem?, Option.isSome_iff_exists] at hmem
    obtain ⟨held, hheld⟩ := hmem
    rw [hheld, eq_of_getElem?_after (fun _ hmem => value_of_mem hresource hmem) hnew hheld]

end Complete

theorem getElem?_of_unowned (initial : Store) (turns : List (Fin n)) {k : ResourceKey}
    (hk : ∀ i, k ∉ ResourceKey.ofMatrix (jobs i).regions) :
    (interleaved jobs initial turns).state[k]? = initial[k]? := by
  rw [(onCourse_interleaved jobs initial turns).state]
  refine getElem?_after_of_untouched (fun call hcall hkey => ?_) initial
  obtain ⟨i, hi⟩ := exists_job_of_mem hcall
  refine hk i ?_
  rw [← hkey, ← Call.map_key_forMatrix (jobs i).action]
  exact List.mem_map_of_mem hi

/-! ## Creations at the same time -/

section Creations
variable (creations : ∀ i, (jobs i).action = .create)
include creations

theorem delete_not_mem (initial : Store) (turns : List (Fin n)) (k : ResourceKey) :
    .delete k ∉ (interleaved jobs initial turns).questions := by
  intro hmem
  obtain ⟨i, hi⟩ := exists_job_of_mem hmem
  rw [creations i] at hi
  obtain ⟨_, _, heq⟩ := forMatrix_create hi
  cases heq

theorem getElem?_of_taken (turns : List (Fin n)) {k : ResourceKey} {old : String}
    (hold : initial[k]? = some old) : (interleaved jobs initial turns).state[k]? = some old := by
  rw [(onCourse_interleaved jobs initial turns).state]
  exact getElem?_after_of_kept (delete_not_mem creations initial turns k) hold

theorem getElem?_of_free (complete : ∀ i, 72 ≤ turns.count i) {i : Fin n} {region : String}
    {v : Variant} {resource : Resource} (hresource : resource ∈ Resource.table)
    (howned : .ofResource region v resource ∈ ResourceKey.ofMatrix (jobs i).regions)
    (hfree : initial[ResourceKey.ofResource region v resource]? = none) :
    (interleaved jobs initial turns).state[ResourceKey.ofResource region v resource]? =
      some resource.value := by
  obtain ⟨hmem, -, hvalue⟩ := getElem?_interleaved complete initial hresource howned
  refine hvalue (Or.inl hfree) (hmem.mpr ?_)
  obtain ⟨final, hfinal⟩ := exists_last complete initial howned
  obtain ⟨hmade, hkey⟩ := List.mem_filter.mp (List.mem_of_getLast? hfinal)
  rw [hfinal]
  cases final with
  | create key value =>
    obtain rfl : key = .ofResource region v resource := of_decide_eq_true hkey
    exact ⟨value, rfl⟩
  | delete key => exact absurd hmade (delete_not_mem creations initial turns key)

theorem state_interleaved_unique {turns' : List (Fin n)} (complete : ∀ i, 72 ≤ turns.count i)
    (complete' : ∀ i, 72 ≤ turns'.count i) :
    (interleaved jobs initial turns).state = (interleaved jobs initial turns').state := by
  apply Std.ExtTreeMap.ext_getElem?
  intro k
  cases hinitial : initial[k]? with
  | some old =>
    rw [getElem?_of_taken creations turns hinitial, getElem?_of_taken creations turns' hinitial]
  | none =>
    by_cases howned : ∃ i, k ∈ ResourceKey.ofMatrix (jobs i).regions
    · obtain ⟨i, hi⟩ := howned
      obtain ⟨v, _, region, _, resource, hresource, rfl⟩ := ResourceKey.mem_ofMatrix.mp hi
      rw [getElem?_of_free creations complete hresource hi hinitial,
        getElem?_of_free creations complete' hresource hi hinitial]
    · have hk : ∀ i, k ∉ ResourceKey.ofMatrix (jobs i).regions := not_exists.mp howned
      rw [getElem?_of_unowned initial turns hk, getElem?_of_unowned initial turns' hk]

end Creations

/-! ## One after the other -/

/-- The turns of runs that do not take turns: each has all of its own in a row. -/
def blocks (order : List (Fin n)) : List (Fin n) :=
  order.flatMap fun i => List.replicate 72 i

theorem blocks_concat (order : List (Fin n)) (i : Fin n) :
    blocks (order ++ [i]) = blocks order ++ List.replicate 72 i := by
  simp [blocks]

theorem mem_blocks {order : List (Fin n)} {i : Fin n} : i ∈ blocks order ↔ i ∈ order := by
  simp [blocks]

theorem le_count_blocks {order : List (Fin n)} {i : Fin n} (h : i ∈ order) :
    72 ≤ (blocks order).count i := by
  have hblock : List.replicate 72 i ∈ order.map fun i => List.replicate 72 i :=
    List.mem_map_of_mem h
  have hle := (List.sublist_flatten_of_mem hblock).count_le i
  rwa [List.count_replicate_self] at hle

/-- In blocks the runs are whole runs, each on the store that the ones before have left. -/
theorem state_interleaved_blocks (jobs : Fin n → Job) (initial : Store) {order : List (Fin n)}
    (distinct : order.Nodup) :
    (interleaved jobs initial (blocks order)).state =
      order.foldl (fun store i =>
        (Manager.manageMatrix (jobs i).regions (jobs i).action).leaves store) initial := by
  induction order using List.reverseRecOn with
  | nil => rfl
  | append_singleton order i ih =>
    obtain ⟨hearlier, -, hdisjoint⟩ := List.nodup_append.mp distinct
    have hfresh : i ∉ blocks order :=
      fun hmem => hdisjoint i (mem_blocks.mp hmem) i List.mem_cons_self rfl
    have hstart : (interleaved jobs initial (blocks order)).runs i =
        Manager.manageMatrix (jobs i).regions (jobs i).action :=
      Interleaving.runs_afterTurns_of_not_mem _ hfresh _
    have hsplit := interleaved_append jobs initial (blocks order) (List.replicate 72 i)
    rw [← blocks_concat] at hsplit
    have hcount := le_count_blocks (List.mem_append_right order (List.mem_singleton_self i))
    have hend := result?_interleaved jobs initial (blocks (order ++ [i])) i
    rw [if_neg (Nat.not_lt.mpr hcount), hsplit] at hend
    obtain ⟨-, hstate⟩ := Interleaving.run_of_afterTurns_replicate Backend.memory hend
    rw [hsplit, ← hstate, hstart, List.foldl_concat, ← ih hearlier]
    rfl

/-! ## In any order -/

/-- Runs that share a store, whatever the order of their turns: each makes its calls in order, and
one that has had its seventy-two turns has ended well. When all have, what is left under the key of
a resource is decided by the last call about it and by whether it was ever deleted, and nothing
else has changed. Runs that all create leave the same store in whatever order they went on, and it
is the one that they leave when they are run one after the other. -/
theorem interleaved_runs (jobs : Fin n → Job) (initial : Store) (turns : List (Fin n)) :
    let last := interleaved jobs initial turns
    (∀ i, last.askedBy i =
        (Call.forMatrix (jobs i).action (jobs i).regions).take (turns.count i) ∧
      (last.runs i).result? = if turns.count i < 72 then none else some (.ok ())) ∧
    ((∀ i, 72 ≤ turns.count i) →
      (∀ i, last.askedBy i = Call.forMatrix (jobs i).action (jobs i).regions ∧
        (last.askedBy i).length = 72 ∧ (last.runs i).result? = some (.ok ())) ∧
      (∀ i, ∀ v ∈ Variant.matrix,
        ∀ region ∈ [(jobs i).regions.primary, (jobs i).regions.failover],
        ∀ resource ∈ Resource.table,
          let key := ResourceKey.ofResource region v resource
          (key ∈ last.state ↔
            ∃ value, (Call.about key last.questions).getLast? = some (.create key value)) ∧
          (∀ old, initial[key]? = some old → .delete key ∉ last.questions →
            last.state[key]? = some old) ∧
          (initial[key]? = none ∨ .delete key ∈ last.questions → key ∈ last.state →
            last.state[key]? = some resource.value)) ∧
      (∀ key, (∀ i, key ∉ ResourceKey.ofMatrix (jobs i).regions) →
        last.state[key]? = initial[key]?) ∧
      ((∀ i, (jobs i).action = .create) →
        (∀ (key : ResourceKey) (old : String), initial[key]? = some old →
          last.state[key]? = some old) ∧
        (∀ i, ∀ v ∈ Variant.matrix,
          ∀ region ∈ [(jobs i).regions.primary, (jobs i).regions.failover],
          ∀ resource ∈ Resource.table,
            initial[ResourceKey.ofResource region v resource]? = none →
              last.state[ResourceKey.ofResource region v resource]? = some resource.value) ∧
        (∀ turns' : List (Fin n), (∀ i, 72 ≤ turns'.count i) →
          (interleaved jobs initial turns').state = last.state) ∧
        ∀ order : List (Fin n), order.Perm (List.finRange n) →
          last.state = order.foldl (fun store i =>
            ((Manager.manageMatrix (jobs i).regions (jobs i).action).run
              Backend.memory store).state) initial)) := by
  intro last
  have hmade := (onCourse_interleaved jobs initial turns).made
  have hresult := result?_interleaved jobs initial turns
  refine ⟨fun i => ⟨hmade i, hresult i⟩, fun complete => ⟨fun i => ?_, ?_, ?_, ?_⟩⟩
  · have hasked := askedBy_eq complete jobs initial i
    refine ⟨hasked, ?_, ?_⟩
    · rw [hasked, Call.length_forMatrix]
    · rw [hresult i, if_neg (Nat.not_lt.mpr (complete i))]
  · intro i v hv region hregion resource hresource
    have howned := ResourceKey.mem_ofMatrix.mpr ⟨v, hv, region, hregion, resource, hresource, rfl⟩
    exact getElem?_interleaved complete initial hresource howned
  · exact fun key hkey => getElem?_of_unowned initial turns hkey
  · intro creations
    refine ⟨fun key old hold => getElem?_of_taken creations turns hold, ?_, fun turns' complete' =>
      state_interleaved_unique creations complete' complete, fun order horder => ?_⟩
    · intro i v hv region hregion resource hresource hfree
      have howned := ResourceKey.mem_ofMatrix.mpr ⟨v, hv, region, hregion, resource, hresource, rfl⟩
      exact getElem?_of_free creations complete hresource howned hfree
    · have hblocks : ∀ i, 72 ≤ (blocks order).count i :=
        fun i => le_count_blocks (horder.mem_iff.mpr (List.mem_finRange i))
      have hdistinct : order.Nodup := horder.nodup_iff.mpr (List.nodup_finRange n)
      exact (state_interleaved_unique creations complete hblocks).trans
        (state_interleaved_blocks jobs initial hdistinct)

/-- Two creations that alternate leave what they leave one after the other. -/
theorem interleaved_runs_of_two :
    let jobs : Fin 2 → Job := fun _ => ⟨.create, .standard⟩
    let turns : List (Fin 2) := (List.replicate 72 [0, 1]).flatten
    let turns' : List (Fin 2) := List.replicate 72 1 ++ List.replicate 72 0
    (∀ i, 72 ≤ turns.count i) ∧ (∀ i, 72 ≤ turns'.count i) ∧ (∀ i, (jobs i).action = .create) ∧
      (∀ i, ((interleaved jobs ∅ turns).runs i).result? = some (.ok ())) ∧
      (interleaved jobs ∅ turns').state = (interleaved jobs ∅ turns).state ∧
      (interleaved jobs ∅ turns).state = [1, 0].foldl (fun store (_ : Fin 2) =>
        ((Manager.manageMatrix .standard .create).run Backend.memory store).state) ∅ := by
  intro jobs turns turns'
  have complete : ∀ i, 72 ≤ turns.count i := by decide +kernel
  have complete' : ∀ i, 72 ≤ turns'.count i := by decide +kernel
  obtain ⟨-, hcomplete⟩ := interleaved_runs jobs ∅ turns
  obtain ⟨hruns, -, -, hcreations⟩ := hcomplete complete
  obtain ⟨-, -, hunique, hserial⟩ := hcreations fun _ => rfl
  exact ⟨complete, complete', fun _ => rfl, fun i => (hruns i).2.2, hunique turns' complete',
    hserial [1, 0] (by decide)⟩

end Job

end MountMatrix
