import MountMatrix.Resource.Manager

/-! # Stores

The secrets and parameters that exist, and surroundings in which the manager can run on them.

* `Store`: the value kept under each key that is taken.
* `Store.perform`: what a call does to a store, and how it is answered.
* `Backend`: surroundings that answer the manager's calls.
* `Backend.refusing`, `Backend.withFaults`: surroundings in which calls fail.
-/

set_option autoImplicit false

namespace MountMatrix

abbrev Store := Std.ExtTreeMap ResourceKey String

namespace Store

/-- Creating needs a free key and deleting a taken one; a failed call changes nothing. -/
def perform (call : Call) (store : Store) : Except ServiceError Unit × Store :=
  match call, store[call.key]? with
  | .create key value, none => (.ok (), store.insert key value)
  | .create key _, some _ =>
    (.error ⟨some key.kind.existsCode,
      "The " ++ key.kind.name ++ " " ++ key.name ++ " already exists."⟩, store)
  | .delete key, some _ => (.ok (), store.erase key)
  | .delete key, none =>
    (.error ⟨some key.kind.notFoundCode,
      key.kind.name ++ " " ++ key.name ++ " not found"⟩, store)

@[simp]
theorem perform_create_of_free {key : ResourceKey} {store : Store} (free : store[key]? = none)
    (value : String) :
    store.perform (.create key value) = (.ok (), store.insert key value) := by
  simp [perform, Call.key, free]

@[simp]
theorem perform_create_of_taken {key : ResourceKey} {store : Store} {old : String}
    (taken : store[key]? = some old) (value : String) :
    store.perform (.create key value) =
      (.error ⟨some key.kind.existsCode,
        "The " ++ key.kind.name ++ " " ++ key.name ++ " already exists."⟩, store) := by
  simp [perform, Call.key, taken]

@[simp]
theorem perform_delete_of_taken {key : ResourceKey} {store : Store} {old : String}
    (taken : store[key]? = some old) :
    store.perform (.delete key) = (.ok (), store.erase key) := by
  simp [perform, Call.key, taken]

@[simp]
theorem perform_delete_of_free {key : ResourceKey} {store : Store} (free : store[key]? = none) :
    store.perform (.delete key) =
      (.error ⟨some key.kind.notFoundCode, key.kind.name ++ " " ++ key.name ++ " not found"⟩,
        store) := by
  simp [perform, Call.key, free]

theorem code_of_perform_error {call : Call} {store : Store} {error : ServiceError}
    (h : (store.perform call).1 = .error error) : error.code = some call.harmlessCode := by
  unfold perform at h
  split at h <;> cases h <;> rfl

end Store

/-! ## Backends -/

abbrev Backend (σ : Type) := Responder ResourceCalls σ

namespace Backend

variable {σ : Type}

/-- Calls act on a store. -/
def memory : Backend Store :=
  fun call store => store.perform call

/-- Every call fails with the given code, and nothing changes. -/
def refusing (code : String) : Backend σ :=
  fun _ state => (.error ⟨some code, "injected failure"⟩, state)

/-- The calls are counted, and one whose number has a fault fails without reaching the backend. -/
def withFaults (faults : List Fault) (backend : Backend σ) : Backend (Nat × σ) :=
  fun call (number, state) =>
    match Fault.find? faults number with
    | some error => (.error error, number + 1, state)
    | none =>
      let (answer, next) := backend call state
      (answer, number + 1, next)

theorem withFaults_of_fault {faults : List Fault} {number : Nat} {error : ServiceError}
    (fault : Fault.find? faults number = some error) (backend : Backend σ) (call : Call)
    (state : σ) :
    backend.withFaults faults call (number, state) = (.error error, number + 1, state) := by
  simp [withFaults, fault]

theorem withFaults_of_no_fault {faults : List Fault} {number : Nat}
    (fault : Fault.find? faults number = none) (backend : Backend σ) (call : Call) (state : σ) :
    backend.withFaults faults call (number, state) =
      ((backend call state).1, number + 1, (backend call state).2) := by
  simp [withFaults, fault]

end Backend

end MountMatrix
