import MountMatrix.Proofs.Questions
import MountMatrix.Proofs.StoreRun

/-! # Runs that do not meet

A run for a variant asks for keys whose names end in the variant's name, and what it comes to
depends on the entries under these keys alone. Two variants that differ in more than their colours
share no such key, so that neither run can tell whether the other has been there.

* `Variant.Owns`: the keys that carry the name of a variant.
* `Store.AgreeOn`: stores that hold the same under some keys.
* `Manager.asks_manage`: a run asks for keys of its variant only.
* `manage_agree`, `manage_keeps`: what a run depends on, and what it leaves alone.
* `manage_commute`: runs for different variants, in either order.
-/

set_option autoImplicit false

namespace MountMatrix

/-! ## Owners -/

/-- The key's name is made for the variant. -/
def Variant.Owns (v : Variant) (key : ResourceKey) : Prop :=
  ∃ base, key.name = v.resourceName base

theorem Variant.Owns.unique {v w : Variant} {key : ResourceKey} (hv : v.Owns key)
    (hw : w.Owns key) : v.arch = w.arch ∧ v.auth = w.auth := by
  obtain ⟨base, hbase⟩ := hv
  obtain ⟨base', hbase'⟩ := hw
  exact (eq_of_resourceName_eq (hbase.symm.trans hbase')).2

theorem Variant.Owns.not_of_ne {v w : Variant} (hne : v.arch ≠ w.arch ∨ v.auth ≠ w.auth)
    {key : ResourceKey} (hv : v.Owns key) : ¬ w.Owns key := by
  intro hw
  obtain ⟨harch, hauth⟩ := hv.unique hw
  rcases hne with hne | hne
  · exact hne harch
  · exact hne hauth

namespace Manager

theorem asks_settle {allowed : Call → Prop} {call : Call} (h : allowed call) :
    (settle call).Asks allowed := by
  refine .note _ (.ask h fun answer => ?_)
  cases answer with
  | ok value => exact .finished _
  | error cause =>
    dsimp only
    split
    · exact .note _ (.finished _)
    · exact .finished _

theorem asks_manage (regions : Regions) (v : Variant) (action : Action) :
    (manage regions v action).Asks fun call : Call => v.Owns call.key := by
  rw [manage_eq]
  refine .note _ (Dialogue.asks_forEach fun call hcall => asks_settle ?_)
  obtain ⟨region, -, resource, -, rfl⟩ := Call.mem_forVariant.mp hcall
  rw [Call.key_ofAction]
  exact ⟨resource.baseName, rfl⟩

end Manager

/-! ## Stores that agree -/

namespace Store

/-- The stores hold the same under each of the keys. -/
def AgreeOn (keys : ResourceKey → Prop) (store store' : Store) : Prop :=
  ∀ key, keys key → store[key]? = store'[key]?

variable {keys : ResourceKey → Prop} {store store' : Store}

/-- A call is answered by what is kept under its key. -/
theorem answer_congr {call : Call} (h : store[call.key]? = store'[call.key]?) :
    (store.perform call).1 = (store'.perform call).1 := by
  rw [perform.eq_def, perform.eq_def, h]
  split <;> rfl

theorem AgreeOn.perform (h : AgreeOn keys store store') {call : Call} (hcall : keys call.key) :
    (store.perform call).1 = (store'.perform call).1 ∧
      AgreeOn keys (store.perform call).2 (store'.perform call).2 := by
  refine ⟨answer_congr (h call.key hcall), fun k hk => ?_⟩
  cases call with
  | create key value => rw [getElem?_perform_create, getElem?_perform_create, h k hk]
  | delete key => rw [getElem?_perform_delete, getElem?_perform_delete, h k hk]

/-- The same, for stores and the calls that they have been asked so far. -/
def AgreeOnTraced (keys : ResourceKey → Prop) (state state' : Store × List Call) : Prop :=
  AgreeOn keys state.1 state'.1 ∧ state.2 = state'.2

theorem AgreeOnTraced.perform {state state' : Store × List Call}
    (h : AgreeOnTraced keys state state') {call : Call} (hcall : keys call.key) :
    (Backend.memory.traced call state).1 = (Backend.memory.traced call state').1 ∧
      AgreeOnTraced keys (Backend.memory.traced call state).2
        (Backend.memory.traced call state').2 := by
  obtain ⟨hstore, hcalls⟩ := h
  obtain ⟨hanswer, hnext⟩ := hstore.perform hcall
  exact ⟨hanswer, hnext, congrArg (· ++ [call]) hcalls⟩

end Store

/-! ## What a run depends on -/

namespace Manager

section
variable {v : Variant} (regions : Regions) (action : Action) {store store' : Store}

/-- Stores that agree on the variant's keys make no difference to the run. -/
theorem manage_agree (h : Store.AgreeOn v.Owns store store') :
    (manage regions v action).report store = (manage regions v action).report store' ∧
      Store.AgreeOn v.Owns ((manage regions v action).leaves store)
        ((manage regions v action).leaves store') := by
  have hstart : Store.AgreeOnTraced v.Owns (store, []) (store', []) := ⟨h, rfl⟩
  obtain ⟨hresult, ⟨hstore, hcalls⟩, hlog⟩ := (asks_manage regions v action).run_agree
    (fun _ _ _ hcall hstate => hstate.perform hcall) hstart
  obtain ⟨hresult₁, hstate₁, hlog₁⟩ :=
    Dialogue.run_traced Backend.memory (manage regions v action) store []
  obtain ⟨hresult₂, hstate₂, hlog₂⟩ :=
    Dialogue.run_traced Backend.memory (manage regions v action) store' []
  refine ⟨?_, ?_⟩
  · rw [Run.report, Run.report, hcalls, hlog₁, hlog, ← hlog₂, hresult₁, hresult, ← hresult₂]
  · rw [Run.leaves, Run.leaves, hstate₁, hstate₂]
    exact hstore

theorem manage_keeps (store : Store) {key : ResourceKey} (hkey : ¬ v.Owns key) :
    ((manage regions v action).leaves store)[key]? = store[key]? := by
  rw [Run.leaves]
  refine (asks_manage regions v action).run (P := fun after : Store => after[key]? = store[key]?)
    ?_ rfl
  intro call after hcall hafter
  have hne : call.key ≠ key := by
    rintro rfl
    exact hkey hcall
  rw [Backend.memory, Store.getElem?_perform_of_ne after key hne, hafter]

end

/-! ## In either order -/

section
variable {v w : Variant} (hne : v.arch ≠ w.arch ∨ v.auth ≠ w.auth) (regions regions' : Regions)
  (action action' : Action) (initial : Store)
include hne

theorem agreeOn_leaves :
    Store.AgreeOn v.Owns initial ((manage regions' w action').leaves initial) :=
  fun _ hkey => (manage_keeps regions' action' initial (hkey.not_of_ne hne)).symm

/-- Under a key of the first variant only its own run counts. -/
theorem getElem?_leaves_leaves {key : ResourceKey} (hkey : v.Owns key) :
    ((manage regions' w action').leaves ((manage regions v action).leaves initial))[key]? =
      ((manage regions v action).leaves ((manage regions' w action').leaves initial))[key]? := by
  rw [manage_keeps regions' action' _ (hkey.not_of_ne hne)]
  exact (manage_agree regions action (agreeOn_leaves hne regions' action' initial)).2 key hkey

end

/-- Runs for variants that differ in more than their colours leave the same store in either order,
and each makes the same calls, with the same notices and the same result, whether it is the first
or the second. -/
theorem manage_commute (v w : Variant) (hne : v.arch ≠ w.arch ∨ v.auth ≠ w.auth)
    (regions regions' : Regions) (action action' : Action) (initial : Store) :
    let first := manage regions v action
    let second := manage regions' w action'
    second.leaves (first.leaves initial) = first.leaves (second.leaves initial) ∧
      first.report initial = first.report (second.leaves initial) ∧
      second.report (first.leaves initial) = second.report initial := by
  intro first second
  have hne' : w.arch ≠ v.arch ∨ w.auth ≠ v.auth := hne.imp Ne.symm Ne.symm
  refine ⟨?_, ?_, ?_⟩
  · apply Std.ExtTreeMap.ext_getElem?
    intro key
    by_cases hv : v.Owns key
    · exact getElem?_leaves_leaves hne regions regions' action action' initial hv
    by_cases hw : w.Owns key
    -- the same with the two runs in each other's place
    · exact (getElem?_leaves_leaves hne' regions' regions action' action initial hw).symm
    · rw [manage_keeps regions' action' _ hw, manage_keeps regions action _ hv,
        manage_keeps regions action _ hv, manage_keeps regions' action' _ hw]
  · exact (manage_agree regions action (agreeOn_leaves hne regions' action' initial)).1
  · exact (manage_agree regions' action' (agreeOn_leaves hne' regions action initial)).1.symm

/-- A cleanup for one variant and a creation for another, in regions that overlap. -/
theorem manage_commute_of_two_modes :
    let cleanup := manage .standard ⟨.x64, .irsa, "CYAN", "36"⟩ .cleanup
    let create := manage ⟨"us-east-2", "us-east-2"⟩ ⟨.x64, .podIdentity, "CYAN", "36"⟩ .create
    AuthMode.irsa ≠ AuthMode.podIdentity ∧
      create.leaves (cleanup.leaves ∅) = cleanup.leaves (create.leaves ∅) ∧
      create.report (cleanup.leaves ∅) = create.report ∅ := by
  intro cleanup create
  have hne : AuthMode.irsa ≠ AuthMode.podIdentity := by decide
  obtain ⟨hstore, -, hreport⟩ := manage_commute ⟨.x64, .irsa, "CYAN", "36"⟩
    ⟨.x64, .podIdentity, "CYAN", "36"⟩ (.inr hne) .standard ⟨"us-east-2", "us-east-2"⟩ .cleanup
    .create ∅
  exact ⟨hne, hstore, hreport⟩

end Manager

end MountMatrix
