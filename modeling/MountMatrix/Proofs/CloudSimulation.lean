import MountMatrix.Cloud.Client
import MountMatrix.Proofs.Likeness

/-! # The cloud as a store

For the regions that have clients the cloud does to its resources what a store does, with the same
faults in the way: each call is one request, signed for its own region, and the two stay equal call
by call. A call for any other region is refused before it becomes a request.

* `Call.toRequest`: the request that a call should become.
* `Backend.confinedTo`: a backend that knows some regions only.
* `Mirrors`, `step_mirrors`: a cloud and a store that hold the same, before and after a call.
* `backend_simulates_memory`: calls, and whole runs of the manager, in the cloud and on a store.
-/

set_option autoImplicit false

namespace MountMatrix

/-- A creation never replaces a parameter, and a deletion leaves no time in which to recover. -/
def Call.toRequest : Call → Request
  | .create ⟨region, .secret, name⟩ value => ⟨region, .createSecret name value⟩
  | .create ⟨region, .parameter, name⟩ value =>
    ⟨region, .putParameter name value "SecureString" false⟩
  | .delete ⟨region, .secret, name⟩ => ⟨region, .deleteSecret name true⟩
  | .delete ⟨region, .parameter, name⟩ => ⟨region, .deleteParameter name⟩

def Call.Within (regions : Regions) (call : Call) : Prop :=
  call.key.region ∈ regions.toList

instance (regions : Regions) (call : Call) : Decidable (call.Within regions) :=
  inferInstanceAs (Decidable (call.key.region ∈ regions.toList))

/-- Calls for other regions fail without a code and reach nothing. -/
def Backend.confinedTo {σ : Type} (regions : Regions) (backend : Backend σ) : Backend σ :=
  fun call state =>
    if call.Within regions then backend call state
    else (.error (Cloud.noClientError call.key.region), state)

namespace Cloud

/-! ## One call -/

/-- What the service does once the request has arrived. -/
def carryOut : Call → Cloud → Except ServiceError Unit × Cloud
  | .create key value => claim key value
  | .delete key => release key

theorem request_eq (call : Call) : request call = deliver call.toRequest (carryOut call) := by
  cases call with
  | create key value =>
    obtain ⟨region, kind, name⟩ := key
    cases kind <;> rfl
  | delete key =>
    obtain ⟨region, kind, name⟩ := key
    cases kind <;> rfl

theorem claim_eq (key : ResourceKey) (value : String) (cloud : Cloud) :
    verdict (claim key value cloud).1 = verdict (cloud.store.perform (.create key value)).1 ∧
      (claim key value cloud).2 =
        { cloud with store := (cloud.store.perform (.create key value)).2 } := by
  have hmem : key ∈ cloud.store ↔ cloud.store[key]?.isSome = true :=
    Std.ExtTreeMap.mem_iff_isSome_getElem?
  cases hkey : cloud.store[key]? with
  | none =>
    have hfree : key ∉ cloud.store := by simp [hmem, hkey]
    rw [claim, if_neg hfree, Store.perform_create_of_free hkey]
    exact ⟨rfl, rfl⟩
  | some old =>
    have htaken : key ∈ cloud.store := by simp [hmem, hkey]
    rw [claim, if_pos htaken, Store.perform_create_of_taken hkey]
    exact ⟨rfl, rfl⟩

theorem release_eq (key : ResourceKey) (cloud : Cloud) :
    verdict (release key cloud).1 = verdict (cloud.store.perform (.delete key)).1 ∧
      (release key cloud).2 = { cloud with store := (cloud.store.perform (.delete key)).2 } := by
  have hmem : key ∈ cloud.store ↔ cloud.store[key]?.isSome = true :=
    Std.ExtTreeMap.mem_iff_isSome_getElem?
  cases hkey : cloud.store[key]? with
  | none =>
    have hfree : key ∉ cloud.store := by simp [hmem, hkey]
    rw [release, if_neg hfree, Store.perform_delete_of_free hkey]
    exact ⟨rfl, rfl⟩
  | some old =>
    have htaken : key ∈ cloud.store := by simp [hmem, hkey]
    rw [release, if_pos htaken, Store.perform_delete_of_taken hkey]
    exact ⟨rfl, rfl⟩

theorem carryOut_eq (call : Call) (cloud : Cloud) :
    verdict (carryOut call cloud).1 = verdict (cloud.store.perform call).1 ∧
      (carryOut call cloud).2 = { cloud with store := (cloud.store.perform call).2 } := by
  cases call with
  | create key value => exact claim_eq key value cloud
  | delete key => exact release_eq key cloud

theorem backend_of_within {clients : Regions} {call : Call} (h : call.Within clients)
    (cloud : Cloud) :
    backend clients call cloud = deliver call.toRequest (carryOut call) cloud := by
  rw [← request_eq]
  exact if_pos h

theorem backend_of_not_within {clients : Regions} {call : Call} (h : ¬ call.Within clients)
    (cloud : Cloud) :
    backend clients call cloud = (.error (noClientError call.key.region), cloud) :=
  if_neg h

/-! ## Side by side -/

/-- A counted store that holds what the cloud holds, and has counted what has arrived there. -/
structure Mirrors (faults : List Fault) (cloud : Cloud) (mirror : Nat × Store) : Prop where
  reachable : cloud.reachable = true
  faults : cloud.faults = faults
  number : mirror.1 = cloud.requests.length
  store : mirror.2 = cloud.store

variable {clients : Regions} {faults : List Fault}

theorem step_mirrors {cloud : Cloud} {mirror : Nat × Store} (h : Mirrors faults cloud mirror)
    {call : Call} (hcall : call.Within clients) :
    verdict (backend clients call cloud).1 =
        verdict (Backend.memory.withFaults faults call mirror).1 ∧
      Mirrors faults (backend clients call cloud).2
        (Backend.memory.withFaults faults call mirror).2 := by
  obtain ⟨number, store⟩ := mirror
  obtain ⟨hreachable, hfaults, hnumber, hstore⟩ := h
  simp only at hnumber hstore
  subst hnumber hstore
  rw [backend_of_within hcall]
  cases hfault : Fault.find? faults cloud.requests.length with
  | some error =>
    rw [deliver_of_fault _ _ hreachable (hfaults ▸ hfault), Backend.withFaults_of_fault hfault]
    exact ⟨rfl, hreachable, hfaults, by simp, rfl⟩
  | none =>
    rw [deliver_of_no_fault _ _ hreachable (hfaults ▸ hfault), Backend.withFaults_of_no_fault hfault]
    obtain ⟨hanswer, hnext⟩ :=
      carryOut_eq call { cloud with requests := cloud.requests ++ [call.toRequest] }
    rw [hnext]
    exact ⟨hanswer, hreachable, hfaults, by simp, rfl⟩

theorem mirrors_self {cloud : Cloud} (reachable : cloud.reachable = true) :
    Mirrors cloud.faults cloud (cloud.requests.length, cloud.store) :=
  ⟨reachable, rfl, rfl, rfl⟩

theorem simulates_memory (clients : Regions) (faults : List Fault) :
    (backend clients).Simulates (Call.Within clients) (Mirrors faults)
      (Backend.memory.withFaults faults) :=
  fun _ _ hmirrors _ hcall => step_mirrors hmirrors hcall

theorem simulates_confined (clients : Regions) (faults : List Fault) :
    (backend clients).Simulates (fun _ => True) (Mirrors faults)
      ((Backend.memory.withFaults faults).confinedTo clients) := by
  intro cloud mirror hmirrors call _
  by_cases hcall : call.Within clients
  · rw [Backend.confinedTo, if_pos hcall]
    exact step_mirrors hmirrors hcall
  · rw [Backend.confinedTo, if_neg hcall, backend_of_not_within hcall]
    exact ⟨rfl, hmirrors⟩

/-! ## Requests -/

theorem requests_backend {cloud : Cloud} (reachable : cloud.reachable = true) (call : Call) :
    (backend clients call cloud).2.requests =
      cloud.requests ++ if call.Within clients then [call.toRequest] else [] := by
  by_cases hcall : call.Within clients
  · rw [backend_of_within hcall, if_pos hcall]
    cases hfault : Fault.find? cloud.faults cloud.requests.length with
    | some error => rw [deliver_of_fault _ _ reachable hfault]
    | none => rw [deliver_of_no_fault _ _ reachable hfault, (carryOut_eq _ _).2]
  · rw [backend_of_not_within hcall, if_neg hcall, List.append_nil]

theorem reachable_backend {cloud : Cloud} (reachable : cloud.reachable = true) (call : Call) :
    (backend clients call cloud).2.reachable = true :=
  (simulates_confined clients cloud.faults (mirrors_self reachable) call trivial).2.reachable

theorem requests_after {cloud : Cloud} (reachable : cloud.reachable = true) (calls : List Call) :
    ((backend clients).after calls cloud).requests =
      cloud.requests ++ (calls.filter fun call => call.Within clients).map Call.toRequest := by
  induction calls generalizing cloud with
  | nil => rw [Backend.after, List.filter_nil, List.map_nil, List.append_nil]
  | cons call calls ih =>
    rw [Backend.after, ih (reachable_backend reachable call), requests_backend reachable]
    by_cases hcall : call.Within clients <;> simp [hcall]

/-! ## Runs that leave the known regions -/

theorem exists_mem_exchanges {σ : Type} (served : Backend σ) {call : Call} {calls : List Call}
    (h : call ∈ calls) (state : σ) :
    ∃ later, ⟨call, (served call later).1⟩ ∈ served.exchanges calls state := by
  induction calls generalizing state with
  | nil => cases h
  | cons first calls ih =>
    rcases List.mem_cons.mp h with rfl | hrest
    · exact ⟨state, List.mem_cons_self⟩
    · obtain ⟨later, hlater⟩ := ih hrest (served first state).2
      exact ⟨later, List.mem_cons_of_mem _ hlater⟩

theorem not_tolerates {call : Call} {calls : List Call} (hmem : call ∈ calls)
    (hcall : ¬ call.Within clients) (cloud : Cloud) :
    ¬ (backend clients).Tolerates cloud calls := by
  intro htolerates
  obtain ⟨later, hlater⟩ := exists_mem_exchanges (backend clients) hmem cloud
  rw [backend_of_not_within hcall] at hlater
  have hcode : (noClientError call.key.region).code ≠ some call.harmlessCode := by
    simp [noClientError]
  have hnone := htolerates _ hlater
  rw [Exchange.failure?_of_not_harmless hcode] at hnone
  cases hnone

theorem exists_call_for {regions : Regions} {region : String} (h : region ∈ regions.toList)
    (action : Action) : ∃ call ∈ Call.forMatrix action regions, call.key.region = region := by
  obtain ⟨v, hv⟩ : ∃ v, v ∈ Variant.matrix := ⟨_, List.mem_cons_self⟩
  obtain ⟨resource, hresource⟩ : ∃ resource, resource ∈ Resource.table := ⟨_, List.mem_cons_self⟩
  refine ⟨Call.ofAction action region v resource, ?_, ?_⟩
  · exact Call.mem_forMatrix_iff_ofAction.mpr ⟨v, hv, region, h, resource, hresource, rfl⟩
  · rw [Call.key_ofAction, ResourceKey.ofResource]

theorem region_of_mem_forMatrix {action : Action} {regions : Regions} {call : Call}
    (h : call ∈ Call.forMatrix action regions) : call.key.region ∈ regions.toList := by
  obtain ⟨v, -, region, hregion, resource, -, rfl⟩ := Call.mem_forMatrix_iff_ofAction.mp h
  rw [Call.key_ofAction]
  exact hregion

/-! ## In the cloud as on a store -/

/-- A cloud that can be reached does with calls for the regions that have clients what a store with
the same faults does: one request for each call, answers with the same codes, and the same resources
after each of them. A call for any other region sends nothing, changes nothing and fails without a
code. So a run over the matrix ends in the cloud as on a store that knows the same regions only, with
the same reports; it ends as on any store if it stays within them, and badly if it does not. -/
theorem backend_simulates_memory (clients : Regions) (cloud : Cloud)
    (reachable : cloud.reachable = true) :
    let served := Cloud.backend clients
    let memory := Backend.memory.withFaults cloud.faults
    let mirror := (cloud.requests.length, cloud.store)
    let known := [clients.primary, clients.failover]
    (∀ calls : List Call, (∀ call ∈ calls, call.key.region ∈ known) →
      (served.after calls cloud).requests = cloud.requests ++ calls.map Call.toRequest ∧
      (served.exchanges calls cloud).map Exchange.gist =
        (memory.exchanges calls mirror).map Exchange.gist ∧
      ∀ n, (served.after (calls.take n) cloud).store = (memory.after (calls.take n) mirror).2) ∧
    (∀ (call : Call) (state : Cloud), call.key.region ∉ known →
      ∃ cause, served call state = (.error cause, state) ∧ cause.code = none) ∧
    (∀ (regions : Regions) (action : Action),
      let whole := Manager.manageMatrix regions action
      let real := whole.run served cloud
      let confined := whole.run (memory.confinedTo clients) mirror
      let plain := whole.run memory mirror
      (real.result.mapError CallFailure.gist = confined.result.mapError CallFailure.gist ∧
        real.state.store = confined.state.2 ∧ real.log = confined.log) ∧
      (∃ made, Ended served cloud (Call.forMatrix action regions) made real.result ∧
        real.state.requests = cloud.requests ++
          (made.filter fun call => call.Within clients).map Call.toRequest) ∧
      ((∀ region ∈ [regions.primary, regions.failover], region ∈ known) →
        real.result.mapError CallFailure.gist = plain.result.mapError CallFailure.gist ∧
        real.state.store = plain.state.2 ∧ real.log = plain.log) ∧
      ((∃ region ∈ [regions.primary, regions.failover], region ∉ known) →
        real.result ≠ .ok ())) := by
  intro served memory mirror known
  have hself : Mirrors cloud.faults cloud mirror := mirrors_self reachable
  have hmemory := simulates_memory clients cloud.faults
  refine ⟨fun calls hcalls => ⟨?_, (hmemory.after hcalls hself).1, fun n => ?_⟩,
    fun call state hcall => ⟨_, backend_of_not_within hcall state, rfl⟩, ?_⟩
  · have hwithin : ∀ call ∈ calls, call.Within clients := hcalls
    rw [requests_after reachable, List.filter_eq_self.mpr fun call hcall =>
      decide_eq_true (hwithin call hcall)]
  · have htaken : ∀ call ∈ calls.take n, call.Within clients :=
      fun call hcall => hcalls call (List.mem_of_mem_take hcall)
    exact (hmemory.after htaken hself).2.store.symm
  intro regions action whole real confined plain
  obtain ⟨made, hended, hstate⟩ :=
    (Manager.handles_manageMatrix regions action).exists_made served cloud
  refine ⟨?_, ⟨made, hended, ?_⟩, fun hknown => ?_, fun hunknown hok => ?_⟩
  · have halike : Manager.Alike (fun _ => True) (Manager.manageMatrix regions action)
        (Manager.manageMatrix regions action) :=
      Manager.alike_manageMatrix regions action fun _ _ => trivial
    obtain ⟨hresult, hend, hlog⟩ := halike.run (simulates_confined clients cloud.faults) hself
    exact ⟨hresult, hend.store.symm, hlog⟩
  · rw [hstate]
    exact requests_after reachable made
  · have halike : Manager.Alike (Call.Within clients) (Manager.manageMatrix regions action)
        (Manager.manageMatrix regions action) :=
      Manager.alike_manageMatrix regions action
        fun call hcall => hknown _ (region_of_mem_forMatrix hcall)
    obtain ⟨hresult, hend, hlog⟩ := halike.run hmemory hself
    exact ⟨hresult, hend.store.symm, hlog⟩
  · obtain ⟨region, hregion, hforeign⟩ := hunknown
    obtain ⟨call, hcall, rfl⟩ := exists_call_for hregion action
    exact not_tolerates hcall hforeign cloud (hended.result_eq_ok_iff.mp hok)

/-- A throttled deletion is a request like the others, and a region without a client ends a run. -/
theorem backend_simulates_memory_of_throttled :
    let cloud : Cloud := { faults := [⟨1, ⟨some "ThrottlingException", "slow down"⟩⟩] }
    let key : ResourceKey := ⟨"us-east-2", .parameter, "jsonSsm-arm-irsa"⟩
    let calls : List Call := [.create key "old", .delete key, .create key "new"]
    cloud.reachable = true ∧ (∀ call ∈ calls, call.key.region ∈ ["us-west-2", "us-east-2"]) ∧
      ((Cloud.backend .standard).after calls cloud).requests =
        [⟨"us-east-2", .putParameter "jsonSsm-arm-irsa" "old" "SecureString" false⟩,
         ⟨"us-east-2", .deleteParameter "jsonSsm-arm-irsa"⟩,
         ⟨"us-east-2", .putParameter "jsonSsm-arm-irsa" "new" "SecureString" false⟩] ∧
      ((Manager.manageMatrix ⟨"us-west-2", "eu-west-1"⟩ .create).run
        (Cloud.backend .standard) cloud).result ≠ .ok () := by
  intro cloud key calls
  have hcalls : ∀ call ∈ calls, call.key.region ∈ ["us-west-2", "us-east-2"] := by decide
  obtain ⟨hserved, -, hruns⟩ := backend_simulates_memory .standard cloud rfl
  obtain ⟨-, -, -, hforeign⟩ := hruns ⟨"us-west-2", "eu-west-1"⟩ .create
  exact ⟨rfl, hcalls, (hserved calls hcalls).1, hforeign ⟨"eu-west-1", by decide, by decide⟩⟩

end Cloud

end MountMatrix
