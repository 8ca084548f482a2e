import MountMatrix.Proofs.Recovery

/-! # What a store owes to its history

Runs of the manager leave traces of their own making only. Whatever regions, variants and actions
they were given, and wherever a failure cut them short, an entry of the store has been there from
the beginning on or is one that a creation was to make, and an entry that no run is about is left
as it was.

* `Invocation.action`, `Invocation.variants`: what an invocation does, and for which variants.
* `Use`, `storeAfterUses`: a history of invocations, each in regions of its own.
* `Accounted`: what a history can have made of a store, one call after the other.
* `entries_after_uses`: the entries of the store after a history.
-/

set_option autoImplicit false

namespace MountMatrix

open Manager

/-! ## Uses -/

namespace Invocation

def action : Invocation → Action
  | .manage _ action _ => action
  | .manageMatrix action _ => action

def variants : Invocation → List Variant
  | .manage v _ _ => [v]
  | .manageMatrix _ _ => Variant.matrix

theorem mem_calls {regions : Regions} {invocation : Invocation} {call : Call} :
    call ∈ invocation.calls regions ↔
      ∃ v ∈ invocation.variants, ∃ region ∈ [regions.primary, regions.failover],
        ∃ resource ∈ Resource.table, Call.ofAction invocation.action region v resource = call := by
  cases invocation with
  | manage v purpose faults =>
    rw [calls, variants, action, Call.mem_forVariant]
    simp only [List.mem_singleton, exists_eq_left]
  | manageMatrix purpose faults =>
    rw [calls, variants, action]
    exact Call.mem_forMatrix_iff_ofAction

end Invocation

/-- One invocation of the manager, in regions of its own. -/
structure Use where
  regions : Regions
  invocation : Invocation

namespace Use

def calls (use : Use) : List Call :=
  use.invocation.calls use.regions

def storeAfter (store : Store) (use : Use) : Store :=
  use.invocation.storeAfter use.regions store

end Use

def storeAfterUses (initial : Store) (history : List Use) : Store :=
  history.foldl Use.storeAfter initial

/-! ## Accounts -/

section
variable {history : List Use} {initial store : Store}

/-- Every entry is from the beginning or one that some call of the history offers; what no call is
about is as at the beginning; and what no call deletes is still there. -/
structure Accounted (history : List Use) (initial store : Store) : Prop where
  origin : ∀ (key : ResourceKey) (value : String), store[key]? = some value →
    initial[key]? = some value ∨ ∃ use ∈ history, .create key value ∈ use.calls
  untouched : ∀ key : ResourceKey, (∀ use ∈ history, ∀ call ∈ use.calls, call.key ≠ key) →
    store[key]? = initial[key]?
  kept : ∀ (key : ResourceKey) (value : String), (∀ use ∈ history, .delete key ∉ use.calls) →
    initial[key]? = some value → store[key]? = some value

theorem Accounted.refl (history : List Use) (initial : Store) :
    Accounted history initial initial where
  origin _ _ h := .inl h
  untouched _ _ := rfl
  kept _ _ _ h := h

theorem Accounted.perform (h : Accounted history initial store) {use : Use} (huse : use ∈ history)
    {call : Call} (hcall : call ∈ use.calls) :
    Accounted history initial (store.perform call).2 where
  origin key value hvalue := by
    cases call with
    | create key' value' =>
      rw [Store.getElem?_perform_create] at hvalue
      cases hbefore : store[key]? with
      | some old =>
        rw [hbefore] at hvalue
        exact h.origin key value (hbefore.trans hvalue)
      | none =>
        -- the key was free, so what it holds now is what this call has put there
        rw [hbefore, Option.none_or] at hvalue
        split at hvalue
        · next hkey =>
          rw [← hkey, ← Option.some.inj hvalue]
          exact .inr ⟨use, huse, hcall⟩
        · cases hvalue
    | delete key' =>
      rw [Store.getElem?_perform_delete] at hvalue
      split at hvalue
      · cases hvalue
      · exact h.origin key value hvalue
  untouched key hkey :=
    (store.getElem?_perform_of_ne key (hkey use huse call hcall)).trans (h.untouched key hkey)
  kept key value hkey hvalue := by
    have hbefore := h.kept key value hkey hvalue
    cases call with
    | create key' value' =>
      rw [Store.getElem?_perform_create, hbefore]
      rfl
    | delete key' =>
      have hne : key' ≠ key := by
        rintro rfl
        exact hkey use huse hcall
      rw [Store.getElem?_perform_delete, if_neg hne, hbefore]

/-- A use keeps the accounts, however many of its calls it makes. -/
theorem Accounted.storeAfter (h : Accounted history initial store) {use : Use}
    (huse : use ∈ history) : Accounted history initial (use.storeAfter store) :=
  (use.invocation.handles_part use.regions).run_withFaults
    (fun _ hcall _ hstore => hstore.perform huse hcall) use.invocation.faults h

theorem accounted_storeAfterUses (initial : Store) (history : List Use) :
    Accounted history initial (storeAfterUses initial history) :=
  List.foldlRecOn history Use.storeAfter (Accounted.refl history initial)
    fun _ hstore _ huse => hstore.storeAfter huse

end

/-! ## Entries -/

namespace Use

variable {use : Use} {key : ResourceKey} {value : String}

theorem exists_of_create_mem (h : .create key value ∈ use.calls) :
    use.invocation.action = .create ∧ ∃ v ∈ use.invocation.variants,
      ∃ region ∈ [use.regions.primary, use.regions.failover], ∃ resource ∈ Resource.table,
        key = .ofResource region v resource ∧ value = resource.value := by
  obtain ⟨v, hv, region, hregion, resource, hresource, hcall⟩ := Invocation.mem_calls.mp h
  cases haction : use.invocation.action with
  | create =>
    rw [haction] at hcall
    obtain ⟨rfl, rfl⟩ := Call.create.inj hcall
    exact ⟨rfl, v, hv, region, hregion, resource, hresource, rfl, rfl⟩
  | cleanup =>
    rw [haction] at hcall
    cases hcall

theorem action_of_delete_mem (h : .delete key ∈ use.calls) :
    use.invocation.action = .cleanup := by
  obtain ⟨v, -, region, -, resource, -, hcall⟩ := Invocation.mem_calls.mp h
  cases haction : use.invocation.action with
  | create =>
    rw [haction] at hcall
    cases hcall
  | cleanup => rfl

theorem key_ne_of_region (hregion : key.region ∉ [use.regions.primary, use.regions.failover])
    {call : Call} (hcall : call ∈ use.calls) : call.key ≠ key := by
  obtain ⟨v, -, region, hmem, resource, -, rfl⟩ := Invocation.mem_calls.mp hcall
  rw [Call.key_ofAction]
  rintro rfl
  exact hregion hmem

theorem key_ne_of_name
    (hname : ∀ v ∈ use.invocation.variants, ∀ resource ∈ Resource.table,
      resource.kind = key.kind → key.name ≠ v.resourceName resource.baseName)
    {call : Call} (hcall : call ∈ use.calls) : call.key ≠ key := by
  obtain ⟨v, hv, region, -, resource, hresource, rfl⟩ := Invocation.mem_calls.mp hcall
  rw [Call.key_ofAction]
  rintro rfl
  exact hname v hv resource hresource rfl rfl

end Use

/-- After any uses of the manager, with any failures on the way, every entry of the store is from
the beginning, with its value, or is one that a creation was to make: in one of its regions, of a
row of the table, with the name of one of its variants and with the value of the row. A key in a
region that no use was given, or with a name that no use has for a resource of that kind, is as at
the beginning. If there was no cleanup, whatever was there at the beginning is still there. -/
theorem entries_after_uses (initial : Store) (history : List Use) :
    let final := storeAfterUses initial history
    (∀ (key : ResourceKey) (value : String), final[key]? = some value →
      initial[key]? = some value ∨
      ∃ use ∈ history, use.invocation.action = .create ∧ ∃ v ∈ use.invocation.variants,
        ∃ region ∈ [use.regions.primary, use.regions.failover], ∃ resource ∈ Resource.table,
          key = ⟨region, resource.kind,
            resource.baseName ++ "-" ++ (v.arch.name ++ "-" ++ v.auth.name)⟩ ∧
          value = resource.value) ∧
    (∀ key : ResourceKey,
      (∀ use ∈ history, key.region ∉ [use.regions.primary, use.regions.failover]) ∨
        (∀ use ∈ history, ∀ v ∈ use.invocation.variants, ∀ resource ∈ Resource.table,
          resource.kind = key.kind →
            key.name ≠ resource.baseName ++ "-" ++ (v.arch.name ++ "-" ++ v.auth.name)) →
      final[key]? = initial[key]?) ∧
    ((∀ use ∈ history, use.invocation.action ≠ .cleanup) →
      ∀ (key : ResourceKey) (value : String), initial[key]? = some value →
        final[key]? = some value) := by
  intro final
  have haccounted := accounted_storeAfterUses initial history
  refine ⟨fun key value hvalue => ?_, fun key hforeign => ?_, fun hcreations key value hvalue => ?_⟩
  · refine (haccounted.origin key value hvalue).imp_right ?_
    rintro ⟨use, huse, hcall⟩
    obtain ⟨haction, hoffer⟩ := Use.exists_of_create_mem hcall
    exact ⟨use, huse, haction, hoffer⟩
  · refine haccounted.untouched key fun use huse call hcall => ?_
    rcases hforeign with hregion | hname
    · exact Use.key_ne_of_region (hregion use huse) hcall
    · exact Use.key_ne_of_name (hname use huse) hcall
  · refine haccounted.kept key value (fun use huse hdelete => ?_) hvalue
    exact hcreations use huse (Use.action_of_delete_mem hdelete)

/-- A creation that is cut short, and then a cleanup for a variant in other colours which has one
region in common with it. A parameter with the name of a secret is no resource of theirs, and the
region of the cleanup alone gets nothing new. -/
theorem entries_after_uses_of_aborted_creation :
    let foreign : ResourceKey := ⟨"us-west-2", .parameter, "SecretsManagerTest1-x64-irsa"⟩
    let initial : Store := (∅ : Store).insert foreign "kept"
    let refusal : ServiceError := ⟨some "AccessDeniedException", "not allowed"⟩
    let creation : Use := ⟨.standard, .manageMatrix .create [⟨2, refusal⟩]⟩
    let cleanup : Use :=
      ⟨⟨"eu-west-1", "us-west-2"⟩, .manage ⟨.x64, .irsa, "RED", "31"⟩ .cleanup []⟩
    let final := storeAfterUses initial [creation, cleanup]
    final[foreign]? = some "kept" ∧
      ∀ (key : ResourceKey) (value : String), key.region = "eu-west-1" →
        final[key]? = some value → initial[key]? = some value := by
  intro foreign initial refusal creation cleanup final
  obtain ⟨horigin, huntouched, -⟩ := entries_after_uses initial [creation, cleanup]
  have hnames : ∀ use ∈ [creation, cleanup], ∀ v ∈ use.invocation.variants,
      ∀ resource ∈ Resource.table, resource.kind = foreign.kind →
        foreign.name ≠ resource.baseName ++ "-" ++ (v.arch.name ++ "-" ++ v.auth.name) := by
    decide +kernel
  refine ⟨(huntouched foreign (.inr hnames)).trans Std.ExtTreeMap.getElem?_insert_self, ?_⟩
  intro key value hregion hvalue
  refine (horigin key value hvalue).resolve_right ?_
  rintro ⟨use, huse, haction, v, -, region, hmem, resource, -, rfl, -⟩
  obtain rfl : region = "eu-west-1" := hregion
  rcases List.mem_pair.mp huse with rfl | rfl
  · revert hmem
    decide
  · cases haction

end MountMatrix
