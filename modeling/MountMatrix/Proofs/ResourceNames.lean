import Mathlib.Data.List.Nodup
import MountMatrix.Resource.Call

/-! # Names and keys of resources

A resource's name tells which resource it is and, but for colours, which variant owns it. So no two
calls of a run ask for one key with different values.

* `eq_of_resourceName_eq`: the parts of a name can be read off.
* `ofResource_eq_iff`, `ofResource_inj`: the parts of a key can be read off.
* `resourceName_determines_owner`: variants share no name, whatever their resources are.
* `ResourceKey.ofMatrix`: the keys that a run over the matrix is about.
* `value_unique`: the values that runs give to a key are the same.
-/

set_option autoImplicit false

namespace MountMatrix

/-! ## Names -/

namespace Variant

theorem toList_resourceName (v : Variant) (base : String) :
    (v.resourceName base).toList =
      (base.toList ++ ('-' :: v.arch.name.toList ++ ['-'])) ++ v.auth.name.toList := by
  rw [resourceName, name]
  simp only [String.toList_append]
  have hhyphen : "-".toList = ['-'] := rfl
  rw [hhyphen]
  simp only [List.append_assoc, List.cons_append, List.nil_append]

theorem length_archName (arch : Arch) : arch.name.toList.length = 3 := by
  cases arch <;> rfl

theorem archName_injective {a b : Arch} (h : a.name.toList = b.name.toList) : a = b := by
  cases a <;> cases b <;> first | rfl | exact absurd h (by decide)

/-- The last letter tells the modes apart. -/
theorem eq_of_getLast?_authName {a b : AuthMode}
    (h : a.name.toList.getLast? = b.name.toList.getLast?) : a = b := by
  cases a <;> cases b <;> first | rfl | exact absurd h (by decide)

theorem authName_ne_nil (a : AuthMode) : a.name.toList ≠ [] := by
  cases a <;> decide

/-- The base and the variant can be read off a name, although a base may contain hyphens. -/
theorem eq_of_resourceName_eq {v w : Variant} {base base' : String}
    (h : v.resourceName base = w.resourceName base') :
    base = base' ∧ v.arch = w.arch ∧ v.auth = w.auth := by
  have hlist := congrArg String.toList h
  rw [toList_resourceName, toList_resourceName] at hlist
  have hauth : v.auth = w.auth := by
    have hlast := congrArg List.getLast? hlist
    rw [List.getLast?_append_of_ne_nil _ (authName_ne_nil _),
      List.getLast?_append_of_ne_nil _ (authName_ne_nil _)] at hlast
    exact eq_of_getLast?_authName hlast
  rw [hauth] at hlist
  have hfront := List.append_cancel_right hlist
  have hlength : ('-' :: v.arch.name.toList ++ ['-']).length =
      ('-' :: w.arch.name.toList ++ ['-']).length := by
    simp only [List.length_append, List.length_cons, length_archName]
  obtain ⟨hbase, hmiddle⟩ := List.append_inj' hfront hlength
  have harch := List.append_cancel_right hmiddle
  rw [List.cons.injEq] at harch
  exact ⟨String.toList_inj.mp hbase, archName_injective harch.2, hauth⟩

theorem resourceName_congr {v w : Variant} (harch : v.arch = w.arch) (hauth : v.auth = w.auth)
    (base : String) : v.resourceName base = w.resourceName base := by
  rw [resourceName, resourceName, name, name, harch, hauth]

theorem exists_mem_matrix (v : Variant) :
    ∃ w ∈ matrix, v.arch = w.arch ∧ v.auth = w.auth := by
  obtain ⟨arch, auth, _, _⟩ := v
  cases arch <;> cases auth <;> simp [matrix]

end Variant

/-! ## Keys -/

/-- The resources need not stand in the table. -/
theorem ResourceKey.ofResource_eq_iff {region region' : String} {v w : Variant} {r s : Resource} :
    ofResource region v r = ofResource region' w s ↔
      region = region' ∧ r.kind = s.kind ∧ r.baseName = s.baseName ∧
        v.arch = w.arch ∧ v.auth = w.auth := by
  rw [ofResource, ofResource, ResourceKey.mk.injEq]
  constructor
  · rintro ⟨hregion, hkind, hname⟩
    exact ⟨hregion, hkind, Variant.eq_of_resourceName_eq hname⟩
  · rintro ⟨hregion, hkind, hbase, harch, hauth⟩
    rw [hbase]
    exact ⟨hregion, hkind, Variant.resourceName_congr harch hauth s.baseName⟩

theorem Resource.eq_of_baseName_eq {r s : Resource} (hr : r ∈ table) (hs : s ∈ table)
    (h : r.baseName = s.baseName) : r = s := by
  have hnodup : (table.map baseName).Nodup := by decide
  exact List.inj_on_of_nodup_map hnodup hr hs h

namespace ResourceKey

variable {region region' : String} {v w : Variant} {r s : Resource}

theorem ofResource_inj (hr : r ∈ Resource.table) (hs : s ∈ Resource.table)
    (h : ofResource region v r = ofResource region' w s) :
    region = region' ∧ r = s ∧ v.arch = w.arch ∧ v.auth = w.auth := by
  obtain ⟨hregion, -, hbase, hvariant⟩ := ofResource_eq_iff.mp h
  exact ⟨hregion, Resource.eq_of_baseName_eq hr hs hbase, hvariant⟩

/-! ## Owners -/

/-- The keys of a variant in some regions, for the resources of any table. -/
def ofTable (v : Variant) (regions : List String) (table : List Resource) : List ResourceKey :=
  regions.flatMap fun region => table.map (ofResource region v)

theorem mem_ofTable {regions : List String} {table : List Resource} {key : ResourceKey} :
    key ∈ ofTable v regions table ↔
      ∃ region ∈ regions, ∃ resource ∈ table, ofResource region v resource = key := by
  simp only [ofTable, List.mem_flatMap, List.mem_map]

/-- A name determines its base and, but for the colours, its variant. So two variants that differ
in more than their colours have no key in common, whatever stands in their tables. -/
theorem resourceName_determines_owner (v w : Variant) :
    (∀ base base' : String, v.resourceName base = w.resourceName base' ↔
      base = base' ∧ v.arch = w.arch ∧ v.auth = w.auth) ∧
    (v.arch ≠ w.arch ∨ v.auth ≠ w.auth →
      ∀ (regions regions' : List String) (table table' : List Resource),
        (ofTable v regions table).Disjoint (ofTable w regions' table')) := by
  refine ⟨fun base base' => ⟨Variant.eq_of_resourceName_eq, ?_⟩, ?_⟩
  · rintro ⟨rfl, harch, hauth⟩
    exact Variant.resourceName_congr harch hauth base
  · intro hne regions regions' table table' key hv hw
    obtain ⟨region, -, r, -, hkey⟩ := mem_ofTable.mp hv
    obtain ⟨region', -, s, -, hkey'⟩ := mem_ofTable.mp hw
    obtain ⟨-, -, -, harch, hauth⟩ := ofResource_eq_iff.mp (hkey.trans hkey'.symm)
    rcases hne with hne | hne
    · exact hne harch
    · exact hne hauth

/-- The base of the one resource is the other resource's whole name. -/
theorem resourceName_determines_owner_of_nested_name :
    let v : Variant := ⟨.x64, .podIdentity, "MAGENTA", "35"⟩
    let w : Variant := ⟨.arm, .podIdentity, "YELLOW", "33"⟩
    let nested : Resource := ⟨.secret, "base-arm-pod-identity", ""⟩
    let plain : Resource := ⟨.secret, "base", ""⟩
    w.resourceName plain.baseName = nested.baseName ∧ v.arch ≠ w.arch ∧
      v.resourceName nested.baseName ≠ w.resourceName plain.baseName ∧
      (ofTable v ["us-west-2"] [nested, plain]).Disjoint
        (ofTable w ["us-west-2"] [nested, plain]) := by
  intro v w nested plain
  have harch : v.arch ≠ w.arch := by decide
  obtain ⟨hnames, hkeys⟩ := resourceName_determines_owner v w
  exact ⟨by decide, harch, fun h => harch ((hnames _ _).mp h).2.1, hkeys (.inl harch) _ _ _ _⟩

/-! ## The matrix -/

def ofMatrix (regions : Regions) : List ResourceKey :=
  Variant.matrix.flatMap fun v => [regions.primary, regions.failover].flatMap fun region =>
    Resource.table.map (ofResource region v)

theorem mem_ofMatrix {regions : Regions} {key : ResourceKey} :
    key ∈ ofMatrix regions ↔
      ∃ v ∈ Variant.matrix, ∃ region ∈ [regions.primary, regions.failover],
        ∃ resource ∈ Resource.table, ofResource region v resource = key := by
  simp only [ofMatrix, List.mem_flatMap, List.mem_map]

end ResourceKey

/-! ## Calls -/

namespace Call

variable {action : Action} {regions : Regions} {v : Variant} {call : Call}

theorem mem_forVariant :
    call ∈ forVariant action regions v ↔
      ∃ region ∈ [regions.primary, regions.failover], ∃ resource ∈ Resource.table,
        ofAction action region v resource = call := by
  simp only [forVariant, Regions.toList, List.mem_flatMap, List.mem_map]

theorem mem_forMatrix :
    call ∈ forMatrix action regions ↔
      ∃ v ∈ Variant.matrix, call ∈ forVariant action regions v := List.mem_flatMap

theorem mem_forMatrix_iff_ofAction :
    call ∈ forMatrix action regions ↔
      ∃ v ∈ Variant.matrix, ∃ region ∈ [regions.primary, regions.failover],
        ∃ resource ∈ Resource.table, ofAction action region v resource = call :=
  mem_forMatrix.trans (exists_congr fun _ => and_congr_right fun _ => mem_forVariant)

theorem key_ofAction (action : Action) (region : String) (v : Variant) (resource : Resource) :
    (ofAction action region v resource).key = .ofResource region v resource := by
  cases action <;> rfl

/-- A variant that is not in the matrix has the calls of one that is. -/
theorem forVariant_subset (action : Action) (regions : Regions) (v : Variant) :
    forVariant action regions v ⊆ forMatrix action regions := by
  intro call hcall
  obtain ⟨region, hregion, resource, hresource, rfl⟩ := mem_forVariant.mp hcall
  obtain ⟨w, hw, harch, hauth⟩ := v.exists_mem_matrix
  have hkey : ResourceKey.ofResource region w resource = .ofResource region v resource := by
    rw [ResourceKey.ofResource, ResourceKey.ofResource, Variant.resourceName_congr harch hauth]
  refine mem_forMatrix_iff_ofAction.mpr ⟨w, hw, region, hregion, resource, hresource, ?_⟩
  cases action <;> rw [ofAction, ofAction, hkey]

theorem map_key_forMatrix (action : Action) (regions : Regions) :
    (forMatrix action regions).map Call.key = ResourceKey.ofMatrix regions := by
  simp only [forMatrix, forVariant, Regions.toList, ResourceKey.ofMatrix, List.map_flatMap,
    List.map_map, Function.comp_def, key_ofAction]

theorem key_mem_ofMatrix (h : call ∈ forVariant action regions v) :
    call.key ∈ ResourceKey.ofMatrix regions := by
  rw [← map_key_forMatrix action]
  exact List.mem_map_of_mem (forVariant_subset action regions v h)

theorem value_unique {key : ResourceKey} {value value' : String}
    (h : .create key value ∈ forMatrix .create regions)
    (h' : .create key value' ∈ forMatrix .create regions) : value = value' := by
  obtain ⟨v, -, region, -, r, hr, heq⟩ := mem_forMatrix_iff_ofAction.mp h
  obtain ⟨w, -, region', -, s, hs, heq'⟩ := mem_forMatrix_iff_ofAction.mp h'
  obtain ⟨hkey, hvalue⟩ := Call.create.inj heq
  obtain ⟨hkey', hvalue'⟩ := Call.create.inj heq'
  obtain ⟨-, hrs, -⟩ := ResourceKey.ofResource_inj hr hs (hkey.trans hkey'.symm)
  rw [← hvalue, ← hvalue', hrs]

end Call

end MountMatrix
