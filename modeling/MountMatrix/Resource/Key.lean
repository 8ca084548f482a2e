import Std.Data.ExtTreeMap
import MountMatrix.Variant

/-! # Secrets and parameters

The resources that every variant owns in both of its regions.

* `ResourceKind`: secret or parameter, with the codes of the two harmless failures.
* `Resource.table`: the nine resources, in the order in which they are handled.
* `Regions`: the primary and the failover region.
* `ResourceKey`: where a value is kept; keys are ordered by region, then kind, then name.
-/

set_option autoImplicit false

namespace MountMatrix

/-! ## Kinds -/

inductive ResourceKind where
  | secret
  | parameter
  deriving DecidableEq

namespace ResourceKind

def name : ResourceKind → String
  | .secret => "secret"
  | .parameter => "parameter"

def existsCode : ResourceKind → String
  | .secret => "ResourceExistsException"
  | .parameter => "ParameterAlreadyExists"

def notFoundCode : ResourceKind → String
  | .secret => "ResourceNotFoundException"
  | .parameter => "ParameterNotFound"

def rank : ResourceKind → Nat
  | .secret => 0
  | .parameter => 1

theorem rank_injective {a b : ResourceKind} (h : a.rank = b.rank) : a = b := by
  cases a <;> cases b <;> simp_all [rank]

end ResourceKind

/-! ## The table -/

structure Resource where
  kind : ResourceKind
  baseName : String
  value : String
  deriving DecidableEq

def Resource.table : List Resource :=
  [⟨.secret, "SecretsManagerTest1", "SecretsManagerTest1Value"⟩,
   ⟨.secret, "SecretsManagerTest2", "SecretsManagerTest2Value"⟩,
   ⟨.secret, "SecretsManagerSync", "SecretUser"⟩,
   ⟨.secret, "SecretsManagerRotationTest", "BeforeRotation"⟩,
   ⟨.secret, "secretsManagerJson",
     "\x7b\"username\": \"SecretsManagerUser\", \"password\": \"PasswordForSecretsManager\"\x7d"⟩,
   ⟨.parameter, "ParameterStoreTest1", "ParameterStoreTest1Value"⟩,
   ⟨.parameter, "ParameterStoreTestWithLongName", "ParameterStoreTest2Value"⟩,
   ⟨.parameter, "ParameterStoreRotationTest", "BeforeRotation"⟩,
   ⟨.parameter, "jsonSsm",
     "\x7b\"username\": \"ParameterStoreUser\", \"password\": \"PasswordForParameterStore\"\x7d"⟩]

/-! ## Regions -/

structure Regions where
  primary : String := "us-west-2"
  failover : String := "us-east-2"
  deriving DecidableEq

namespace Regions

def standard : Regions := {}

/-- The primary region comes first. The two may be the same. -/
def toList (regions : Regions) : List String :=
  [regions.primary, regions.failover]

end Regions

/-! ## Keys -/

structure ResourceKey where
  region : String
  kind : ResourceKind
  name : String
  deriving DecidableEq

namespace ResourceKey

/-- By region, then kind, then name; texts by code point. -/
instance : Ord ResourceKey where
  compare := compareLex (compareOn region)
    (compareLex (compareOn fun key => key.kind.rank) (compareOn name))

instance : Std.TransOrd ResourceKey :=
  inferInstanceAs (Std.TransCmp (compareLex (compareOn region)
    (compareLex (compareOn fun key : ResourceKey => key.kind.rank) (compareOn name))))

instance : Std.LawfulEqOrd ResourceKey where
  eq_of_compare := by
    intro a b h
    obtain ⟨region, kind, name⟩ := a
    obtain ⟨region', kind', name'⟩ := b
    change ((compare region region').then
      ((compare kind.rank kind'.rank).then (compare name name'))) = .eq at h
    obtain ⟨hregion, hrest⟩ := Ordering.then_eq_eq.1 h
    obtain ⟨hkind, hname⟩ := Ordering.then_eq_eq.1 hrest
    rw [Std.LawfulEqOrd.eq_of_compare hregion, Std.LawfulEqOrd.eq_of_compare hname,
      ResourceKind.rank_injective (Std.LawfulEqOrd.eq_of_compare hkind)]

def ofResource (region : String) (v : Variant) (resource : Resource) : ResourceKey :=
  ⟨region, resource.kind, v.resourceName resource.baseName⟩

end ResourceKey

end MountMatrix
