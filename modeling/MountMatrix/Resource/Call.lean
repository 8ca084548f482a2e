import MountMatrix.Resource.Key

/-! # Calls

What the manager asks of the services that keep secrets and parameters.

* `Action`: what is to be done with the resources.
* `Call`: one creation or one deletion.
* `Call.harmlessCode`: the failure that shows the call's purpose to be fulfilled already.
* `Call.forVariant`, `Call.forMatrix`: the calls of a whole run, in order.
-/

set_option autoImplicit false

namespace MountMatrix

inductive Action where
  | create
  | cleanup
  deriving DecidableEq

namespace Action

def progressive : Action → String
  | .create => "Creating"
  | .cleanup => "Cleaning up"

def past : Action → String
  | .create => "created"
  | .cleanup => "cleaned up"

end Action

inductive Call where
  | create (key : ResourceKey) (value : String)
  | delete (key : ResourceKey)
  deriving DecidableEq

namespace Call

def key : Call → ResourceKey
  | .create key _ => key
  | .delete key => key

def verb : Call → String
  | .create _ _ => "create"
  | .delete _ => "delete"

/-- The code that says that the resource is there, or gone, already. -/
def harmlessCode : Call → String
  | .create key _ => key.kind.existsCode
  | .delete key => key.kind.notFoundCode

def ofAction (action : Action) (region : String) (v : Variant) (resource : Resource) : Call :=
  match action with
  | .create => .create (.ofResource region v resource) resource.value
  | .cleanup => .delete (.ofResource region v resource)

/-! ## The calls of a run -/

/-- The eighteen calls for one variant: region by region, and in each the resources of the table
in order. -/
def forVariant (action : Action) (regions : Regions) (v : Variant) : List Call :=
  regions.toList.flatMap fun region => Resource.table.map (ofAction action region v)

def forMatrix (action : Action) (regions : Regions) : List Call :=
  Variant.matrix.flatMap (forVariant action regions)

@[simp]
theorem length_forMatrix (action : Action) (regions : Regions) :
    (forMatrix action regions).length = 72 := rfl

end Call

def ResourceKey.located (key : ResourceKey) : String :=
  key.name ++ " in " ++ key.region

end MountMatrix
