import MountMatrix.Dialogue
import MountMatrix.ServiceError

/-! # The resource manager

Creates or deletes every resource of a variant, or of the whole matrix. A run is no transaction: the
first failure that is not harmless ends it and leaves what was done in place. Running it again is
safe, since what is settled already fails harmlessly.

* `ResourceCalls`: the surroundings of a run, which answer calls.
* `Manager.settle`: one call and the judgement of its answer.
* `Manager.manage`, `Manager.manageMatrix`: the runs.
-/

set_option autoImplicit false

namespace MountMatrix

/-- The surroundings of a run: each call is answered by success or by the service's failure. -/
abbrev ResourceCalls : Interface where
  Question := Call
  Answer := fun _ => Except ServiceError Unit

structure CallFailure where
  call : Call
  cause : ServiceError
  deriving DecidableEq

namespace CallFailure

def what (failure : CallFailure) : String :=
  failure.call.verb ++ " " ++ failure.call.key.kind.name ++ " " ++ failure.call.key.located

def message (failure : CallFailure) : String :=
  "failed to " ++ failure.what ++ ": " ++ failure.cause.message

end CallFailure

namespace Manager

abbrev Run := Dialogue ResourceCalls CallFailure Unit

/-- Makes a call and passes over a harmless failure. -/
def settle (call : Call) : Run :=
  .note (.calling call) <| .ask call fun
    | .ok () => .succeed ()
    | .error cause =>
      if cause.code = some call.harmlessCode then
        .note (.alreadySettled call.key) (.succeed ())
      else
        .fail ⟨call, cause⟩

def manage (regions : Regions) (v : Variant) (action : Action) : Run :=
  .note (.managing action v) <|
    .forEach regions.toList fun region =>
      .forEach Resource.table fun resource => settle (.ofAction action region v resource)

theorem manage_eq (regions : Regions) (v : Variant) (action : Action) :
    manage regions v action =
      .note (.managing action v) (.forEach (Call.forVariant action regions v) settle) := by
  rw [manage, Call.forVariant, Dialogue.forEach_flatMap]
  simp only [Dialogue.forEach_map]

def manageMatrix (regions : Regions) (action : Action) : Run :=
  .note (.managingMatrix action) <|
    (Dialogue.forEach Variant.matrix fun v => manage regions v action).bind fun _ =>
      .note (.managedMatrix action) (.succeed ())

end Manager

end MountMatrix
