/-! # Failures of a service

* `ServiceError`: what a failed call tells its caller.
* `Fault`: a failure that is put in the way of one numbered call.
-/

set_option autoImplicit false

namespace MountMatrix

/-- A failed call to a service. Callers branch on the code alone. -/
structure ServiceError where
  code : Option String
  message : String
  deriving DecidableEq

/-- A failure that meets the call of the given number before the call takes effect. -/
structure Fault where
  number : Nat
  error : ServiceError
  deriving DecidableEq

/-- What meets the call of the given number: of several faults the first one counts. -/
def Fault.find? (faults : List Fault) (number : Nat) : Option ServiceError :=
  (List.find? (fun fault => fault.number == number) faults).map Fault.error

end MountMatrix
