/-! # The test matrix

Every combination of node architecture and authentication mode that the integration tests run
against, and the names that belong to one combination.

* `Variant.matrix`: the four variants, in the order in which every command goes through them.
* `Variant.find?`: a variant of the matrix by its name.
* `Variant.name`: architecture and mode joined by a hyphen, the suffix of everything a variant owns.
* `Variant.resourceName`: the name of one of its secrets or parameters.
-/

set_option autoImplicit false

namespace MountMatrix

/-! ## Architecture and authentication mode -/

inductive Arch where
  | x64
  | arm
  deriving DecidableEq

inductive AuthMode where
  | irsa
  | podIdentity
  deriving DecidableEq

namespace Arch

def name : Arch → String
  | .x64 => "x64"
  | .arm => "arm"

def variableName : Arch → String
  | .x64 => "X64"
  | .arm => "ARM"

def defaultNodeType : Arch → String
  | .x64 => "m5.large"
  | .arm => "m6g.large"

end Arch

namespace AuthMode

def name : AuthMode → String
  | .irsa => "irsa"
  | .podIdentity => "pod-identity"

/-- The spelling used in environment variables, where a hyphen cannot stand. -/
def variableName : AuthMode → String
  | .irsa => "IRSA"
  | .podIdentity => "POD_IDENTITY"

end AuthMode

/-! ## Variants -/

/-- One test configuration, with the colour that its log lines have in a terminal. -/
structure Variant where
  arch : Arch
  auth : AuthMode
  logColor : String
  colorCode : String
  deriving DecidableEq

namespace Variant

def matrix : List Variant :=
  [⟨.x64, .irsa, "CYAN", "36"⟩,
   ⟨.x64, .podIdentity, "MAGENTA", "35"⟩,
   ⟨.arm, .irsa, "BLUE", "34"⟩,
   ⟨.arm, .podIdentity, "YELLOW", "33"⟩]

def name (v : Variant) : String :=
  v.arch.name ++ "-" ++ v.auth.name

def find? (name : String) : Option Variant :=
  matrix.find? fun v => v.name == name

def resourceName (v : Variant) (base : String) : String :=
  base ++ "-" ++ v.name

def serviceAccount (v : Variant) : String :=
  "basic-test-mount-sa-" ++ v.name

def defaultNodeType (v : Variant) : String :=
  v.arch.defaultNodeType

def variableSuffix (v : Variant) : String :=
  v.arch.variableName ++ "_" ++ v.auth.variableName

def nodeTypeVar (v : Variant) : String :=
  "NODE_TYPE_" ++ v.variableSuffix

def kubeconfigVar (v : Variant) : String :=
  "KUBECONFIG_FILE_" ++ v.variableSuffix

end Variant

end MountMatrix
