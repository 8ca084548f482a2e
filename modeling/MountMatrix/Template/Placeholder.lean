import MountMatrix.Template.Snippet

/-! # Placeholders

The thirteen tokens that a template may hold. A token is a key between two pairs of braces, and the
variant and the options fix the text that takes its place.

* `Placeholder.all`: the placeholders in the order in which they are replaced.
* `Placeholder.token`, `Placeholder.value`: what is replaced, and by what.
-/

set_option autoImplicit false

namespace MountMatrix

inductive Placeholder where
  | arch
  | authType
  | logColor
  | colorCode
  | nodeTypeVar
  | defaultNodeType
  | kubeconfigVar
  | authSetup
  | installMethod
  | teardownCleanup
  | podIdentityParam
  | privrepoCheck
  | installProviderTest
  deriving DecidableEq

namespace Placeholder

def attributes : List Placeholder :=
  [arch, authType, logColor, colorCode, nodeTypeVar, defaultNodeType, kubeconfigVar]

def snippets : List Placeholder :=
  [authSetup, installMethod, teardownCleanup, podIdentityParam, privrepoCheck,
   installProviderTest]

/-- Every placeholder, in the order of replacement: attributes first, then the shell blocks. -/
def all : List Placeholder :=
  attributes ++ snippets

def key : Placeholder → String
  | arch => "ARCH"
  | authType => "AUTH_TYPE"
  | logColor => "LOG_COLOR"
  | colorCode => "COLOR_CODE"
  | nodeTypeVar => "NODE_TYPE_VAR"
  | defaultNodeType => "DEFAULT_NODE_TYPE"
  | kubeconfigVar => "KUBECONFIG_VAR"
  | authSetup => "AUTH_SETUP"
  | installMethod => "INSTALL_METHOD"
  | teardownCleanup => "TEARDOWN_CLEANUP"
  | podIdentityParam => "POD_IDENTITY_PARAM"
  | privrepoCheck => "PRIVREPO_CHECK"
  | installProviderTest => "INSTALL_PROVIDER_TEST"

def token (p : Placeholder) : String :=
  "\x7b\x7b" ++ p.key ++ "\x7d\x7d"

def value (p : Placeholder) (v : Variant) (options : InstallOptions) : String :=
  match p with
  | arch => v.arch.name
  | authType => v.auth.name
  | logColor => v.logColor
  | colorCode => v.colorCode
  | nodeTypeVar => v.nodeTypeVar
  | defaultNodeType => v.defaultNodeType
  | kubeconfigVar => v.kubeconfigVar
  | authSetup => Snippet.authSetup v
  | installMethod => Snippet.installMethod v options
  | teardownCleanup => Snippet.teardownCleanup v
  | podIdentityParam => Snippet.podIdentityParam v
  | privrepoCheck => Snippet.privrepoCheck options
  | installProviderTest => Snippet.installProviderTest v options

theorem mem_all (p : Placeholder) : p ∈ all := by
  cases p <;> decide

end Placeholder

end MountMatrix
