import MountMatrix.Variant

/-! # Fixtures

The three kinds of file that are generated for each variant, every kind from a template of its own.

* `Fixture.all`: the three kinds, in the order in which a variant's files are written.
* `Fixture.outputName`: the name of the file generated for a variant.
* `Fixture.generatedNames`: the twelve names, kind by kind.
-/

set_option autoImplicit false

namespace MountMatrix

structure Fixture where
  template : String
  stem : String
  extension : String
  deriving DecidableEq

namespace Fixture

def all : List Fixture :=
  [⟨"integration.bats.template", "", "bats"⟩,
   ⟨"BasicTestMountSPC.yaml.template", "BasicTestMountSPC-", "yaml"⟩,
   ⟨"BasicTestMount.yaml.template", "BasicTestMount-", "yaml"⟩]

def outputName (f : Fixture) (v : Variant) : String :=
  f.stem ++ v.name ++ "." ++ f.extension

/-- The name of every generated file, all variants of one kind before the next kind. -/
def generatedNames : List String :=
  all.flatMap fun f => Variant.matrix.map f.outputName

end Fixture

end MountMatrix
