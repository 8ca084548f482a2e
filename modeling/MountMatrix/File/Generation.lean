import MountMatrix.File.Access
import MountMatrix.Template.Fixture
import MountMatrix.Template.Render

/-! # Generating the fixtures

* `renderFile`: one template rendered to one file.
* `generateFixtures`: every template rendered for every variant.
* `cleanUpFixtures`: the generated files removed again.
-/

set_option autoImplicit false

namespace MountMatrix

inductive GenerationError where
  | read (path : String) (cause : IoError)
  | write (path : String) (cause : IoError)
  deriving DecidableEq

namespace GenerationError

def cause : GenerationError → IoError
  | read _ cause => cause
  | write _ cause => cause

def path : GenerationError → String
  | read path _ => path
  | write path _ => path

def message : GenerationError → String
  | read path cause => "failed to read template " ++ path ++ ": " ++ cause.message
  | write path cause => "failed to write " ++ path ++ ": " ++ cause.message

end GenerationError

/-! ## Writing -/

/-- Renders a template to a file. Nothing is written unless the template can be read. -/
def renderFile (template output : String) (v : Variant) (options : InstallOptions) :
    Dialogue FileAccess GenerationError Unit :=
  .ask (.read template) fun
    | .error cause => .fail (.read template cause)
    | .ok text => .ask (.write output (Template.render text v options)) fun
      | .error cause => .fail (.write output cause)
      | .ok () => .note (.rendered template output) (.succeed ())

def generateFixture (templateDir outputDir : String) (options : InstallOptions) (v : Variant)
    (fixture : Fixture) : Dialogue FileAccess GenerationError String :=
  let output := Path.join outputDir (fixture.outputName v)
  (renderFile (Path.join templateDir fixture.template) output v options).bind fun () =>
    .note (.generated output) (.succeed output)

/-- Generates every file, variant by variant, and tells the paths in order. -/
def generateFixtures (templateDir outputDir : String) (options : InstallOptions) :
    Dialogue FileAccess GenerationError (List String) :=
  let ofVariant (v : Variant) : Dialogue FileAccess GenerationError (List String) :=
    .note (.generating v) <|
      .traverse Fixture.all (generateFixture templateDir outputDir options v)
  (Dialogue.traverse Variant.matrix ofVariant).bind fun paths => .succeed paths.flatten

/-! ## Removing -/

def removeFixture (path : String) : Dialogue FileAccess IoError Bool :=
  .ask (.remove path) fun
    | .ok () => .note (.removed path) (.succeed true)
    | .error .notFound => .succeed false
    | .error cause => .fail cause

/-- Removes the generated files from a directory, and tells the paths of those that were there. -/
def cleanUpFixtures (directory : String) : Dialogue FileAccess IoError (List String) :=
  let paths := Fixture.generatedNames.map (Path.join directory)
  (Dialogue.traverse paths fun path => (removeFixture path).bind fun removed =>
    .succeed (path, removed)).bind fun visited =>
      .note .cleanedUpFiles (.succeed ((visited.filter Prod.snd).map Prod.fst))

end MountMatrix
