import MountMatrix.Cloud.Client
import MountMatrix.CommandLine.Arguments
import MountMatrix.File.Generation

/-! # The program

* `ProgramSurroundings`: everything that a run of the program can ask for.
* `Program.run`: a run with given settings.
* `Failure`: what can end a run, and how it is reported.
* `World`: a cloud and a file tree in which the program can run.
* `Program.execute`: a whole run, from the arguments to the exit code.
-/

set_option autoImplicit false

namespace MountMatrix

/-! ## Surroundings -/

inductive ProgramRequest where
  | call (clients : Regions) (call : Call)
  | image (query : ImageQuery)
  | file (request : FileRequest)
  deriving DecidableEq

abbrev ProgramSurroundings : Interface where
  Question := ProgramRequest
  Answer
    | .call _ call => ResourceCalls.Answer call
    | .image query => ImageLookups.Answer query
    | .file request => FileAccess.Answer request

/-! ## Failures -/

inductive Failure where
  | call (failure : CallFailure)
  | validation (failure : ValidationError)
  | generation (failure : GenerationError)
  | cleanup (failure : IoError)
  deriving DecidableEq

namespace Failure

def message : Failure → String
  | call failure => failure.message
  | validation failure => failure.message
  | generation failure => failure.message
  | cleanup failure => failure.message

def cause? : Failure → Option String
  | call failure => some failure.cause.message
  | validation failure => failure.cause?.map ServiceError.message
  | generation failure => some failure.cause.message
  | cleanup _ => none

def report (failure : Failure) : String :=
  "Error: " ++ failure.message ++
    match failure.cause? with
    | none => ""
    | some cause => "\n\nCaused by:\n    " ++ Text.replaceAll cause "\n" "\n    "

end Failure

/-! ## Runs -/

namespace Program

def usage : String :=
  "\n".intercalate
    ["\x1b[36mUsage:",
     "  fixture-gen                 # Generate files and create secrets",
     "  fixture-gen --addon         # Generate files with EKS addon installation",
     "  fixture-gen --addon --version v2.1.1-eksbuild.1  " ++
       "# Generate with specific addon version",
     "  fixture-gen generate-files  # Generate files only",
     "  fixture-gen create-secrets  # Create secrets only",
     "  fixture-gen cleanup-secrets # Cleanup secrets only",
     "  fixture-gen cleanup-files   # Cleanup generated files only",
     "  fixture-gen validate-image  # Validate ECR image from PRIVREPO env var\x1b[0m"]

abbrev Run := Dialogue ProgramSurroundings Failure

def manageSecrets (settings : Settings) (action : Action) : Run Unit :=
  (Manager.manageMatrix settings.regions action)
    |>.within (J := ProgramSurroundings) (.call settings.regions) (fun _ answer => answer)
    |>.mapError .call

def generateFiles (settings : Settings) : Run String :=
  (generateFixtures settings.templateDir settings.outputDir settings.options)
    |>.within (J := ProgramSurroundings) .file (fun _ answer => answer)
    |>.mapError .generation
    |>.bind fun _ => .note .generatedEverything (.succeed (usage ++ "\n"))

def cleanupFiles (settings : Settings) : Run String :=
  (cleanUpFixtures settings.outputDir)
    |>.within (J := ProgramSurroundings) .file (fun _ answer => answer)
    |>.mapError .cleanup
    |>.bind fun _ => .succeed ""

def validateImage (settings : Settings) : Run String :=
  (validateUri settings.privrepo)
    |>.within (J := ProgramSurroundings) .image (fun _ answer => answer)
    |>.mapError .validation
    |>.bind fun image => .succeed (image.text ++ "\n")

/-- A run with the given settings. Its value is what is shown to the user in the end. -/
def run (settings : Settings) : Run String :=
  match settings.command with
  | .default => (manageSecrets settings .create).bind fun _ => generateFiles settings
  | .createSecrets => (manageSecrets settings .create).bind fun _ => .succeed ""
  | .cleanupSecrets => (manageSecrets settings .cleanup).bind fun _ => .succeed ""
  | .generateFiles => generateFiles settings
  | .cleanupFiles => cleanupFiles settings
  | .validateImage => validateImage settings

end Program

/-! ## Whole runs -/

structure World where
  cloud : Cloud
  files : FileTree

/-- Requests for resources and images go to the cloud, the others to the file tree. -/
def World.serve : Responder ProgramSurroundings World
  | .call clients call, world =>
    let (answer, cloud) := Cloud.backend clients call world.cloud
    (answer, { world with cloud })
  | .image query, world =>
    let (answer, cloud) := world.cloud.findImage query
    (answer, { world with cloud })
  | .file request, world =>
    let (answer, files) := FileTree.serve request world.files
    (answer, { world with files })

inductive Ending where
  | refused
  | succeeded (shown : String)
  | failed (failure : Failure)
  deriving DecidableEq

namespace Ending

def exitCode : Ending → Nat
  | refused => 2
  | succeeded _ => 0
  | failed _ => 1

def stdout : Ending → String
  | succeeded shown => shown
  | _ => ""

def stderr : Ending → String
  | refused => "Error: the arguments are not understood"
  | succeeded _ => ""
  | failed failure => failure.report

def ofResult : Except Failure String → Ending
  | .ok shown => succeeded shown
  | .error failure => failed failure

end Ending

structure Execution where
  ending : Ending
  log : List Notice
  world : World

namespace Program

def executeSettings (settings : Settings) (world : World) : Execution :=
  let outcome := (run settings).run World.serve world
  ⟨.ofResult outcome.result, outcome.log, outcome.state⟩

/-- A whole run. Refused arguments have no effect. -/
def execute (arguments : List String) (environment : Environment) (world : World) : Execution :=
  match Choices.parse arguments with
  | none => ⟨.refused, [], world⟩
  | some choices => executeSettings (choices.settings environment) world

end Program

end MountMatrix
