import MountMatrix.Resource.Call

/-! # The log

Everything that the program reports while it works. A notice says what happened; its wording and
its level are functions of that.
-/

set_option autoImplicit false

namespace MountMatrix

inductive Level where
  | info
  | debug
  deriving DecidableEq

def Level.name : Level → String
  | .info => "INFO"
  | .debug => "DEBUG"

inductive Notice where
  | managingMatrix (action : Action)
  | managing (action : Action) (v : Variant)
  | calling (call : Call)
  | alreadySettled (key : ResourceKey)
  | managedMatrix (action : Action)
  | lookingUpImage (repository region : String)
  | fetchingNextPage (repository : String)
  | generating (v : Variant)
  | rendered (template output : String)
  | generated (path : String)
  | generatedEverything
  | removed (path : String)
  | cleanedUpFiles
  deriving DecidableEq

namespace Notice

/-- The steps of paging and rendering are reported for debugging, everything else for the user. -/
def level : Notice → Level
  | .fetchingNextPage _ => .debug
  | .rendered _ _ => .debug
  | _ => .info

def message : Notice → String
  | .managingMatrix action => action.progressive ++ " secrets for all test configurations..."
  | .managing action v => action.progressive ++ " resources for " ++ v.name ++ "..."
  | .calling call =>
    "  " ++ call.verb ++ " " ++ call.key.kind.name ++ ": " ++ call.key.located
  | .alreadySettled key => "  Already exists/not found: " ++ key.located
  | .managedMatrix action => "All secrets " ++ action.past ++ " successfully"
  | .lookingUpImage repository region =>
    "Validating image in repository " ++ repository ++ " (" ++ region ++ ")"
  | .fetchingNextPage repository => "Fetching next page of images in " ++ repository
  | .generating v => "Generating files for " ++ v.name ++ "..."
  | .rendered template output => "Rendered " ++ template ++ " to " ++ output
  | .generated path => "  Generated: " ++ path
  | .generatedEverything => "All test files generated successfully"
  | .removed path => "Removed " ++ path
  | .cleanedUpFiles => "Generated files cleaned up"

def record (notice : Notice) : String :=
  notice.level.name ++ " " ++ notice.message

end Notice

end MountMatrix
