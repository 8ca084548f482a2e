import MountMatrix.Resource.Key
import MountMatrix.Template.Snippet

/-! # Command line arguments

What the user can choose, and how the choices are written.

* `Command`: what the program is to do.
* `Choices`: what the arguments say, each choice made at most once.
* `Choices.parse`: reads the arguments, or refuses them.
* `Settings`: what the program works with.
* `Choices.settings`: the arguments completed by the environment, and that by the defaults.

An option's value follows as the next argument or behind an equals sign. Options and the command
may come in any order; behind `--` there are no options.
-/

set_option autoImplicit false

namespace MountMatrix

/-! ## Commands -/

inductive Command where
  | default
  | createSecrets
  | cleanupSecrets
  | generateFiles
  | cleanupFiles
  | validateImage
  deriving DecidableEq

namespace Command

/-- The words for each command. Two words ask for the files alone. -/
def words : List (String × Command) :=
  [("default", default), ("create-secrets", createSecrets), ("cleanup-secrets", cleanupSecrets),
   ("generate-files", generateFiles), ("generate-only", generateFiles),
   ("cleanup-files", cleanupFiles), ("validate-image", validateImage)]

def ofWord? (word : String) : Option Command :=
  words.lookup word

end Command

/-! ## Options -/

inductive ValueOption where
  | version
  | templateDir
  | outputDir
  | region
  | failoverRegion
  | privrepo
  deriving DecidableEq

namespace ValueOption

def all : List ValueOption :=
  [version, templateDir, outputDir, region, failoverRegion, privrepo]

def name : ValueOption → String
  | version => "version"
  | templateDir => "template-dir"
  | outputDir => "output-dir"
  | region => "region"
  | failoverRegion => "failover-region"
  | privrepo => "privrepo"

def find? (name : String) : Option ValueOption :=
  all.find? fun option => option.name == name

@[simp]
theorem find?_name (option : ValueOption) : find? option.name = some option := by
  cases option <;> rfl

/-- A directory cannot be the empty path; every other value may be empty. -/
def accepts : ValueOption → String → Bool
  | templateDir, value => value != ""
  | outputDir, value => value != ""
  | _, _ => true

end ValueOption

/-! ## Reading -/

structure Choices where
  command : Option Command := none
  addon : Bool := false
  version : Option String := none
  templateDir : Option String := none
  outputDir : Option String := none
  region : Option String := none
  failoverRegion : Option String := none
  privrepo : Option String := none
  deriving DecidableEq

inductive Argument where
  | separator
  | option (name : String) (attached : Option String)
  | letters
  | word (text : String)
  deriving DecidableEq

namespace Argument

def splitAtEquals (text : List Char) : Argument :=
  let name := String.ofList (text.takeWhile (· != '='))
  match text.dropWhile (· != '=') with
  | [] => .option name none
  | _ :: value => .option name (some (.ofList value))

/-- What an argument is. A hyphen that stands alone is a word. -/
def ofText (text : String) : Argument :=
  match text.toList with
  | ['-', '-'] => .separator
  | '-' :: '-' :: rest => splitAtEquals rest
  | '-' :: _ :: _ => .letters
  | _ => .word text

end Argument

namespace Choices

def value? (choices : Choices) : ValueOption → Option String
  | .version => choices.version
  | .templateDir => choices.templateDir
  | .outputDir => choices.outputDir
  | .region => choices.region
  | .failoverRegion => choices.failoverRegion
  | .privrepo => choices.privrepo

def withValue (choices : Choices) (option : ValueOption) (value : String) : Choices :=
  match option with
  | .version => { choices with version := some value }
  | .templateDir => { choices with templateDir := some value }
  | .outputDir => { choices with outputDir := some value }
  | .region => { choices with region := some value }
  | .failoverRegion => { choices with failoverRegion := some value }
  | .privrepo => { choices with privrepo := some value }

@[simp]
theorem value?_withValue (choices : Choices) (option other : ValueOption) (value : String) :
    (choices.withValue option value).value? other =
      if other = option then some value else choices.value? other := by
  cases option <;> cases other <;> rfl

def choose (choices : Choices) (option : ValueOption) (value : String) : Option Choices :=
  if (choices.value? option).isNone && option.accepts value then
    some (choices.withValue option value)
  else none

def chooseAddon (choices : Choices) : Option Choices :=
  if choices.addon then none else some { choices with addon := true }

def chooseCommand (choices : Choices) (word : String) : Option Choices :=
  match choices.command, Command.ofWord? word with
  | none, some command => some { choices with command := some command }
  | _, _ => none

/-- Reads the arguments after those that led to the given choices. An argument that is the value of
the option before it has to be a word. -/
def parseFrom (choices : Choices) : List String → Option Choices
  | [] => some choices
  | argument :: rest =>
    match Argument.ofText argument with
    | .separator => rest.foldlM chooseCommand choices
    | .letters => none
    | .word text => (choices.chooseCommand text).bind fun next => next.parseFrom rest
    | .option name attached =>
      if name = "addon" then
        if attached.isSome then none
        else choices.chooseAddon.bind fun next => next.parseFrom rest
      else
        match ValueOption.find? name, attached, rest with
        | none, _, _ => none
        | some option, some value, rest =>
          (choices.choose option value).bind fun next => next.parseFrom rest
        | some _, none, [] => none
        | some option, none, argument :: rest =>
          match Argument.ofText argument with
          | .word value => (choices.choose option value).bind fun next => next.parseFrom rest
          | _ => none

/-- What the arguments say. Arguments that are not understood, and choices that are made twice, are
refused. -/
def parse (arguments : List String) : Option Choices :=
  ({} : Choices).parseFrom arguments

end Choices

/-! ## Settings -/

/-- The variables of the environment that complete the arguments. A variable that is set may be
empty. -/
structure Environment where
  region : Option String := none
  failoverRegion : Option String := none
  privrepo : Option String := none
  deriving DecidableEq

structure Settings where
  command : Command
  options : InstallOptions
  templateDir : String
  outputDir : String
  regions : Regions
  privrepo : Option String
  deriving DecidableEq

/-- The choices, completed by the environment, and where it is silent by the defaults. -/
def Choices.settings (choices : Choices) (environment : Environment) : Settings where
  command := choices.command.getD .default
  options := ⟨choices.addon, choices.version⟩
  templateDir := choices.templateDir.getD "."
  outputDir := choices.outputDir.getD "."
  regions := {
    primary := (choices.region <|> environment.region).getD Regions.standard.primary
    failover :=
      (choices.failoverRegion <|> environment.failoverRegion).getD Regions.standard.failover }
  privrepo := choices.privrepo <|> environment.privrepo

end MountMatrix
