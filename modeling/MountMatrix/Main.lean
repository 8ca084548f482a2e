import MountMatrix.CommandLine.Program

/-! # The executable

The program on the files of the machine it runs on. It has no connection to the services: a request
to them fails as in a cloud that cannot be reached.
-/

set_option autoImplicit false

namespace MountMatrix

def IoError.ofSystem : IO.Error → IoError
  | .noFileOrDirectory _ _ _ => .notFound
  | .inappropriateType _ code details =>
    if code = 20 then .notADirectory else if code = 21 then .isADirectory else .other details
  | .invalidArgument _ code details => if code = 36 then .nameTooLong else .other details
  | error => .other (toString error)

def withPath {α : Type} (path : String) (act : IO α) : IO (Except IoError α) := do
  if path.toList.contains (Char.ofNat 0) then return .error .nulInPath
  try return .ok (← act)
  catch error => return .error (.ofSystem error)

/-- Does what a request asks for. A file is looked into before it is removed, which fails if it is
a directory. -/
def FileRequest.perform : (request : FileRequest) → IO (Except IoError request.Value)
  | .read path => do
    let content ← withPath path do
      let file ← IO.FS.Handle.mk path .read
      file.readBinToEnd
    match content with
    | .error error => return .error error
    | .ok content =>
      match String.fromUTF8? content with
      | none => return .error .invalidText
      | some text => return .ok text
  | .write path text => withPath path (IO.FS.writeBinFile path text.toUTF8)
  | .remove path => withPath path do
    let file ← IO.FS.Handle.mk path .read
    let _ ← file.read 1
    IO.FS.removeFile path

def ProgramRequest.perform : (request : ProgramRequest) → IO (ProgramSurroundings.Answer request)
  | .call clients asked => return (Cloud.backend clients asked Cloud.disconnected).1
  | .image query => return (Cloud.disconnected.findImage query).1
  | .file request => request.perform

/-- Takes the course of a dialogue, whose notices for the user go to standard error. -/
def Dialogue.perform {ε α : Type} : Dialogue ProgramSurroundings ε α → IO (Except ε α)
  | finished result => return result
  | note notice rest => do
    if notice.level = .info then
      IO.eprintln ("[" ++ notice.level.name ++ "] " ++ notice.message)
    rest.perform
  | ask question rest => do
    let answer ← question.perform
    (rest answer).perform

end MountMatrix

open MountMatrix in
def main (arguments : List String) : IO UInt32 := do
  let environment : Environment :=
    ⟨← IO.getEnv "REGION", ← IO.getEnv "FAILOVERREGION", ← IO.getEnv "PRIVREPO"⟩
  let ending ← match Choices.parse arguments with
    | none => pure Ending.refused
    | some choices => do
      let result ← (Program.run (choices.settings environment)).perform
      pure (Ending.ofResult result)
  IO.print ending.stdout
  unless ending.stderr = "" do
    IO.eprintln ending.stderr
  return ending.exitCode.toUInt32
