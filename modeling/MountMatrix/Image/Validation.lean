import MountMatrix.Dialogue
import MountMatrix.ServiceError
import MountMatrix.Image.Reference

/-! # Image validation

The check that a private provider image exists before a test run installs it.

* `ImageLookups`: the registries, which answer what image they hold.
* `ImageReference.validate`: looks an image up and judges the answer.
* `validateUri`: the same for an address that may be missing or wrong.
* `ValidationError.message`: the failures in words.
-/

set_option autoImplicit false

namespace MountMatrix

/-! ## Registries -/

structure ImageSummary where
  digest : String
  tags : List String
  pushedAt : String
  deriving DecidableEq

/-- Asks the registry of a region for an image: the one with the tag, or the one pushed last when
no tag is given. -/
structure ImageQuery where
  region : String
  repository : String
  tag : Option String
  deriving DecidableEq

structure ImageLookup where
  log : List Notice
  result : Except ServiceError (Option ImageSummary)

abbrev ImageLookups : Interface where
  Question := ImageQuery
  Answer := fun _ => ImageLookup

def repositoryNotFoundCode : String := "RepositoryNotFoundException"

/-! ## Results -/

structure ValidatedImage where
  uri : String
  digest : String
  pushedAt : String
  deriving DecidableEq

/-- The image as it is shown to the user, in three lines without a final newline. -/
def ValidatedImage.text (image : ValidatedImage) : String :=
  "✓ Image validated: " ++ image.uri ++ "\n  Digest: " ++ image.digest ++
    "\n  Pushed at: " ++ image.pushedAt

inductive ValidationError where
  | missingVariable (name : String)
  | invalidUri (uri : String)
  | repositoryNotFound (repository : String)
  | noImages (uri : String)
  | service (cause : ServiceError)
  deriving DecidableEq

namespace ValidationError

def message : ValidationError → String
  | missingVariable name => name ++ " environment variable not set"
  | invalidUri uri => "Invalid ECR image URI format: " ++ uri
  | repositoryNotFound repository => "Repository not found: " ++ repository
  | noImages uri => "No images found in repository: " ++ uri
  | service cause => "Error validating image: " ++ cause.message

def cause? : ValidationError → Option ServiceError
  | service cause => some cause
  | _ => none

def ofLookup (image : ImageReference) (cause : ServiceError) : ValidationError :=
  if cause.code = some repositoryNotFoundCode then
    .repositoryNotFound image.repository
  else
    .service cause

end ValidationError

/-! ## The check -/

abbrev Validation := Dialogue ImageLookups ValidationError

namespace ImageReference

def parse (uri : String) : Except ValidationError ImageReference :=
  match parse? uri with
  | some image => .ok image
  | none => .error (.invalidUri uri)

/-- The address with the tag of the image that was found. An address that has no tag is followed
by the image's first tag. -/
def resolvedUri (image : ImageReference) (found : ImageSummary) : String :=
  match image.tag with
  | some _ => image.uri
  | none => image.uri ++ ":" ++ found.tags.headD "<untagged>"

def judge (image : ImageReference) :
    Except ServiceError (Option ImageSummary) → Except ValidationError ValidatedImage
  | .ok (some found) => .ok ⟨image.resolvedUri found, found.digest, found.pushedAt⟩
  | .ok none => .error (.noImages image.uri)
  | .error cause => .error (.ofLookup image cause)

def query (image : ImageReference) : ImageQuery :=
  ⟨image.region, image.repository, image.tag⟩

def validate (image : ImageReference) : Validation ValidatedImage :=
  .ask image.query fun lookup => .noteAll lookup.log (.finished (image.judge lookup.result))

end ImageReference

/-- Validates the image at the given address. A missing or empty address is reported as the
environment variable that it is normally taken from. -/
def validateUri (uri : Option String) : Validation ValidatedImage :=
  match uri.filter (· != "") with
  | none => .fail (.missingVariable "PRIVREPO")
  | some uri =>
    match ImageReference.parse uri with
    | .error error => .fail error
    | .ok image => .note (.lookingUpImage image.repository image.region) image.validate

end MountMatrix
