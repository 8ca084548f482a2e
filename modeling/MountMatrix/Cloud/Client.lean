import MountMatrix.Cloud.Basic
import MountMatrix.Image.Validation

/-! # Clients of the cloud

How the program's questions become requests.

* `Cloud.backend`: the manager's calls, answered by the services of the regions that have clients.
* `Cloud.findImage`: the lookup of an image, through as many pages as a listing has.
* `ImageDetail.newest`: the image pushed last.
-/

set_option autoImplicit false

namespace MountMatrix

/-! ## Resources -/

namespace Cloud

def noClientError (region : String) : ServiceError :=
  ⟨none, "no client configured for region " ++ region⟩

def request : Call → Cloud → Except ServiceError Unit × Cloud
  | .create ⟨region, .secret, name⟩ value => createSecret region name value
  | .create ⟨region, .parameter, name⟩ value => putParameter region name value
  | .delete ⟨region, .secret, name⟩ => deleteSecret region name
  | .delete ⟨region, .parameter, name⟩ => deleteParameter region name

/-- Each call is one request. Only the given regions have clients. -/
def backend (clients : Regions) : Backend Cloud :=
  fun call cloud =>
    if call.key.region ∈ clients.toList then cloud.request call
    else (.error (noClientError call.key.region), cloud)

end Cloud

/-! ## Images -/

namespace ImageDetail

/-- The image pushed last: an image whose push time is not known loses to any other whose time is,
and of equals the first is taken. -/
def newest : List ImageDetail → Option ImageDetail
  | [] => none
  | first :: rest =>
    some (rest.foldl
      (fun best image => if PushTime.later image.pushedAt best.pushedAt then image else best)
      first)

/-- What a registry tells about the image. What it does not know is left empty. -/
def summary (image : ImageDetail) : ImageSummary where
  digest := image.digest.getD ""
  tags := image.tags
  pushedAt := (image.pushedAt.bind PushTime.text?).getD ""

end ImageDetail

namespace Cloud

/-- The newest image of a listing whose pages so far had `best`, with the notices on the way. The
listing ends with the first page that no token follows, or with a failure. -/
def newestFrom (region repository : String) (best : Option ImageDetail) (token : Option String)
    (cloud : Cloud) : List Notice × Except ServiceError (Option ImageDetail) × Cloud :=
  match _answered : cloud.describeImages region repository none token with
  | (.error error, after) => ([], .error error, after)
  | (.ok page, after) =>
    let best := ImageDetail.newest (best.toList ++ page.images)
    match page.next with
    | none => ([], .ok best, after)
    | some token =>
      let (log, result, last) := newestFrom region repository best (some token) after
      (.fetchingNextPage repository :: log, result, last)
termination_by cloud.pages.length
decreasing_by exact length_pages_of_describeImages _answered

/-- The image with the given tag: the first of the one page that is asked for. -/
def tagged (region repository tag : String) (cloud : Cloud) :
    Except ServiceError (Option ImageDetail) × Cloud :=
  match cloud.describeImages region repository (some tag) none with
  | (.error error, after) => (.error error, after)
  | (.ok page, after) => (.ok page.images.head?, after)

def findImage (query : ImageQuery) (cloud : Cloud) : ImageLookup × Cloud :=
  let (log, result, after) : List Notice × Except ServiceError (Option ImageDetail) × Cloud :=
    match query.tag with
    | some tag => ([], cloud.tagged query.region query.repository tag)
    | none => cloud.newestFrom query.region query.repository none none
  (⟨log, result.map fun found => found.map ImageDetail.summary⟩, after)

def registry : Responder ImageLookups Cloud :=
  findImage

end Cloud

end MountMatrix
