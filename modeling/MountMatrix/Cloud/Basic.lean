import MountMatrix.Cloud.PushTime
import MountMatrix.Cloud.Request
import MountMatrix.Resource.Store

/-! # The cloud

The services behind the program's requests, with all that their answers depend on.

* `Cloud`: the resources that exist, the pages of images still to be given out, and the requests
  that have arrived.
* `Cloud.deliver`: how a request travels. It is counted when it arrives, and may meet a fault.
* `Cloud.createSecret` and the operations after it: what the services do.
-/

set_option autoImplicit false

namespace MountMatrix

structure ImageDetail where
  digest : Option String
  tags : List String
  pushedAt : Option PushTime
  deriving DecidableEq

structure ImagePage where
  images : List ImageDetail
  next : Option String
  deriving DecidableEq

structure Cloud where
  reachable : Bool := true
  faults : List Fault := []
  store : Store := ∅
  pages : List (Except ServiceError ImagePage) := []
  requests : List Request := []

namespace Cloud

def disconnected : Cloud where
  reachable := false

def unreachableError : ServiceError := ⟨none, "the service cannot be reached"⟩

/-- Sends a request. One that arrives is counted from zero and kept; if its number has no fault, it
is handled. -/
def deliver {α : Type} (request : Request) (handle : Cloud → Except ServiceError α × Cloud)
    (cloud : Cloud) : Except ServiceError α × Cloud :=
  if cloud.reachable then
    let arrived := { cloud with requests := cloud.requests ++ [request] }
    match Fault.find? cloud.faults cloud.requests.length with
    | some error => (.error error, arrived)
    | none => handle arrived
  else (.error unreachableError, cloud)

section
variable {α : Type} {cloud : Cloud} (request : Request)
  (handle : Cloud → Except ServiceError α × Cloud)

theorem deliver_of_fault (reachable : cloud.reachable = true) {error : ServiceError}
    (fault : Fault.find? cloud.faults cloud.requests.length = some error) :
    deliver request handle cloud =
      (.error error, { cloud with requests := cloud.requests ++ [request] }) := by
  simp [deliver, reachable, fault]

theorem deliver_of_no_fault (reachable : cloud.reachable = true)
    (fault : Fault.find? cloud.faults cloud.requests.length = none) :
    deliver request handle cloud =
      handle { cloud with requests := cloud.requests ++ [request] } := by
  simp [deliver, reachable, fault]

end

/-! ## Secrets and parameters -/

def claim (key : ResourceKey) (value : String) (cloud : Cloud) :
    Except ServiceError Unit × Cloud :=
  if key ∈ cloud.store then
    let code := match key.kind with
      | .secret => "ResourceExistsException"
      | .parameter => "ParameterAlreadyExists"
    (.error ⟨some code, "the name " ++ key.name ++ " is taken"⟩, cloud)
  else (.ok (), { cloud with store := cloud.store.insert key value })

def release (key : ResourceKey) (cloud : Cloud) : Except ServiceError Unit × Cloud :=
  if key ∈ cloud.store then (.ok (), { cloud with store := cloud.store.erase key })
  else
    let code := match key.kind with
      | .secret => "ResourceNotFoundException"
      | .parameter => "ParameterNotFound"
    (.error ⟨some code, "there is no " ++ key.name⟩, cloud)

def createSecret (region name value : String) : Cloud → Except ServiceError Unit × Cloud :=
  deliver ⟨region, .createSecret name value⟩ (claim ⟨region, .secret, name⟩ value)

def deleteSecret (region name : String) : Cloud → Except ServiceError Unit × Cloud :=
  deliver ⟨region, .deleteSecret name true⟩ (release ⟨region, .secret, name⟩)

def putParameter (region name value : String) : Cloud → Except ServiceError Unit × Cloud :=
  deliver ⟨region, .putParameter name value "SecureString" false⟩
    (claim ⟨region, .parameter, name⟩ value)

def deleteParameter (region name : String) : Cloud → Except ServiceError Unit × Cloud :=
  deliver ⟨region, .deleteParameter name⟩ (release ⟨region, .parameter, name⟩)

/-! ## Images -/

def turnPage (cloud : Cloud) : Except ServiceError ImagePage × Cloud :=
  match cloud.pages with
  | [] => (.error ⟨some "PagesExhausted", "there are no more pages"⟩, cloud)
  | page :: rest => (page, { cloud with pages := rest })

def describeImages (region repository : String) (tag token : Option String) :
    Cloud → Except ServiceError ImagePage × Cloud :=
  deliver ⟨region, .describeImages repository tag token⟩ turnPage

theorem length_pages_of_describeImages {region repository : String} {tag token : Option String}
    {cloud after : Cloud} {page : ImagePage}
    (h : cloud.describeImages region repository tag token = (.ok page, after)) :
    after.pages.length < cloud.pages.length := by
  unfold describeImages deliver at h
  split at h
  · dsimp only at h
    split at h
    · cases h
    · unfold turnPage at h
      split at h
      · cases h
      · next first rest pages =>
        obtain ⟨-, rfl⟩ := Prod.mk.inj h
        rw [show cloud.pages = first :: rest from pages]
        exact Nat.lt_succ_self _
  · cases h

end Cloud

end MountMatrix
