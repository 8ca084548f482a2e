import MountMatrix.Proofs.NewestImage

/-! # A validation from the address to the verdict

An address that cannot be read is refused before anything is asked. Any other is looked up in the
registry that it names, and what the lookup comes to settles the verdict.

* `Cloud.Listing`: the pages that a walk through a listing will be given, and how it will end.
* `Cloud.Lookup`: the requests of a lookup and what it comes to.
* `findImage_of_lookup`, `exists_lookup`: every lookup is one of these.
* `ImageReference.judge_eq_ok_iff` and the laws after it: the verdicts.
* `validateUri_run`: requests and verdict of a whole validation.
-/

set_option autoImplicit false

namespace MountMatrix

/-! ## Lookups -/

namespace Cloud

/-- The pages of a listing that others follow, and the answer that ends it: a failure, or the last
page. -/
structure Listing (cloud : Cloud) (before : List ImagePage)
    (answer : Except ServiceError ImagePage) : Prop where
  answered : ∀ k (h : k < before.length), cloud.answerAt k = .ok before[k]
  continued : ∀ page ∈ before, page.next.isSome
  ended : cloud.answerAt before.length = answer
  last : ∀ page, answer = .ok page → page.next = none

/-- One request for each page that is asked for: the first without a token, each later one with the
token of the page before. -/
def pageRequests (region repository : String) (before : List ImagePage) : List Request :=
  (none :: before.map ImagePage.next).map fun token =>
    ⟨region, .describeImages repository none token⟩

/-- The requests of a lookup, and what it comes to. With a tag there is one request, for this tag,
and the first image of the answer counts; without one there is a request for each page of the
listing, and the first of the newest images of all pages counts. A failure ends either. -/
inductive Lookup (cloud : Cloud) (region repository : String) :
    Option String → List Request → Except ServiceError (Option ImageDetail) → Prop
  | tagged (tag : String) :
      Lookup cloud region repository (some tag)
        [⟨region, .describeImages repository (some tag) none⟩]
        ((cloud.answerAt 0).map fun page => page.images.head?)
  | listed {before : List ImagePage} {last : ImagePage} {found : Option ImageDetail}
      (listing : cloud.Listing before (.ok last))
      (newest : ∀ image, found = some image ↔
        image.FirstOfNewest (before.flatMap ImagePage.images ++ last.images)) :
      Lookup cloud region repository none (pageRequests region repository before) (.ok found)
  | cutShort {before : List ImagePage} {error : ServiceError}
      (listing : cloud.Listing before (.error error)) :
      Lookup cloud region repository none (pageRequests region repository before) (.error error)

variable {cloud : Cloud} {region repository : String} {tag : Option String}
  {requests : List Request} {answer : Except ServiceError (Option ImageDetail)}

theorem Lookup.eq_of_mem (h : cloud.Lookup region repository tag requests answer)
    {request : Request} (hrequest : request ∈ requests) :
    ∃ token, request = ⟨region, .describeImages repository tag token⟩ := by
  cases h with
  | tagged tag => exact ⟨none, List.mem_singleton.mp hrequest⟩
  | listed listing newest =>
    obtain ⟨token, -, rfl⟩ := List.mem_map.mp hrequest
    exact ⟨token, rfl⟩
  | cutShort listing =>
    obtain ⟨token, -, rfl⟩ := List.mem_map.mp hrequest
    exact ⟨token, rfl⟩

theorem run_tagged (region repository tag : String) (reachable : cloud.reachable = true) :
    (cloud.tagged region repository tag).1 =
        (cloud.answerAt 0).map (fun page => page.images.head?) ∧
      (cloud.tagged region repository tag).2.requests =
        cloud.requests ++ [⟨region, .describeImages repository (some tag) none⟩] := by
  cases answered : cloud.answerAt 0 with
  | ok page =>
    rw [tagged, describeImages_of_ok region repository (some tag) none reachable answered]
    exact ⟨rfl, rfl⟩
  | error error =>
    obtain ⟨after, hanswer, hrequests⟩ :=
      describeImages_of_error region repository (some tag) none reachable answered
    rw [tagged, hanswer]
    exact ⟨rfl, hrequests⟩

theorem newestFrom_of_listing (region repository : String) (reachable : cloud.reachable = true)
    {before : List ImagePage} {last : Except ServiceError ImagePage}
    (listing : cloud.Listing before last) :
    let walk := newestFrom region repository none none cloud
    walk.2.1 = last.map (fun page =>
      ImageDetail.newest (before.flatMap ImagePage.images ++ page.images)) ∧
    walk.2.2.requests = cloud.requests ++ pageRequests region repository before :=
  newestFrom_of_pages region repository none before last none cloud reachable listing.answered
    listing.continued listing.ended listing.last

theorem findImage_of_lookup (reachable : cloud.reachable = true)
    (h : cloud.Lookup region repository tag requests answer) :
    let found := findImage ⟨region, repository, tag⟩ cloud
    found.1.result = answer.map (fun image => image.map ImageDetail.summary) ∧
      found.2.requests = cloud.requests ++ requests := by
  cases h with
  | tagged tag =>
    obtain ⟨hresult, hrequests⟩ := run_tagged region repository tag reachable
    exact ⟨congrArg (Except.map (Option.map ImageDetail.summary)) hresult, hrequests⟩
  | @listed before last found listing newest =>
    obtain ⟨hresult, hrequests⟩ := newestFrom_of_listing region repository reachable listing
    have hfound : found = ImageDetail.newest (before.flatMap ImagePage.images ++ last.images) :=
      Option.ext fun image => (newest image).trans ImageDetail.newest_eq_some_iff.symm
    rw [hfound]
    exact ⟨congrArg (Except.map (Option.map ImageDetail.summary)) hresult, hrequests⟩
  | cutShort listing =>
    obtain ⟨hresult, hrequests⟩ := newestFrom_of_listing region repository reachable listing
    exact ⟨congrArg (Except.map (Option.map ImageDetail.summary)) hresult, hrequests⟩

/-- A listing ends at the latest when there are no more pages. -/
theorem exists_listing (cloud : Cloud) : ∃ before answer, cloud.Listing before answer := by
  let goesOn : Nat → ImagePage → Prop := fun k page => cloud.answerAt k = .ok page ∧ page.next.isSome
  have hends : ∃ k, ¬ ∃ page, goesOn k page := by
    refine ⟨cloud.pages.length, ?_⟩
    rintro ⟨page, hanswer, -⟩
    rw [answerAt, List.getElem?_eq_none (Nat.le_refl _)] at hanswer
    split at hanswer <;> cases hanswer
  classical
  let n := Nat.find hends
  have hbefore : ∀ k : Fin n, ∃ page, goesOn k page := fun k =>
    not_not.mp (Nat.find_min hends k.isLt)
  choose page hpage using hbefore
  refine ⟨List.ofFn page, cloud.answerAt n, ?_, ?_, ?_, ?_⟩
  · intro k hk
    have hkn : k < n := by simpa using hk
    rw [List.getElem_ofFn]
    exact (hpage ⟨k, hkn⟩).1
  · intro other hother
    obtain ⟨k, rfl⟩ := (List.mem_ofFn' page other).mp hother
    exact (hpage k).2
  · rw [List.length_ofFn]
  · intro last hlast
    have hstop := Nat.find_spec hends
    by_contra hnext
    exact hstop ⟨last, hlast, Option.isSome_iff_ne_none.mpr hnext⟩

theorem exists_lookup (cloud : Cloud) (region repository : String) (tag : Option String) :
    ∃ requests answer, cloud.Lookup region repository tag requests answer := by
  cases tag with
  | some tag => exact ⟨_, _, .tagged tag⟩
  | none =>
    obtain ⟨before, answer, listing⟩ := exists_listing cloud
    cases answer with
    | error error => exact ⟨_, _, .cutShort listing⟩
    | ok last => exact ⟨_, _, .listed listing fun image => ImageDetail.newest_eq_some_iff⟩

end Cloud

/-! ## Verdicts -/

namespace ImageReference

variable {image : ImageReference} {text : String}
  {looked : Except ServiceError (Option ImageSummary)}

theorem uri_of_parse? (h : parse? text = some image) : image.uri = text := by
  simp only [parse?, Option.bind_eq_bind, Option.bind_eq_some_iff, Option.some.injEq] at h
  obtain ⟨_, -, _, -, _, -, _, -, _, -, rfl⟩ := h
  rfl

theorem ne_empty_of_parse? (h : parse? text = some image) : text ≠ "" := by
  rintro rfl
  cases h

theorem judge_eq_ok_iff {validated : ValidatedImage} :
    image.judge looked = .ok validated ↔ ∃ found, looked = .ok (some found) ∧
      validated = ⟨image.resolvedUri found, found.digest, found.pushedAt⟩ := by
  rcases looked with cause | _ | found <;> simp [judge, eq_comm]

theorem judge_eq_noImages_iff {shown : String} :
    image.judge looked = .error (.noImages shown) ↔ looked = .ok none ∧ shown = image.uri := by
  rcases looked with cause | _ | found
  · simp only [judge, ValidationError.ofLookup]
    split <;> simp
  · simp [judge, eq_comm]
  · simp [judge]

theorem judge_eq_repositoryNotFound_iff {repository : String} :
    image.judge looked = .error (.repositoryNotFound repository) ↔
      ∃ cause, looked = .error cause ∧ cause.code = some repositoryNotFoundCode ∧
        repository = image.repository := by
  rcases looked with cause | _ | found
  · simp only [judge, ValidationError.ofLookup]
    split <;> simp_all [eq_comm]
  · simp [judge]
  · simp [judge]

theorem judge_eq_service_iff {cause : ServiceError} :
    image.judge looked = .error (.service cause) ↔
      looked = .error cause ∧ cause.code ≠ some repositoryNotFoundCode := by
  rcases looked with cause' | _ | found
  · simp only [judge, ValidationError.ofLookup]
    split <;> grind
  · simp [judge]
  · simp [judge]

theorem run_validate {σ : Type} (respond : Responder ImageLookups σ) (image : ImageReference)
    (state : σ) :
    image.validate.run respond state =
      ⟨image.judge (respond image.query state).1.result, (respond image.query state).2,
        (respond image.query state).1.log⟩ := by
  rw [validate, Dialogue.run_ask, Dialogue.run_noteAll, Dialogue.run_finished, List.append_nil]

end ImageReference

theorem validateUri_of_ne_empty {text : String} (h : text ≠ "") :
    validateUri (some text) =
      match ImageReference.parse? text with
      | some image => .note (.lookingUpImage image.repository image.region) image.validate
      | none => .fail (.invalidUri text) := by
  have hfilter : (some text).filter (· != "") = some text := by simp [h]
  rw [validateUri, hfilter]
  simp only [ImageReference.parse]
  cases ImageReference.parse? text <;> rfl

theorem run_validateUri_of_lookup {cloud : Cloud} (reachable : cloud.reachable = true)
    {text : String} {image : ImageReference} (hparse : ImageReference.parse? text = some image)
    {requests : List Request} {answer : Except ServiceError (Option ImageDetail)}
    (hlookup : cloud.Lookup image.region image.repository image.tag requests answer) :
    let outcome := (validateUri (some text)).run Cloud.registry cloud
    outcome.result = image.judge (answer.map (Option.map ImageDetail.summary)) ∧
      outcome.state.requests = cloud.requests ++ requests := by
  obtain ⟨hlooked, hrequests⟩ := Cloud.findImage_of_lookup reachable hlookup
  rw [validateUri_of_ne_empty (ImageReference.ne_empty_of_parse? hparse), hparse]
  simp only [Dialogue.run_note, ImageReference.run_validate]
  exact ⟨congrArg image.judge hlooked, hrequests⟩

section Answer
variable {answer : Except ServiceError (Option ImageDetail)}

theorem summaries_eq_some_iff {summary : ImageSummary} :
    answer.map (Option.map ImageDetail.summary) = .ok (some summary) ↔
      ∃ found, answer = .ok (some found) ∧ found.summary = summary := by
  rcases answer with cause | _ | found <;> simp [Except.map]

theorem summaries_eq_none_iff :
    answer.map (Option.map ImageDetail.summary) = .ok none ↔ answer = .ok none := by
  rcases answer with cause | _ | found <;> simp [Except.map]

theorem summaries_eq_error_iff {cause : ServiceError} :
    answer.map (Option.map ImageDetail.summary) = .error cause ↔ answer = .error cause := by
  rcases answer with cause | _ | found <;> simp [Except.map]

end Answer

/-! ## A whole validation -/

/-- A missing or empty address, and one that cannot be read, ask nothing. Any other address leads to
one lookup in the repository and the region that it names, by its tag if it has one. The verdict is
good if the lookup comes to an image, whose digest and push time are told; the address is told as it
is if it has a tag, and else with the first tag of that image. No image, a repository that is not
known and any other failure are told apart. -/
theorem validateUri_run (cloud : Cloud) (reachable : cloud.reachable = true)
    (uri : Option String) :
    let outcome := (validateUri uri).run Cloud.registry cloud
    ((uri = none ∨ uri = some "") →
      outcome.result = .error (.missingVariable "PRIVREPO") ∧ outcome.state = cloud) ∧
    ∀ text, uri = some text → text ≠ "" →
      (ImageReference.parse? text = none →
        outcome.result = .error (.invalidUri text) ∧ outcome.state = cloud) ∧
      ∀ image, ImageReference.parse? text = some image →
        (∃ requests answer,
          cloud.Lookup image.region image.repository image.tag requests answer) ∧
        ∀ requests answer, cloud.Lookup image.region image.repository image.tag requests answer →
          outcome.state.requests = cloud.requests ++ requests ∧
          (∀ request ∈ requests, ∃ token,
            request = ⟨image.region, .describeImages image.repository image.tag token⟩) ∧
          (∀ validated, outcome.result = .ok validated ↔
            ∃ found, answer = .ok (some found) ∧ validated.digest = found.digest.getD "" ∧
              validated.pushedAt = (found.pushedAt.bind PushTime.text?).getD "" ∧
              validated.uri = match image.tag with
                | some _ => text
                | none => text ++ ":" ++ found.tags.headD "<untagged>") ∧
          (∀ shown, outcome.result = .error (.noImages shown) ↔
            answer = .ok none ∧ shown = text) ∧
          (∀ repository, outcome.result = .error (.repositoryNotFound repository) ↔
            ∃ cause, answer = .error cause ∧
              cause.code = some "RepositoryNotFoundException" ∧ repository = image.repository) ∧
          ∀ cause, outcome.result = .error (.service cause) ↔
            answer = .error cause ∧ cause.code ≠ some "RepositoryNotFoundException" := by
  intro outcome
  refine ⟨?_, ?_⟩
  · rintro (rfl | rfl)
    · exact ⟨rfl, rfl⟩
    · exact ⟨rfl, rfl⟩
  rintro text rfl hne
  refine ⟨fun hparse => ?_, fun image hparse => ⟨cloud.exists_lookup _ _ _, ?_⟩⟩
  · have hrefused := validateUri_of_ne_empty hne
    rw [hparse] at hrefused
    have houtcome : outcome = ⟨.error (.invalidUri text), cloud, []⟩ :=
      congrArg (Dialogue.run Cloud.registry · cloud) hrefused
    rw [houtcome]
    exact ⟨rfl, rfl⟩
  intro requests answer hlookup
  obtain ⟨hresult, hrequests⟩ := run_validateUri_of_lookup reachable hparse hlookup
  have huri := ImageReference.uri_of_parse? hparse
  refine ⟨hrequests, fun request => hlookup.eq_of_mem, fun validated => ?_, fun shown => ?_,
    fun repository => ?_, fun cause => ?_⟩
  · rw [hresult, ImageReference.judge_eq_ok_iff]
    simp only [summaries_eq_some_iff]
    constructor
    · rintro ⟨_, ⟨found, hfound, rfl⟩, rfl⟩
      exact ⟨found, hfound, rfl, rfl, by rw [← huri]; rfl⟩
    · rintro ⟨found, hfound, hdigest, hpushed, hshown⟩
      refine ⟨_, ⟨found, hfound, rfl⟩, ?_⟩
      obtain ⟨shown, digest, pushedAt⟩ := validated
      rw [ValidatedImage.mk.injEq]
      refine ⟨hshown.trans ?_, hdigest, hpushed⟩
      rw [← huri]
      rfl
  · rw [hresult, ImageReference.judge_eq_noImages_iff, huri, summaries_eq_none_iff]
  · rw [hresult, ImageReference.judge_eq_repositoryNotFound_iff]
    simp only [summaries_eq_error_iff]
    rfl
  · rw [hresult, ImageReference.judge_eq_service_iff, summaries_eq_error_iff]
    rfl

/-- A listing of two pages, whose only image is on the first. If the second page is refused, the
image does not count. -/
theorem validateUri_run_of_two_pages :
    let image : ImageDetail := ⟨some "sha256:a", ["v1", "v2"], some ⟨5, 0⟩⟩
    let first : ImagePage := ⟨[image], some "more"⟩
    let refusal : ServiceError := ⟨some "RepositoryNotFoundException", "no such repository"⟩
    let whole : Cloud := { pages := [.ok first, .ok ⟨[], none⟩] }
    let cut : Cloud := { whole with faults := [⟨1, refusal⟩] }
    let address := "1.dkr.ecr.eu-west-1.amazonaws.com/provider"
    let requests : List Request := [none, some "more"].map fun token =>
      ⟨"eu-west-1", .describeImages "provider" none token⟩
    let validation := fun cloud => (validateUri (some address)).run Cloud.registry cloud
    (whole.reachable = true ∧ cut.reachable = true) ∧
    ((validation whole).result =
        .ok ⟨address ++ ":v1", "sha256:a", "1970-01-01T00:00:05Z"⟩ ∧
      (validation whole).state.requests = requests) ∧
    (validation cut).result = .error (.repositoryNotFound "provider") ∧
      (validation cut).state.requests = requests := by
  intro image first refusal whole cut address requests validation
  have hparse : ImageReference.parse? address =
      some ⟨address, "1", "eu-west-1", "provider", none⟩ := by decide +kernel
  have continued : ∀ page ∈ [first], page.next.isSome := by simp [first]
  have answered : ∀ cloud : Cloud, cloud.answerAt 0 = .ok first →
      ∀ k (h : k < [first].length), cloud.answerAt k = .ok [first][k] := by
    rintro cloud hfirst k h
    obtain rfl := Nat.lt_one_iff.mp h
    exact hfirst
  have hwhole : whole.Lookup "eu-west-1" "provider" none requests (.ok (some image)) :=
    .listed ⟨answered whole rfl, continued, rfl, fun page hpage => by cases hpage; rfl⟩
      fun found => @ImageDetail.newest_eq_some_iff [image] found
  have hcut : cut.Lookup "eu-west-1" "provider" none requests (.error refusal) :=
    .cutShort ⟨answered cut rfl, continued, rfl, nofun⟩
  refine ⟨⟨rfl, rfl⟩, ?_, ?_⟩
  · obtain ⟨hrequests, -, hverdict, -⟩ :=
      (((validateUri_run whole rfl (some address)).2 address rfl (by decide)).2 _ hparse).2 _ _
        hwhole
    exact ⟨(hverdict _).mpr ⟨image, rfl, rfl, by decide +kernel, rfl⟩, hrequests⟩
  · obtain ⟨hrequests, -, -, -, hverdict, -⟩ :=
      (((validateUri_run cut rfl (some address)).2 address rfl (by decide)).2 _ hparse).2 _ _ hcut
    exact ⟨(hverdict _).mpr ⟨refusal, rfl, rfl, rfl⟩, hrequests⟩

end MountMatrix
