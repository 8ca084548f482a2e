import MountMatrix.Proofs.AddressGrammar
import MountMatrix.Proofs.ValidationRun

/-! # The address that a validation reports

For an address without a tag the report puts the tag of the image that was found behind the whole
text of the address. The reader passes over some texts behind the repository, so what is reported
is read back as the image only where there was nothing to pass over.

* `Address.untagged_iff`: what follows the repository in an address without a tag.
* `Address.followedBy`, `tagOf_followedBy`: an address with a name put behind its text.
* `ImageReference.reported_names_found_iff`: when the reported address names the image.
-/

set_option autoImplicit false

namespace MountMatrix

namespace Address

/-- Either nothing follows the repository, or the line ends right after the colon. -/
theorem untagged_iff (address : Address) :
    ImageReference.tagOf address.trailer.toList = none ↔
      address.trailer = "" ∨ address.trailer = ":" ∨ ∃ more, address.trailer = ":\n" ++ more := by
  constructor
  · intro h
    obtain hnone | ⟨more, hmore⟩ := address.trailer_colon
    · exact .inl hnone
    have hlist : address.trailer.toList = ':' :: more.toList := by simp [hmore]
    rw [hlist, ImageReference.tagOf_colon, Option.map_eq_none_iff] at h
    cases hchars : more.toList with
    | nil => exact .inr (.inl (String.toList_inj.mp (by rw [hlist, hchars]; rfl)))
    | cons c rest =>
      have hc : c = '\n' := by
        by_contra hne
        rw [hchars, ImageReference.field?, List.takeWhile_cons_of_pos (by simpa using hne)] at h
        cases h
      refine .inr (.inr ⟨.ofList rest, String.toList_inj.mp ?_⟩)
      rw [hlist, hchars, hc]
      simp
  · rintro (h | h | ⟨more, h⟩)
    · rw [h]; rfl
    · rw [h]; rfl
    · have hlist : address.trailer.toList = ':' :: '\n' :: more.toList := by simp [h]
      rw [hlist]
      rfl

/-- The address whose text is that of the given one with a colon and the name behind it. -/
def followedBy (address : Address) (name : String) : Address :=
  { address with
    trailer := address.trailer ++ ":" ++ name
    trailer_colon := by
      right
      obtain hnone | ⟨more, hmore⟩ := address.trailer_colon
      · exact ⟨name, by simp [hnone]⟩
      · exact ⟨more ++ ":" ++ name, by simp [hmore, String.append_assoc]⟩ }

theorem text_followedBy (address : Address) (name : String) :
    (address.followedBy name).text = address.text ++ ":" ++ name := by
  simp only [text, followedBy, String.append_assoc]

section
variable {address : Address} {name : String}

theorem hasTag_followedBy_of_bare (bare : address.trailer = "") (nonempty : name ≠ "")
    (oneLine : '\n' ∉ name.toList) : (address.followedBy name).HasTag name :=
  ⟨nonempty, oneLine, "", by simp [followedBy, bare], .inl rfl⟩

theorem hasTag_followedBy_of_colon (colon : address.trailer = ":")
    (oneLine : '\n' ∉ name.toList) : (address.followedBy name).HasTag (":" ++ name) := by
  refine ⟨fun hempty => ?_, ?_, "", ?_, .inl rfl⟩
  · simpa using congrArg String.toList hempty
  · simpa using oneLine
  · exact String.toList_inj.mp (by simp [followedBy, colon])

theorem untagged_followedBy_of_newline {more : String} (newline : address.trailer = ":\n" ++ more) :
    ImageReference.tagOf (address.followedBy name).trailer.toList = none := by
  refine (untagged_iff _).mpr (.inr (.inr ⟨more ++ ":" ++ name, ?_⟩))
  simp [followedBy, newline, String.append_assoc]

/-- The tag that is read from an address with a name put behind it, if the address had none. -/
theorem tagOf_followedBy (untagged : ImageReference.tagOf address.trailer.toList = none)
    (nonempty : name ≠ "") (oneLine : '\n' ∉ name.toList) :
    let tag := ImageReference.tagOf (address.followedBy name).trailer.toList
    (address.trailer = "" ∧ tag = some name) ∨
      (address.trailer = ":" ∧ tag = some (":" ++ name)) ∨
      ∃ more, address.trailer = ":\n" ++ more ∧ tag = none := by
  obtain bare | colon | ⟨more, newline⟩ := address.untagged_iff.mp untagged
  · exact .inl ⟨bare, (tagOf_trailer_eq_some_iff _ _).mpr
      (hasTag_followedBy_of_bare bare nonempty oneLine)⟩
  · exact .inr (.inl ⟨colon, (tagOf_trailer_eq_some_iff _ _).mpr
      (hasTag_followedBy_of_colon colon oneLine)⟩)
  · exact .inr (.inr ⟨more, newline, untagged_followedBy_of_newline newline⟩)

end

end Address

namespace ImageReference

/-- The address up to its repository. -/
def bareText (image : ImageReference) : String :=
  image.account ++ ".dkr.ecr." ++ image.region ++ ".amazonaws.com/" ++ image.repository

theorem run_validate_of_found {σ : Type} {respond : Responder ImageLookups σ} {state : σ}
    {image : ImageReference} {found : ImageSummary}
    (hreply : (respond image.query state).1.result = .ok (some found)) :
    (image.validate.run respond state).result =
      .ok ⟨image.resolvedUri found, found.digest, found.pushedAt⟩ := by
  rw [run_validate, hreply]
  rfl

/-- An address without a tag, for which the registry has an image with a first tag, is reported as
an address again, with the same account, region and repository. The tag that is read from it is the
image's, and a validation of it asks for that tag, exactly if nothing follows the repository in the
address that was given. Otherwise a colon follows: if that is all, the reported tag has a colon too
many, and if the line ends after it, there is no tag in the report. -/
theorem reported_names_found_iff {σ : Type} (respond : Responder ImageLookups σ) (state : σ)
    {text tag : String} {image : ImageReference} {found : ImageSummary}
    (hparse : parse text = .ok image) (untagged : image.tag = none)
    (hreply : (respond image.query state).1.result = .ok (some found))
    (hfirst : found.tags.head? = some tag) (nonempty : tag ≠ "") (oneLine : '\n' ∉ tag.toList) :
    ∃ validated named, (image.validate.run respond state).result = .ok validated ∧
      parse validated.uri = .ok named ∧ named.account = image.account ∧
      named.region = image.region ∧ named.repository = image.repository ∧
      (named.tag = some tag ↔ text = image.bareText) ∧
      (∀ later, (named.validate.run respond.traced (later, [])).state.2 =
        [⟨image.region, image.repository, some tag⟩] ↔ text = image.bareText) ∧
      (text = image.bareText ∨
        (text = image.bareText ++ ":" ∧ named.tag = some (":" ++ tag)) ∨
        ∃ more, text = image.bareText ++ ":\n" ++ more ∧ named.tag = none) := by
  obtain ⟨address, rfl, rfl⟩ := parse_eq_ok_iff.mp hparse
  let named : ImageReference := (address.followedBy tag).reference
  have huri : address.reference.resolvedUri found = (address.followedBy tag).text := by
    rw [resolvedUri, untagged, Address.text_followedBy, List.headD_eq_head?_getD, hfirst]
    rfl
  have hnamed : parse (address.reference.resolvedUri found) = .ok named :=
    parse_eq_ok_iff.mpr ⟨address.followedBy tag, huri.symm, rfl⟩
  have htext : address.text = address.reference.bareText ++ address.trailer := rfl
  have hbare : address.text = address.reference.bareText ↔ address.trailer = "" := by
    rw [htext]
    simp
  have hasks : ∀ later, (named.validate.run respond.traced (later, [])).state.2 =
      [⟨address.region, address.repository, named.tag⟩] := by
    intro later
    rw [run_validate]
    rfl
  have hways : (address.trailer = "" ∧ named.tag = some tag) ∨
      (address.trailer = ":" ∧ named.tag = some (":" ++ tag)) ∨
      ∃ more, address.trailer = ":\n" ++ more ∧ named.tag = none :=
    Address.tagOf_followedBy untagged nonempty oneLine
  have htag : named.tag = some tag ↔ address.text = address.reference.bareText := by
    rw [hbare]
    rcases hways with ⟨bare, htag⟩ | ⟨colon, htag⟩ | ⟨more, newline, htag⟩
    · simp [bare, htag]
    · have hlonger : ":" ++ tag ≠ tag := fun heq => by
        simpa using congrArg String.length heq
      simp [colon, htag, hlonger]
    · simp [newline, htag]
  refine ⟨_, named, run_validate_of_found hreply, hnamed, rfl, rfl, rfl, htag, fun later => ?_, ?_⟩
  · rw [hasks later, ← htag]
    constructor
    · intro heq
      have hquery := List.singleton_inj.mp heq
      exact congrArg ImageQuery.tag hquery
    · intro heq
      rw [heq]
      rfl
  · rcases hways with ⟨bare, -⟩ | ⟨colon, hcolon⟩ | ⟨more, newline, hnewline⟩
    · exact .inl (hbare.mpr bare)
    · exact .inr (.inl ⟨by rw [htext, colon], hcolon⟩)
    · exact .inr (.inr ⟨more, by rw [htext, newline, String.append_assoc], hnewline⟩)

/-- The newest image of a repository, asked for without a tag. -/
theorem reported_names_found_iff_of_bare_address :
    let text := "1.dkr.ecr.r.amazonaws.com/p"
    let found : ImageSummary := ⟨"sha256:a", ["t", "u"], ""⟩
    let respond : Responder ImageLookups Unit := fun _ state => (⟨[], .ok (some found)⟩, state)
    let image : ImageReference := ⟨text, "1", "r", "p", none⟩
    parse text = .ok image ∧ image.tag = none ∧
    ∃ validated named, (image.validate.run respond ()).result = .ok validated ∧
      parse validated.uri = .ok named ∧ named.tag = some "t" ∧
      (named.validate.run respond.traced ((), [])).state.2 = [⟨"r", "p", some "t"⟩] := by
  intro text found respond image
  have hparse : parse text = .ok image := by
    have hread : parse? text = some image := by decide +kernel
    rw [parse, hread]
  obtain ⟨validated, named, hresult, hnamed, -, -, -, htag, hasks, -⟩ :=
    reported_names_found_iff respond () hparse rfl rfl
      (rfl : found.tags.head? = some "t") (by decide) (by decide)
  exact ⟨hparse, rfl, validated, named, hresult, hnamed, htag.mpr rfl, (hasks ()).mpr rfl⟩

/-- With a lone colon behind the repository the report has two colons, and the tag that is read from
it is not the image's. -/
theorem not_reported_names_found :
    let text := "1.dkr.ecr.r.amazonaws.com/p:"
    let found : ImageSummary := ⟨"sha256:a", ["t"], ""⟩
    let respond : Responder ImageLookups Unit := fun _ state => (⟨[], .ok (some found)⟩, state)
    ∃ image validated named, parse text = .ok image ∧ image.tag = none ∧
      (image.validate.run respond ()).result = .ok validated ∧
      validated.uri = "1.dkr.ecr.r.amazonaws.com/p::t" ∧ parse validated.uri = .ok named ∧
      named.tag = some ":t" ∧ named.tag ≠ found.tags.head? ∧
      (named.validate.run respond.traced ((), [])).state.2 ≠ [⟨"r", "p", some "t"⟩] := by
  intro text found respond
  let uri := "1.dkr.ecr.r.amazonaws.com/p::t"
  let image : ImageReference := ⟨text, "1", "r", "p", none⟩
  let named : ImageReference := ⟨uri, "1", "r", "p", some ":t"⟩
  have himage : parse? text = some image := by decide +kernel
  have hnamed : parse? uri = some named := by decide +kernel
  refine ⟨image, ⟨uri, "sha256:a", ""⟩, named, by rw [parse, himage], rfl, by rfl, rfl,
    by rw [parse, hnamed], rfl, by decide, ?_⟩
  rw [run_validate]
  exact fun heq => absurd (congrArg ImageQuery.tag (List.singleton_inj.mp heq)) (by decide)

end ImageReference

end MountMatrix
