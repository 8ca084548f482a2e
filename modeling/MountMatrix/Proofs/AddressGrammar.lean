import MountMatrix.Image.Validation
import MountMatrix.Proofs.Pattern

/-! # The grammar of image addresses

Exactly the texts that have the parts of an address in their order are read as one, and no text has
two sets of such parts.

* `ImageReference.pattern`, `parse?_eq_match?`: the reader as a pattern that is tried on the text.
* `Address`: the parts of an address, with what each of them may be.
* `Address.HasTag`: the tag that an address ends in.
* `ImageReference.parse?_eq_some_iff`: the reader accepts the texts of addresses.
* `ImageReference.parse_grammar`: what it makes of any text.
-/

set_option autoImplicit false

namespace MountMatrix

/-! ## The reader as a pattern -/

namespace ImageReference

/-- Digits, the registry's host, the region, the domain and the repository, and perhaps a colon and
the rest of its line. -/
def pattern : Pattern :=
  .seq (.field Text.isDecimalDigit) <| .seq (.literal registryHost) <|
    .seq (.field (· != '.')) <| .seq (.literal domain) <|
      .seq (.field (· != ':')) <| .optional <|
        .seq (.literal [':']) (.field (· != '\n'))

def ofCaptures (uri : String) : List (List Char) → Option ImageReference
  | [account, region, repository] =>
    some ⟨uri, .ofList account, .ofList region, .ofList repository, none⟩
  | [account, region, repository, tag] =>
    some ⟨uri, .ofList account, .ofList region, .ofList repository, some (.ofList tag)⟩
  | _ => none

theorem tagOf_colon (text : List Char) :
    tagOf (':' :: text) = (field? (· != '\n') text).map fun way => .ofList way.1 := by
  rw [tagOf, field?]
  cases text.takeWhile (· != '\n') <;> rfl

theorem tagOf_of_ne_colon {c : Char} (h : c ≠ ':') (text : List Char) :
    tagOf (c :: text) = none := by
  unfold tagOf
  split
  next heq => exact absurd (List.cons.inj heq).1 h
  next => rfl

theorem match?_tag (text : List Char) :
    ∃ rest, (Pattern.optional (.seq (.literal [':']) (.field (· != '\n')))).match? text =
      some ((tagOf text).toList.map String.toList, rest) := by
  rw [Pattern.match?_optional, Pattern.match?_seq_literal]
  cases text with
  | nil => exact ⟨[], rfl⟩
  | cons c text =>
    by_cases hc : c = ':'
    · subst hc
      have hcolon : [':'].isPrefixOf? (':' :: text) = some text := by simp [List.isPrefixOf?]
      rw [hcolon, Option.bind_some, Pattern.match?_field, tagOf_colon]
      cases field? (· != '\n') text with
      | none => exact ⟨':' :: text, rfl⟩
      | some way => exact ⟨way.2, by simp⟩
    · have hother : [':'].isPrefixOf? (c :: text) = none := by
        simp [List.isPrefixOf?, Ne.symm hc]
      rw [hother, tagOf_of_ne_colon hc]
      exact ⟨c :: text, rfl⟩

/-- No way of trying the pattern finds anything that reading each part as far as it goes does not
find. -/
theorem parse?_eq_match? (uri : String) :
    parse? uri = (pattern.match? uri.toList).bind fun way => ofCaptures uri way.1 := by
  have hhost : ∀ second, Pattern.Settles Text.isDecimalDigit
      (.seq (.literal registryHost) second) := fun second =>
    Pattern.settles_seq_literal _ (by decide)
  have hdomain : ∀ second, Pattern.Settles (· != '.') (.seq (.literal domain) second) :=
    fun second => Pattern.settles_seq_literal _ (by decide)
  have hend : ∀ inner, Pattern.Settles (· != ':') (.optional inner) := fun inner =>
    Pattern.settles_optional
  rw [pattern, Pattern.match?_seq_field (hhost _), parse?]
  cases field? Text.isDecimalDigit uri.toList with
  | none => rfl
  | some account =>
    simp only [Option.bind_some, Option.bind_eq_bind, Pattern.match?_seq_literal]
    cases registryHost.isPrefixOf? account.2 with
    | none => rfl
    | some rest =>
      simp only [Option.bind_some, Pattern.match?_seq_field (hdomain _)]
      cases field? (· != '.') rest with
      | none => rfl
      | some region =>
        simp only [Option.bind_some, Pattern.match?_seq_literal]
        cases domain.isPrefixOf? region.2 with
        | none => rfl
        | some rest =>
          simp only [Option.bind_some, Pattern.match?_seq_field (hend _)]
          cases field? (· != ':') rest with
          | none => rfl
          | some repository =>
            obtain ⟨rest, htag⟩ := match?_tag repository.2
            simp only [Option.bind_some, htag, Option.map_some]
            cases tagOf repository.2 <;> simp [ofCaptures]

end ImageReference

/-! ## Addresses -/

/-- The parts of an address. The `trailer` is whatever follows the repository. -/
structure Address where
  account : String
  region : String
  repository : String
  trailer : String
  account_ne : account ≠ ""
  account_digits : ∀ c ∈ account.toList, Text.isDecimalDigit c
  region_ne : region ≠ ""
  region_dotless : '.' ∉ region.toList
  repository_ne : repository ≠ ""
  repository_colonless : ':' ∉ repository.toList
  trailer_colon : trailer = "" ∨ ∃ more, trailer = ":" ++ more

namespace Address

def text (address : Address) : String :=
  address.account ++ ".dkr.ecr." ++ address.region ++ ".amazonaws.com/" ++ address.repository ++
    address.trailer

/-- The address ends in the tag: it stands behind the colon, and after it the line or the whole text
is at its end. An empty tag is none. -/
def HasTag (address : Address) (tag : String) : Prop :=
  tag ≠ "" ∧ '\n' ∉ tag.toList ∧ ∃ later, address.trailer = ":" ++ tag ++ later ∧
    (later = "" ∨ ∃ more, later = "\n" ++ more)

/-- What the reader makes of the address. -/
def reference (address : Address) : ImageReference :=
  ⟨address.text, address.account, address.region, address.repository,
    ImageReference.tagOf address.trailer.toList⟩

theorem toList_text (address : Address) :
    address.text.toList = address.account.toList ++ (ImageReference.registryHost ++
      (address.region.toList ++ (ImageReference.domain ++
        (address.repository.toList ++ address.trailer.toList)))) := by
  simp only [text, String.toList_append, List.append_assoc]
  rfl

theorem parse?_text (address : Address) :
    ImageReference.parse? address.text = some address.reference := by
  have haccount : ImageReference.field? Text.isDecimalDigit address.text.toList =
      some (address.account.toList, _) :=
    ImageReference.field?_eq_some_iff.mpr
      ⟨address.toList_text, by simp [address.account_ne], address.account_digits, by
        rintro c ⟨⟩
        decide⟩
  have hregion : ∀ rest, ImageReference.field? (· != '.')
      (address.region.toList ++ (ImageReference.domain ++ rest)) =
      some (address.region.toList, ImageReference.domain ++ rest) := fun rest =>
    ImageReference.field?_eq_some_iff.mpr ⟨rfl, by simp [address.region_ne],
      fun c hc => by
        simpa using ne_of_mem_of_not_mem hc address.region_dotless, by
        rintro c ⟨⟩
        decide⟩
  have hrepository : ImageReference.field? (· != ':')
      (address.repository.toList ++ address.trailer.toList) =
      some (address.repository.toList, address.trailer.toList) :=
    ImageReference.field?_eq_some_iff.mpr ⟨rfl, by simp [address.repository_ne],
      fun c hc => by
        simpa using ne_of_mem_of_not_mem hc address.repository_colonless, by
        obtain hnone | ⟨more, hmore⟩ := address.trailer_colon
        · simp [hnone]
        · simp [hmore]⟩
  have hskip : ∀ part rest : List Char, part.isPrefixOf? (part ++ rest) = some rest :=
    fun part rest => List.isPrefixOf?_eq_some_iff_append_eq.mpr rfl
  simp only [ImageReference.parse?, haccount, Option.bind_eq_bind, Option.bind_some, hskip, hregion,
    hrepository, String.ofList_toList, reference]

end Address

theorem ImageReference.parse?_eq_some_iff {text : String} {image : ImageReference} :
    parse? text = some image ↔ ∃ address : Address, address.text = text ∧
      image = address.reference := by
  constructor
  · intro h
    simp only [parse?, Option.bind_eq_bind, Option.bind_eq_some_iff, Option.some.injEq] at h
    obtain ⟨⟨account, _⟩, haccount, _, hhost, ⟨region, _⟩, hregion, _, hdomain,
      ⟨repository, rest⟩, hrepository, rfl⟩ := h
    obtain ⟨htext, account_ne, account_digits, -⟩ := field?_eq_some_iff.mp haccount
    obtain rfl := List.isPrefixOf?_eq_some_iff_append_eq.mp hhost
    obtain ⟨rfl, region_ne, region_dotless, -⟩ := field?_eq_some_iff.mp hregion
    obtain rfl := List.isPrefixOf?_eq_some_iff_append_eq.mp hdomain
    obtain ⟨rfl, repository_ne, repository_colonless, hrest⟩ := field?_eq_some_iff.mp hrepository
    let address : Address := {
      account := .ofList account
      region := .ofList region
      repository := .ofList repository
      trailer := .ofList rest
      account_ne := by simpa using account_ne
      account_digits := by simpa using account_digits
      region_ne := by simpa using region_ne
      region_dotless := by
        rw [String.toList_ofList]
        intro hdot
        simpa using region_dotless '.' hdot
      repository_ne := by simpa using repository_ne
      repository_colonless := by
        rw [String.toList_ofList]
        intro hcolon
        simpa using repository_colonless ':' hcolon
      trailer_colon := by
        cases rest with
        | nil => exact .inl rfl
        | cons c rest =>
          obtain rfl : c = ':' := by simpa using hrest c rfl
          exact .inr ⟨.ofList rest, String.toList_inj.mp (by simp)⟩ }
    have haddress : address.text = text := by
      rw [← String.toList_inj, address.toList_text, htext]
      simp [address]
    refine ⟨address, haddress, ?_⟩
    rw [Address.reference, haddress]
    simp [address]
  · rintro ⟨address, rfl, rfl⟩
    exact address.parse?_text

namespace Address

/-- No text can be taken apart in two ways. -/
theorem text_injective : Function.Injective text := by
  intro first second htext
  have hreference : first.reference = second.reference := by
    rw [← Option.some.injEq, ← first.parse?_text, ← second.parse?_text, htext]
  have haccount : first.account = second.account := congrArg ImageReference.account hreference
  have hregion : first.region = second.region := congrArg ImageReference.region hreference
  have hrepository : first.repository = second.repository :=
    congrArg ImageReference.repository hreference
  have htrailer : first.trailer = second.trailer := by
    have hlist := congrArg String.toList htext
    rw [toList_text, toList_text, haccount, hregion, hrepository] at hlist
    exact String.toList_inj.mp (by simpa using hlist)
  cases first
  cases second
  simp_all

theorem tagOf_trailer_eq_some_iff (address : Address) (tag : String) :
    ImageReference.tagOf address.trailer.toList = some tag ↔ address.HasTag tag := by
  rw [HasTag]
  obtain hnone | ⟨more, hmore⟩ := address.trailer_colon
  · rw [hnone]
    refine ⟨nofun, ?_⟩
    rintro ⟨-, -, later, hlater, -⟩
    simpa using congrArg String.toList hlater
  have hlist : address.trailer.toList = ':' :: more.toList := by simp [hmore]
  rw [hlist, ImageReference.tagOf_colon, Option.map_eq_some_iff]
  constructor
  · rintro ⟨⟨line, rest⟩, hline, rfl⟩
    obtain ⟨hsplit, nonempty, passes, stops⟩ := ImageReference.field?_eq_some_iff.mp hline
    refine ⟨by simpa using nonempty, fun hnewline => ?_, .ofList rest, ?_, ?_⟩
    · rw [String.toList_ofList] at hnewline
      simpa using passes '\n' hnewline
    · rw [← String.toList_inj, hlist, hsplit]
      simp
    · cases rest with
      | nil => exact .inl rfl
      | cons c rest =>
        obtain rfl : c = '\n' := by simpa using stops c rfl
        exact .inr ⟨.ofList rest, String.toList_inj.mp (by simp)⟩
  · rintro ⟨nonempty, hline, later, hsplit, hlater⟩
    refine ⟨(tag.toList, later.toList), ImageReference.field?_eq_some_iff.mpr
      ⟨?_, by simpa using nonempty, fun c hc => ?_, ?_⟩, by simp⟩
    · have htrailer := congrArg String.toList hsplit
      rw [hlist] at htrailer
      simpa using htrailer
    · simpa using ne_of_mem_of_not_mem hc hline
    · rcases hlater with rfl | ⟨rest, rfl⟩ <;> simp

end Address

/-! ## The whole grammar -/

namespace ImageReference

theorem parse_eq_ok_iff {text : String} {image : ImageReference} :
    parse text = .ok image ↔ ∃ address : Address, address.text = text ∧
      image = address.reference := by
  rw [← parse?_eq_some_iff, parse]
  cases parse? text <;> simp

theorem parse_of_no_address {text : String} (h : ¬ ∃ address : Address, address.text = text) :
    parse text = .error (.invalidUri text) := by
  cases hparse : parse? text with
  | none => rw [parse, hparse]
  | some image =>
    obtain ⟨address, htext, -⟩ := parse?_eq_some_iff.mp hparse
    exact absurd ⟨address, htext⟩ h

/-- A text is read exactly if it is the text of an address, which is then the only one that it is
the text of, and the parts are those of the address; else the text is refused as a whole. The tag is
what stands behind the colon on the same line, if that is anything. So an address that is put
together from its parts and a tag, or no tag, is read back as these. The reader comes to what the
pattern comes to. -/
theorem parse_grammar (text : String) :
    ((∃ image, parse text = .ok image) ↔ ∃ address : Address, address.text = text) ∧
    (∀ first second : Address, first.text = text → second.text = text → first = second) ∧
    (∀ address : Address, address.text = text → ∃ image, parse text = .ok image ∧
      image.uri = text ∧ image.account = address.account ∧ image.region = address.region ∧
      image.repository = address.repository ∧
      ∀ tag, image.tag = some tag ↔ address.HasTag tag) ∧
    ((¬ ∃ address : Address, address.text = text) → parse text = .error (.invalidUri text)) ∧
    (∀ (address : Address) (tag : Option String), address.text = text →
      address.trailer = tag.elim "" (":" ++ ·) →
      (∀ name, tag = some name → name ≠ "" ∧ '\n' ∉ name.toList) →
      parse text =
        .ok ⟨text, address.account, address.region, address.repository, tag⟩) ∧
    parse text =
      match (pattern.match? text.toList).bind fun way => ofCaptures text way.1 with
      | some image => .ok image
      | none => .error (.invalidUri text) := by
  have haddress : ∀ address : Address, address.text = text →
      parse text = .ok address.reference := fun address htext =>
    parse_eq_ok_iff.mpr ⟨address, htext, rfl⟩
  refine ⟨⟨?_, ?_⟩, ?_, ?_, parse_of_no_address, ?_, ?_⟩
  · rintro ⟨image, himage⟩
    obtain ⟨address, htext, -⟩ := parse_eq_ok_iff.mp himage
    exact ⟨address, htext⟩
  · rintro ⟨address, htext⟩
    exact ⟨_, haddress address htext⟩
  · intro first second hfirst hsecond
    exact Address.text_injective (hfirst.trans hsecond.symm)
  · intro address htext
    exact ⟨_, haddress address htext, htext, rfl, rfl, rfl, address.tagOf_trailer_eq_some_iff⟩
  · intro address tag htext htrailer htag
    have hread : tagOf address.trailer.toList = tag := by
      cases tag with
      | none => rw [htrailer]; rfl
      | some name =>
        obtain ⟨nonempty, hline⟩ := htag name rfl
        exact (address.tagOf_trailer_eq_some_iff name).mpr
          ⟨nonempty, hline, "", by simpa using htrailer, .inl rfl⟩
    rw [haddress address htext, Address.reference, htext, hread]
  · have hread : ∀ found, parse? text = found → parse text =
        match found with
        | some image => .ok image
        | none => .error (.invalidUri text) := by
      rintro _ rfl
      rfl
    exact hread _ (parse?_eq_match? text)

/-- The tag ends with its line, and may have colons in it. With a dot in the region there is no
address. -/
theorem parse_grammar_of_dotted_region :
    let address : (trailer : String) → (trailer = "" ∨ ∃ more, trailer = ":" ++ more) → Address :=
      fun trailer trailer_colon => {
        account := "12", region := "eu-west-1", repository := "team/provider", trailer
        account_ne := by decide, account_digits := List.all_eq_true.mp (by decide)
        region_ne := by decide, region_dotless := by decide
        repository_ne := by decide, repository_colonless := by decide, trailer_colon }
    let tagged := address ":v1" (.inr ⟨"v1", by decide⟩)
    let lined := address ":v1:rc\nmore" (.inr ⟨"v1:rc\nmore", by decide⟩)
    let dotted := "12.dkr.ecr.eu.west.amazonaws.com/team/provider"
    parse tagged.text = .ok ⟨tagged.text, "12", "eu-west-1", "team/provider", some "v1"⟩ ∧
    (∃ image, parse lined.text = .ok image ∧ image.tag = some "v1:rc") ∧
    parse dotted = .error (.invalidUri dotted) := by
  intro address tagged lined dotted
  refine ⟨?_, ?_, ?_⟩
  · obtain ⟨-, -, -, -, hcomposed, -⟩ := parse_grammar tagged.text
    refine hcomposed tagged (some "v1") rfl rfl ?_
    rintro name ⟨⟩
    exact ⟨by decide, by decide⟩
  · obtain ⟨-, -, hparts, -⟩ := parse_grammar lined.text
    obtain ⟨image, hparse, -, -, -, -, htag⟩ := hparts lined rfl
    exact ⟨image, hparse, (htag "v1:rc").mpr
      ⟨by decide, by decide, "\nmore", by decide, .inr ⟨"more", by decide⟩⟩⟩
  · obtain ⟨hread, -, -, hrefused, -⟩ := parse_grammar dotted
    refine hrefused fun haddress => ?_
    obtain ⟨image, himage⟩ := hread.mpr haddress
    have hnone : parse? dotted = none := by decide +kernel
    rw [parse, hnone] at himage
    cases himage

end ImageReference

end MountMatrix
