import MountMatrix.Text.DecimalDigit

/-! # Image references

The address of a container image in a private registry:
`{account}.dkr.ecr.{region}.amazonaws.com/{repository}`, and behind a colon the tag, which may be
left out.

* `ImageReference`: the parts of an address, and the address itself.
* `ImageReference.parse?`: reads an address from left to right, each part as far as it goes.
-/

set_option autoImplicit false

namespace MountMatrix

structure ImageReference where
  uri : String
  account : String
  region : String
  repository : String
  tag : Option String
  deriving DecidableEq

namespace ImageReference

def registryHost : List Char := ".dkr.ecr.".toList

def domain : List Char := ".amazonaws.com/".toList

/-- The longest start of the text in which every character passes the test, and the rest of the
text. The start must not be empty. -/
def field? (test : Char → Bool) (text : List Char) : Option (List Char × List Char) :=
  match text.takeWhile test with
  | [] => none
  | field => some (field, text.dropWhile test)

theorem field?_eq_some_iff {test : Char → Bool} {text field rest : List Char} :
    field? test text = some (field, rest) ↔
      text = field ++ rest ∧ field ≠ [] ∧ (∀ c ∈ field, test c) ∧ ∀ c ∈ rest.head?, ¬ test c := by
  constructor
  · intro h
    unfold field? at h
    split at h
    · cases h
    next found _ =>
      obtain ⟨rfl, rfl⟩ := Prod.mk.inj (Option.some.inj h)
      refine ⟨List.takeWhile_append_dropWhile.symm, by assumption,
        List.all_eq_true.1 List.all_takeWhile, fun c first => ?_⟩
      have stop := List.head?_dropWhile_not test text
      rw [Option.mem_def.1 first] at stop
      simp [stop]
  · rintro ⟨rfl, nonempty, passes, stops⟩
    have taken : (field ++ rest).takeWhile test = field := by
      rw [List.takeWhile_append_of_pos passes]
      cases rest with
      | nil => simp
      | cons c rest => simp_all
    have dropped : (field ++ rest).dropWhile test = rest := by
      rw [List.dropWhile_append_of_pos passes]
      cases rest with
      | nil => simp
      | cons c rest => simp_all
    unfold field?
    rw [taken, dropped]
    cases field with
    | nil => exact absurd rfl nonempty
    | cons c field => rfl

/-- The tag in what follows the repository: the text behind the colon, up to the end of its line.
An empty tag counts as none. -/
def tagOf : List Char → Option String
  | ':' :: text =>
    match text.takeWhile (· != '\n') with
    | [] => none
    | tag => some (.ofList tag)
  | _ => none

/-- Reads an address. The account consists of decimal digits, the region has no dot and the
repository no colon; what follows the tag's line is passed over. -/
def parse? (uri : String) : Option ImageReference := do
  let (account, rest) ← field? Text.isDecimalDigit uri.toList
  let rest ← registryHost.isPrefixOf? rest
  let (region, rest) ← field? (· != '.') rest
  let rest ← domain.isPrefixOf? rest
  let (repository, rest) ← field? (· != ':') rest
  some {
    uri
    account := .ofList account
    region := .ofList region
    repository := .ofList repository
    tag := tagOf rest }

end ImageReference

end MountMatrix
