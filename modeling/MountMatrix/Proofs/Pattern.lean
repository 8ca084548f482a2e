import Mathlib.Data.List.Basic
import MountMatrix.Image.Reference

/-! # Patterns

Patterns for the start of a text, matched by trying: of all the ways in which a pattern fits, the
first in the order of preference counts. A field would rather take more than less, and gives back
one character after the other when what follows it does not fit.

* `Pattern.ways`: all ways in which a pattern fits, the preferred ones first.
* `Pattern.match?`: the way that counts.
* `Pattern.Settles`: what follows a field never makes it give anything back.
* `Pattern.match?_seq_field`: then the field is the longest there is.
-/

set_option autoImplicit false

namespace MountMatrix

/-- A `field` is one or more characters that pass a test; what it takes is captured. -/
inductive Pattern where
  | literal (part : List Char)
  | field (test : Char → Bool)
  | seq (first second : Pattern)
  | optional (inner : Pattern)

namespace Pattern

/-- The starts of the text that are not empty and whose characters all pass the test, each with the
rest of the text, the longest first. -/
def starts (test : Char → Bool) : List Char → List (List Char × List Char)
  | [] => []
  | c :: rest =>
    if test c then
      (starts test rest).map (fun way => (c :: way.1, way.2)) ++ [([c], rest)]
    else
      []

/-- The ways in which the pattern fits the start of a text, the preferred ones first: what the
fields have taken, and the rest of the text. -/
def ways : Pattern → List Char → List (List (List Char) × List Char)
  | literal part, text => (part.isPrefixOf? text).toList.map fun rest => ([], rest)
  | field test, text => (starts test text).map fun way => ([way.1], way.2)
  | seq first second, text =>
    (first.ways text).flatMap fun way =>
      (second.ways way.2).map fun later => (way.1 ++ later.1, later.2)
  | optional inner, text => inner.ways text ++ [([], text)]

def match? (pattern : Pattern) (text : List Char) : Option (List (List Char) × List Char) :=
  (pattern.ways text).head?

/-! ## Fields -/

section
variable {test : Char → Bool} {text : List Char}

theorem starts_of_stop (h : ∀ c ∈ text.head?, ¬ test c) : starts test text = [] := by
  cases text with
  | nil => rfl
  | cons c rest => exact if_neg (h c rfl)

/-- Every start but the longest is followed by a character that could have been taken. -/
theorem starts_append {field rest : List Char} (nonempty : field ≠ [])
    (passes : ∀ c ∈ field, test c) (stops : ∀ c ∈ rest.head?, ¬ test c) :
    ∃ shorter, starts test (field ++ rest) = (field, rest) :: shorter ∧
      ∀ way ∈ shorter, ∃ c later, way.2 = c :: later ∧ test c := by
  induction field with
  | nil => exact absurd rfl nonempty
  | cons c field ih =>
    have hc : test c := passes c List.mem_cons_self
    rw [List.cons_append, starts, if_pos hc]
    cases field with
    | nil => exact ⟨[], by simp [starts_of_stop stops], nofun⟩
    | cons d field =>
      obtain ⟨shorter, hstarts, hshorter⟩ :=
        ih (List.cons_ne_nil d field) fun e he => passes e (List.mem_cons_of_mem c he)
      rw [hstarts]
      refine ⟨_, rfl, fun way hway => ?_⟩
      rcases List.mem_append.mp hway with hway | hway
      · obtain ⟨way, hmem, rfl⟩ := List.mem_map.mp hway
        exact hshorter way hmem
      · rw [List.mem_singleton.mp hway]
        exact ⟨d, _, rfl, passes d (by simp)⟩

theorem starts_of_field? {field rest : List Char}
    (h : ImageReference.field? test text = some (field, rest)) :
    ∃ shorter, starts test text = (field, rest) :: shorter ∧
      ∀ way ∈ shorter, ∃ c later, way.2 = c :: later ∧ test c := by
  obtain ⟨rfl, nonempty, passes, stops⟩ := ImageReference.field?_eq_some_iff.mp h
  exact starts_append nonempty passes stops

theorem starts_of_field?_eq_none (h : ImageReference.field? test text = none) :
    starts test text = [] := by
  refine starts_of_stop fun c hc hpass => ?_
  obtain ⟨rest, rfl⟩ := List.head?_eq_some_iff.mp hc
  rw [ImageReference.field?, List.takeWhile_cons_of_pos hpass] at h
  cases h

theorem match?_field :
    (field test).match? text =
      (ImageReference.field? test text).map fun way => ([way.1], way.2) := by
  rw [match?, ways, List.head?_map]
  cases h : ImageReference.field? test text with
  | none => rw [starts_of_field?_eq_none h]; rfl
  | some way =>
    obtain ⟨shorter, hstarts, -⟩ := starts_of_field? h
    rw [hstarts]
    rfl

end

/-! ## Sequences -/

section
variable {pattern second : Pattern} {test : Char → Bool} {text : List Char}

theorem match?_optional :
    (optional pattern).match? text = (pattern.match? text).or (some ([], text)) := by
  rw [match?, ways, List.head?_append]
  rfl

theorem ways_seq_literal (part : List Char) :
    (seq (literal part) second).ways text =
      ((part.isPrefixOf? text).toList.flatMap second.ways) := by
  rw [ways, ways]
  cases part.isPrefixOf? text <;> simp

theorem match?_seq_literal (part : List Char) :
    (seq (literal part) second).match? text = (part.isPrefixOf? text).bind second.match? := by
  rw [match?, ways_seq_literal]
  cases part.isPrefixOf? text with
  | none => rfl
  | some rest => simp [match?]

/-- The pattern fits every text, or no text that begins with a character that passes the test. A
field in front of it then has no use for giving back what it took. -/
def Settles (test : Char → Bool) (pattern : Pattern) : Prop :=
  (∀ text, pattern.match? text ≠ none) ∨ ∀ c later, test c → pattern.ways (c :: later) = []

theorem settles_optional : Settles test (optional pattern) := by
  refine .inl fun text => ?_
  rw [match?_optional]
  cases pattern.match? text <;> nofun

theorem settles_seq_literal {c : Char} (part : List Char) (h : ¬ test c) :
    Settles test (seq (literal (c :: part)) second) := by
  refine .inr fun d later hd => ?_
  have hne : c ≠ d := by
    rintro rfl
    exact h hd
  rw [ways_seq_literal, List.isPrefixOf?, if_neg (by simpa using hne)]
  rfl

theorem match?_seq_field (h : Settles test second) :
    (seq (field test) second).match? text =
      (ImageReference.field? test text).bind fun way =>
        (second.match? way.2).map fun later => (way.1 :: later.1, later.2) := by
  rw [match?, ways, ways]
  cases hfield : ImageReference.field? test text with
  | none => rw [starts_of_field?_eq_none hfield]; rfl
  | some way =>
    obtain ⟨shorter, hstarts, hshorter⟩ := starts_of_field? hfield
    rw [hstarts, List.map_cons, List.flatMap_cons, List.head?_append, List.head?_map,
      Option.bind_some]
    rcases h with fits | stuck
    · obtain ⟨later, hlater⟩ := Option.ne_none_iff_exists'.mp (fits way.2)
      have hways : (second.ways way.2).head? = some later := hlater
      rw [hways, hlater]
      rfl
    · -- no shorter field is followed by a text that fits, so there is no other way at all
      have hrest : ((shorter.map fun way => ([way.1], way.2)).flatMap fun way =>
          (second.ways way.2).map fun later => (way.1 ++ later.1, later.2)) = [] := by
        simp only [List.flatMap_eq_nil_iff, List.forall_mem_map, List.map_eq_nil_iff]
        intro other hother
        obtain ⟨c, later, hlater, hc⟩ := hshorter other hother
        rw [hlater]
        exact stuck c later hc
      rw [hrest, List.head?_nil, Option.or_none]
      rfl

end

end Pattern

end MountMatrix
