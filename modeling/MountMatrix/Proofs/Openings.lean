import MountMatrix.Proofs.TokenOrigin

/-! # Texts that the passes leave alone

Every token opens with two braces. A pass takes these away with each token that it replaces, and no
harmless value brings new ones, so the passes leave a text alone only when there is nothing to
replace in it.

* `openings`: the number of places where two opening braces stand.
* `openings_pass`: a pass lowers that number, as soon as it finds its token.
* `passes_eq_self_iff`: the passes leave a text alone when it has no token, and only then.
-/

set_option autoImplicit false

namespace MountMatrix.Template

open Text

/-! ## Places where a token may open -/

def opens (c d : Char) : Nat := if c = '{' ∧ d = '{' then 1 else 0

def openings : List Char → Nat
  | [] => 0
  | [_] => 0
  | c :: d :: text => opens c d + openings (d :: text)

theorem opens_eq_zero {c : Char} (hc : c ≠ '{') (d : Char) : opens c d = 0 :=
  if_neg fun h => hc h.1

theorem openings_cons {c : Char} (hc : c ≠ '{') (text : List Char) :
    openings (c :: text) = openings text := by
  cases text with
  | nil => rfl
  | cons d text => rw [openings, opens_eq_zero hc, Nat.zero_add]

theorem openings_le_cons (c : Char) (text : List Char) : openings text ≤ openings (c :: text) := by
  cases text with
  | nil => exact Nat.zero_le _
  | cons d text =>
    rw [openings]
    omega

theorem openings_cons_le (c : Char) (text : List Char) :
    openings (c :: text) ≤ opens c '{' + openings text := by
  cases text with
  | nil => exact Nat.zero_le _
  | cons d text =>
    have hle : opens c d ≤ opens c '{' := by
      unfold opens
      split <;> split <;> simp_all
    rw [openings]
    omega

theorem openings_le_append (a b : List Char) : openings b ≤ openings (a ++ b) := by
  induction a with
  | nil => exact Nat.le_refl _
  | cons c a ih => exact ih.trans (openings_le_cons c (a ++ b))

theorem le_openings_token (p : Placeholder) (c : Char) (rest : List Char) :
    opens c '{' + 1 + openings rest ≤ openings (c :: (p.token.toList ++ rest)) := by
  have hrest := openings_le_append (p.key.toList ++ ['}', '}']) rest
  have hsecond := openings_le_cons '{' (p.key.toList ++ ['}', '}'] ++ rest)
  rw [Placeholder.token_toList]
  simp only [List.cons_append, openings]
  have hpair : opens '{' '{' = 1 := rfl
  omega

theorem openings_append {w : List Char} (hw : SingleBraced w) (hlast : w.getLast? ≠ some '{')
    (rest : List Char) : openings (w ++ rest) = openings rest := by
  induction w with
  | nil => rfl
  | cons c w ih =>
    cases w with
    | nil =>
      have hc : c ≠ '{' := fun h => hlast (congrArg some h)
      exact openings_cons hc rest
    | cons d w =>
      unfold SingleBraced at hw
      rw [List.isChain_cons_cons] at hw
      have hzero : opens c d = 0 := by
        apply if_neg
        rintro ⟨rfl, rfl⟩
        exact (hw.1 rfl).1 rfl
      have hrest := ih hw.2 (by rwa [List.getLast?_cons_cons] at hlast)
      rw [List.cons_append] at hrest ⊢
      rw [List.cons_append, openings, hzero, hrest, Nat.zero_add]

variable {v : Variant} {options : InstallOptions} {p : Placeholder}

theorem Harmless.openings_value (hval : Harmless v options) (rest : List Char) :
    openings ((p.value v options).toList ++ rest) = openings rest := by
  by_cases hp : p.value v options = ""
  · rw [hp]
    rfl
  · exact openings_append (hval p hp).single (hval p hp).last rest

/-! ## One pass -/

theorem Harmless.openings_pass (hval : Harmless v options) (c : Char) (text : List Char) :
    openings (c :: pass v options p text) ≤ openings (c :: text) ∧
      (Occurs p.token.toList text →
        openings (c :: pass v options p text) < openings (c :: text)) := by
  induction text using reading_induction (Placeholder.token_ne_nil p) generalizing c with
  | nil =>
    rw [pass_nil]
    exact ⟨Nat.le_refl _, fun h => absurd h (tokenFree_nil p)⟩
  | found rest ih =>
    obtain ⟨hrest, -⟩ := ih '}'
    rw [openings_cons (by decide), openings_cons (by decide)] at hrest
    have hnew := openings_cons_le c ((p.value v options).toList ++ pass v options p rest)
    have hold := le_openings_token p c rest
    rw [hval.openings_value] at hnew
    rw [pass_token_append]
    exact ⟨by omega, fun _ => by omega⟩
  | keep d rest hstart ih =>
    obtain ⟨hle, hlt⟩ := ih d
    rw [pass_cons v options p hstart]
    simp only [openings]
    refine ⟨by omega, fun hocc => ?_⟩
    have hlt := hlt ((occurs_cons.mp hocc).resolve_left hstart)
    omega

/-! ## All passes -/

theorem Harmless.openings_passes (hval : Harmless v options) (order : List Placeholder)
    (text : List Char) : openings (passes v options order text) ≤ openings text := by
  induction order generalizing text with
  | nil => exact Nat.le_refl _
  | cons p order ih =>
    obtain ⟨hpass, -⟩ := hval.openings_pass (p := p) '}' text
    rw [openings_cons (by decide), openings_cons (by decide)] at hpass
    exact (ih (pass v options p text)).trans hpass

theorem Harmless.passes_eq_self_iff (hval : Harmless v options) {order : List Placeholder}
    {text : List Char} :
    passes v options order text = text ↔ ∀ p ∈ order, ¬ Occurs p.token.toList text := by
  induction order with
  | nil => exact ⟨fun _ p hp => absurd hp List.not_mem_nil, fun _ => rfl⟩
  | cons p order ih =>
    rw [passes_cons, List.forall_mem_cons]
    by_cases hocc : Occurs p.token.toList text
    · obtain ⟨-, hlt⟩ := hval.openings_pass (p := p) '}' text
      have hlt := hlt hocc
      rw [openings_cons (by decide), openings_cons (by decide)] at hlt
      refine ⟨fun heq => ?_, fun hnone => absurd hocc hnone.1⟩
      have hle := hval.openings_passes order (pass v options p text)
      rw [heq] at hle
      omega
    · rw [pass_of_not_occurs v options p hocc, ih]
      exact ⟨fun hrest => ⟨hocc, hrest⟩, fun hall => hall.2⟩

end MountMatrix.Template
