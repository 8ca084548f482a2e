import MountMatrix.Text.Replace

/-! # Replacement in two parts of a text

A text may be cut in two and replaced part by part wherever no occurrence crosses the cut.

* `Uncrossed old a b`: no occurrence of `old` starts in `a` and ends in `b`.
* `reading_induction`: induction along the reading of a text.
* `replaceFrom_append`: replacement over an uncrossed cut.
* `replaceFrom_append_of_absent`: a part in which no occurrence starts stays.
-/

set_option autoImplicit false

namespace MountMatrix.Text

def Uncrossed (old a b : List Char) : Prop :=
  ∀ x, x ≠ [] → x <:+ a → old <+: x ++ b → old <+: x

variable {old new a b : List Char}

theorem Uncrossed.of_suffix {a' : List Char} (h : Uncrossed old a b) (hs : a' <:+ a) :
    Uncrossed old a' b :=
  fun x hx hxa => h x hx (hxa.trans hs)

/-- A beginning of two parts is a beginning of the first, or it reaches into the second. -/
theorem starts_or_crosses {x z : List Char} (h : old <+: x ++ z) :
    old <+: x ∨ ∃ y, y ≠ [] ∧ old = x ++ y ∧ y <+: z := by
  by_cases hx : old <+: x
  · exact Or.inl hx
  · have hlen : x <+: old := by
      rcases List.prefix_or_prefix_of_prefix h (List.prefix_append x z) with hs | hs
      · exact absurd hs hx
      · exact hs
    obtain ⟨y, rfl⟩ := hlen
    have hy : y ≠ [] := by
      intro hnil
      subst hnil
      exact hx ⟨[], by simp⟩
    exact Or.inr ⟨y, hy, rfl, (List.prefix_append_right_inj x).mp h⟩

theorem occurs_cons {c : Char} {rest : List Char} :
    Occurs old (c :: rest) ↔ old <+: c :: rest ∨ Occurs old rest :=
  List.infix_cons_iff

theorem Occurs.append_left (h : Occurs old b) : Occurs old (a ++ b) :=
  h.trans (List.suffix_append a b).isInfix

/-- An occurrence in two parts lies in the first, starts in it, or lies in the second. -/
theorem occurs_append_cases (h : Occurs old (a ++ b)) :
    (∃ x, x ≠ [] ∧ x <:+ a ∧ old <+: x ++ b) ∨ Occurs old b := by
  induction a with
  | nil => exact Or.inr h
  | cons c a ih =>
    rcases occurs_cons.mp h with hc | hc
    · exact Or.inl ⟨c :: a, List.cons_ne_nil c a, List.suffix_refl _, hc⟩
    · rcases ih hc with ⟨x, hx, hs, hp⟩ | hb
      · exact Or.inl ⟨x, hx, hs.trans (List.suffix_cons c a), hp⟩
      · exact Or.inr hb

theorem replaceFrom_append_of_absent (h : ∀ x, x ≠ [] → x <:+ a → ¬ old <+: x ++ b) :
    replaceFrom old new 0 (a ++ b) = a ++ replaceFrom old new 0 b := by
  induction a with
  | nil => rfl
  | cons c a ih =>
    have hc := h (c :: a) (List.cons_ne_nil c a) (List.suffix_refl _)
    have hrest := ih fun x hx hs => h x hx (hs.trans (List.suffix_cons c a))
    rw [List.cons_append] at hc ⊢
    rw [replaceFrom_keep old new hc, hrest, List.cons_append]

theorem length_lt_append (hold : old ≠ []) (rest : List Char) :
    rest.length < (old ++ rest).length := by
  have hpos := List.length_pos_iff.mpr hold
  rw [List.length_append]
  omega

/-- Induction along the reading of a text: an occurrence is taken off whole, any other character
alone. -/
theorem reading_induction (hold : old ≠ []) {motive : List Char → Prop} (nil : motive [])
    (found : ∀ rest, motive rest → motive (old ++ rest))
    (keep : ∀ c rest, ¬ old <+: c :: rest → motive rest → motive (c :: rest))
    (text : List Char) : motive text := by
  induction hn : text.length using Nat.strongRecOn generalizing text with
  | ind n ih =>
    subst hn
    by_cases hstart : old <+: text
    · obtain ⟨rest, rfl⟩ := hstart
      exact found rest (ih _ (length_lt_append hold rest) rest rfl)
    · cases text with
      | nil => exact nil
      | cons c rest => exact keep c rest hstart (ih _ (Nat.lt_succ_self _) rest rfl)

theorem replaceFrom_append (hold : old ≠ []) (h : Uncrossed old a b) :
    replaceFrom old new 0 (a ++ b) = replaceFrom old new 0 a ++ replaceFrom old new 0 b := by
  induction a using reading_induction hold with
  | nil =>
    rw [replaceFrom_nil]
    rfl
  | found rest ih =>
    have hrest := ih (h.of_suffix (List.suffix_append old rest))
    rw [List.append_assoc, replaceFrom_old _ _ hold, replaceFrom_old _ _ hold, hrest,
      List.append_assoc]
  | keep c rest hstart ih =>
    have hfull : ¬ old <+: c :: (rest ++ b) := fun hc =>
      hstart (h (c :: rest) (List.cons_ne_nil c rest) (List.suffix_refl _) hc)
    have hrest := ih (h.of_suffix (List.suffix_cons c rest))
    rw [List.cons_append, replaceFrom_keep _ _ hfull, replaceFrom_keep _ _ hstart, hrest,
      List.cons_append]

end MountMatrix.Text
