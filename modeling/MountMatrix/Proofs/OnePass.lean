import MountMatrix.Proofs.MatrixValues

/-! # Rendering in one reading

A template is cut into single characters and known tokens. Filling the tokens of the cut gives the
substitution in one reading; filling some of them gives the text between two passes.

* `textOf`: the text of a cut, for a choice of what stands for each token.
* `exists_cut`: every template has a cut, and the substitution is its filled text.
* `pass_textOf_mixed`: one pass fills one more token, as long as the filled text is free of tokens.
* `tokenFree_filled`: values that are all inert leave no token in the filled text.
-/

set_option autoImplicit false

namespace MountMatrix.Template

open Text

inductive Piece where
  | char (c : Char)
  | token (p : Placeholder)

def Piece.text (f : Placeholder → List Char) : Piece → List Char
  | .char c => [c]
  | .token p => f p

def textOf (f : Placeholder → List Char) (m : List Piece) : List Char :=
  m.flatMap (Piece.text f)

section TextOf
variable (f : Placeholder → List Char)

@[simp] theorem textOf_char (c : Char) (m : List Piece) :
    textOf f (.char c :: m) = c :: textOf f m := rfl

@[simp] theorem textOf_token (p : Placeholder) (m : List Piece) :
    textOf f (.token p :: m) = f p ++ textOf f m := rfl

end TextOf

theorem textOf_congr {f g : Placeholder → List Char} (h : ∀ p, f p = g p) (m : List Piece) :
    textOf f m = textOf g m := by
  have hfg : f = g := funext h
  rw [hfg]

def spelled (p : Placeholder) : List Char := p.token.toList

def filled (v : Variant) (options : InstallOptions) (p : Placeholder) : List Char :=
  (p.value v options).toList

/-- The tokens of the placeholders in `done` are filled, the others still spelled. -/
def mixed (v : Variant) (options : InstallOptions) (done : List Placeholder) (p : Placeholder) :
    List Char :=
  if p ∈ done then filled v options p else spelled p

/-- No token starts at a single character of the cut. -/
def Exact : List Piece → Prop
  | [] => True
  | .char c :: m => (∀ p : Placeholder, ¬ p.token.toList <+: c :: textOf spelled m) ∧ Exact m
  | .token _ :: m => Exact m

/-! ## The substitution fills a cut -/

theorem leading?_of_starts {p : Placeholder} {t : List Char} (h : p.token.toList <+: t) :
    leading? t = some p := by
  unfold leading?
  cases hfound : Placeholder.all.find? fun q => q.token.toList.isPrefixOf t with
  | none =>
    have hnone := List.find?_eq_none.mp hfound p (Placeholder.mem_all p)
    exact absurd (List.isPrefixOf_iff_prefix.mpr h) hnone
  | some q =>
    have htest : q.token.toList.isPrefixOf t = true := by
      have := List.find?_some hfound
      exact this
    rw [Placeholder.token_unique h (List.isPrefixOf_iff_prefix.mp htest)]

theorem leading?_of_absent {t : List Char} (h : ∀ p : Placeholder, ¬ p.token.toList <+: t) :
    leading? t = none := by
  unfold leading?
  rw [List.find?_eq_none]
  intro p _ hp
  exact h p (List.isPrefixOf_iff_prefix.mp hp)

section Substitution
variable (v : Variant) (options : InstallOptions)

theorem substituteFrom_skip (passed rest : List Char) :
    substituteFrom v options passed.length (passed ++ rest) = substituteFrom v options 0 rest := by
  induction passed with
  | nil => rfl
  | cons c passed ih => exact ih

theorem substituteFrom_token (p : Placeholder) (rest : List Char) :
    substituteFrom v options 0 (p.token.toList ++ rest) =
      filled v options p ++ substituteFrom v options 0 rest := by
  have hlead := leading?_of_starts (List.prefix_append p.token.toList rest)
  obtain ⟨c, tail, htok⟩ := List.exists_cons_of_ne_nil (Placeholder.token_ne_nil p)
  have hskip := substituteFrom_skip v options tail rest
  rw [htok, List.cons_append] at hlead ⊢
  simp only [substituteFrom, hlead, htok, List.length_cons, Nat.add_sub_cancel, hskip]
  rfl

theorem substituteFrom_char {c : Char} {rest : List Char}
    (h : ∀ p : Placeholder, ¬ p.token.toList <+: c :: rest) :
    substituteFrom v options 0 (c :: rest) = c :: substituteFrom v options 0 rest := by
  simp only [substituteFrom, leading?_of_absent h]

theorem exists_cut (t : List Char) :
    ∃ m, Exact m ∧ textOf spelled m = t ∧
      substituteFrom v options 0 t = textOf (filled v options) m := by
  induction hn : t.length using Nat.strongRecOn generalizing t with
  | ind n ih =>
    subst hn
    by_cases hstart : ∃ p : Placeholder, p.token.toList <+: t
    · obtain ⟨p, rest, rfl⟩ := hstart
      have hlen := length_lt_append (Placeholder.token_ne_nil p) rest
      obtain ⟨m, hexact, hspelled, hfilled⟩ := ih _ hlen rest rfl
      refine ⟨.token p :: m, hexact, ?_, ?_⟩
      · rw [textOf_token, hspelled]
        rfl
      · rw [substituteFrom_token, hfilled, textOf_token]
    · have habsent : ∀ p : Placeholder, ¬ p.token.toList <+: t := fun p hp => hstart ⟨p, hp⟩
      cases t with
      | nil => exact ⟨[], trivial, rfl, rfl⟩
      | cons c rest =>
        obtain ⟨m, hexact, hspelled, hfilled⟩ := ih _ (Nat.lt_succ_self _) rest rfl
        refine ⟨.char c :: m, ⟨?_, hexact⟩, ?_, ?_⟩
        · rw [hspelled]
          exact habsent
        · rw [textOf_char, hspelled]
        · rw [substituteFrom_char v options habsent, hfilled, textOf_char]

end Substitution

/-! ## Cuts with other fillings -/

/-- Where two fillings differ at barriers only, a token that starts in front of the one text starts
in front of the other. -/
theorem starts_of_barriers {f g : Placeholder → List Char} (hfg : ∀ q, g q = f q ∨ Barrier (f q))
    {p : Placeholder} {x : List Char} (hx : x ≠ []) {m : List Piece}
    (h : p.token.toList <+: x ++ textOf f m) : p.token.toList <+: x ++ textOf g m := by
  induction m generalizing x with
  | nil => exact h
  | cons piece m ih =>
    cases piece with
    | char c =>
      rw [textOf_char, List.append_cons] at h ⊢
      exact ih (List.append_ne_nil_of_left_ne_nil hx [c]) h
    | token q =>
      rw [textOf_token] at h ⊢
      rcases hfg q with hq | hq
      · rw [hq]
        rw [← List.append_assoc] at h ⊢
        exact ih (List.append_ne_nil_of_left_ne_nil hx (f q)) h
      · exact (hq p x _ hx h).trans (List.prefix_append x _)

section Fillings
variable {v : Variant} {options : InstallOptions}

theorem mixed_of_mem {done : List Placeholder} {q : Placeholder} (h : q ∈ done) :
    mixed v options done q = filled v options q := if_pos h

theorem mixed_of_not_mem {done : List Placeholder} {q : Placeholder} (h : q ∉ done) :
    mixed v options done q = q.token.toList := if_neg h

theorem mixed_filled_or_barrier (done : List Placeholder) (q : Placeholder) :
    filled v options q = mixed v options done q ∨ Barrier (mixed v options done q) := by
  by_cases hq : q ∈ done
  · exact Or.inl (mixed_of_mem hq).symm
  · rw [mixed_of_not_mem hq]
    exact Or.inr (barrier_token q)

/-- A token that starts in the text between two passes, but not in one of its unfilled tokens, is
found in the filled text. -/
theorem absent_of_tokenFree {m : List Piece} {front w : List Char}
    (hfree : TokenFree (w ++ textOf (filled v options) m)) (hfront : front ≠ [])
    (hs : front <:+ w) (done : List Placeholder) (p : Placeholder) :
    ¬ p.token.toList <+: front ++ textOf (mixed v options done) m := by
  intro h
  have hstart := starts_of_barriers (mixed_filled_or_barrier done) hfront h
  obtain ⟨before, rfl⟩ := hs
  rw [List.append_assoc] at hfree
  exact hfree p (hstart.isInfix.trans (List.suffix_append before _).isInfix)

theorem pass_token_of_ne {p q : Placeholder} (hpq : p ≠ q) (b : List Char) :
    pass v options p (q.token.toList ++ b) = q.token.toList ++ pass v options p b := by
  apply pass_append_of_absent
  intro x hx hs hstart
  exact hpq (Placeholder.eq_token_of_starts hx hs hstart).2

theorem pass_textOf_mixed {m : List Piece} (hfree : TokenFree (textOf (filled v options) m))
    (done : List Placeholder) (p : Placeholder) :
    pass v options p (textOf (mixed v options done) m) =
      textOf (mixed v options (done ++ [p])) m := by
  induction m with
  | nil => exact pass_nil v options p
  | cons piece m ih =>
    cases piece with
    | char c =>
      have habsent : ¬ p.token.toList <+: c :: textOf (mixed v options done) m :=
        absent_of_tokenFree (w := [c]) hfree (List.cons_ne_nil c []) (List.suffix_refl _) done p
      have hrest := ih (hfree.of_append (a := [c]))
      rw [textOf_char, textOf_char, pass_cons v options p habsent, hrest]
    | token q =>
      rw [textOf_token] at hfree ⊢
      rw [textOf_token]
      have hrest := ih hfree.of_append
      by_cases hdone : q ∈ done
      · have hdone' : q ∈ done ++ [p] := List.mem_append_left [p] hdone
        rw [mixed_of_mem hdone, mixed_of_mem hdone', ← hrest]
        apply pass_append_of_absent
        exact fun x hx hs => absent_of_tokenFree hfree hx hs done p
      · rw [mixed_of_not_mem hdone]
        by_cases hpq : p = q
        · subst hpq
          have hdone' : p ∈ done ++ [p] := List.mem_append_right done List.mem_cons_self
          rw [pass_token_append, mixed_of_mem hdone', hrest]
          rfl
        · have hdone' : q ∉ done ++ [p] := by
            rw [List.mem_append, List.mem_singleton]
            rintro (hmem | heq)
            · exact hdone hmem
            · exact hpq heq.symm
          rw [pass_token_of_ne hpq, mixed_of_not_mem hdone', hrest]

theorem passes_textOf_mixed {m : List Piece} (hfree : TokenFree (textOf (filled v options) m))
    (order done : List Placeholder) :
    passes v options order (textOf (mixed v options done) m) =
      textOf (mixed v options (done ++ order)) m := by
  induction order generalizing done with
  | nil => rw [List.append_nil, passes_nil]
  | cons p order ih =>
    rw [passes_cons, pass_textOf_mixed hfree done p, ih, List.append_assoc]
    rfl

theorem passes_textOf_spelled {m : List Piece} (hfree : TokenFree (textOf (filled v options) m))
    {order : List Placeholder} (horder : ∀ p, p ∈ order) :
    passes v options order (textOf spelled m) = textOf (filled v options) m := by
  have hstart : textOf spelled m = textOf (mixed v options []) m :=
    textOf_congr (fun p => (mixed_of_not_mem List.not_mem_nil).symm) m
  have hend : textOf (mixed v options ([] ++ order)) m = textOf (filled v options) m :=
    textOf_congr (fun p => mixed_of_mem (horder p)) m
  rw [hstart, passes_textOf_mixed hfree order [], hend]

theorem tokenFree_filled (hinert : ∀ p, Inert (filled v options p)) {m : List Piece}
    (hm : Exact m) : TokenFree (textOf (filled v options) m) := by
  induction m with
  | nil => exact tokenFree_nil
  | cons piece m ih =>
    cases piece with
    | char c =>
      intro p hp
      rw [textOf_char] at hp
      rcases occurs_cons.mp hp with hstart | hrest
      · have hbarriers : ∀ q, spelled q = filled v options q ∨ Barrier (filled v options q) :=
          fun q => Or.inr (hinert q).barrier
        exact hm.1 p (starts_of_barriers (x := [c]) hbarriers (List.cons_ne_nil c []) hstart)
      · exact ih hm.2 p hrest
    | token q =>
      intro p hp
      rw [textOf_token] at hp
      rcases occurs_append_cases hp with ⟨x, hx, hs, hstart⟩ | hrest
      · exact (hinert q).absent hx hs p _ hstart
      · exact ih hm p hrest

end Fillings

/-! ## Sequential and simultaneous substitution -/

section Rendering
variable {v : Variant} {options : InstallOptions}

theorem replaceEach_of_tokenFree {template : String}
    (hfree : TokenFree (substitute template v options).toList) {order : List Placeholder}
    (horder : ∀ p, p ∈ order) :
    replaceEach order v options template = substitute template v options := by
  obtain ⟨m, -, hspelled, hfilled⟩ := exists_cut v options template.toList
  apply String.toList_inj.mp
  rw [substitute, String.toList_ofList, hfilled] at hfree ⊢
  rw [toList_replaceEach, ← hspelled, passes_textOf_spelled hfree horder]

theorem tokenFree_substitute (hinert : ∀ p : Placeholder, Inert (p.value v options).toList)
    (template : String) : TokenFree (substitute template v options).toList := by
  obtain ⟨m, hexact, -, hfilled⟩ := exists_cut v options template.toList
  rw [substitute, String.toList_ofList, hfilled]
  exact tokenFree_filled hinert hexact

end Rendering

/-- When the substitution in one reading leaves no known token, the thirteen replacements give the
same text in any order. With pod identity and without the addon that is so for every template. -/
theorem render_eq_substitute :
    (∀ (template : String) (v : Variant) (options : InstallOptions),
      TokenFree (substitute template v options).toList →
        render template v options = substitute template v options ∧
        ∀ order : List Placeholder, order.Perm Placeholder.all →
          replaceEach order v options template = substitute template v options) ∧
    (∀ (template : String) (v : Variant) (options : InstallOptions),
      v ∈ Variant.matrix → v.auth = .podIdentity → options.addon = false →
        (∀ p : Placeholder, p.value v options ≠ "") ∧
        TokenFree (substitute template v options).toList ∧
        render template v options = substitute template v options) := by
  refine ⟨?_, ?_⟩
  · intro template v options hfree
    refine ⟨replaceEach_of_tokenFree hfree Placeholder.mem_all, ?_⟩
    intro order hperm
    exact replaceEach_of_tokenFree hfree fun p => hperm.mem_iff.mpr (Placeholder.mem_all p)
  · intro template v options hv hauth haddon
    have hinert := inert_value_of_podIdentity hv hauth haddon
    have hfree := tokenFree_substitute hinert template
    refine ⟨?_, hfree, replaceEach_of_tokenFree hfree Placeholder.mem_all⟩
    intro p hp
    apply (hinert p).ne_nil
    rw [hp]
    rfl

/-- With pod identity no part of this template is deleted, so that nothing completes the token. -/
theorem render_eq_substitute_of_torn_token :
    let template := "\x7b\x7bARCH\x7b\x7bTEARDOWN_CLEANUP\x7d\x7d\x7d\x7d"
    let once := substitute template Variant.matrix[3] {}
    Variant.matrix[3] ∈ Variant.matrix ∧ TokenFree once.toList ∧
      replaceEach Placeholder.all.reverse Variant.matrix[3] {} template = once := by
  intro template once
  have hmem : Variant.matrix[3] ∈ Variant.matrix := List.getElem_mem _
  obtain ⟨-, hfree, -⟩ := render_eq_substitute.2 template Variant.matrix[3] {} hmem rfl rfl
  exact ⟨hmem, hfree, (render_eq_substitute.1 _ _ _ hfree).2 _ (List.reverse_perm _)⟩

end MountMatrix.Template
