import MountMatrix.Proofs.MatrixValues

/-! # Torn tokens

A token in a template may be torn: between its characters stand tokens whose value is empty, which
may be torn themselves. Once these are replaced, the pieces have come together. Whether the token
is then still due to be replaced depends on the order of the passes alone.

* `rank`, `stage`: the place of a placeholder in the order, and the text after the first passes.
* `Torn`: a text is torn open by tokens that vanish.
* `Torn.stage_append`: the passes close the holes of a torn token one by one, whatever is around it.
* `Torn.stage_rank`: when every hole vanishes in time, the token is whole at its own pass.
* `Torn.stage_all`: when a hole outlasts that pass, the token stands in the rendered text.
-/

set_option autoImplicit false

namespace MountMatrix.Template

open Text

/-! ## The order of the passes -/

def rank (p : Placeholder) : Nat := Placeholder.all.idxOf p

theorem rank_lt (p : Placeholder) : rank p < Placeholder.all.length :=
  List.idxOf_lt_length_iff.mpr (Placeholder.mem_all p)

theorem rank_getElem {k : Nat} (hk : k < Placeholder.all.length) :
    rank Placeholder.all[k] = k := by
  have hnodup : Placeholder.all.Nodup := by decide
  exact hnodup.idxOf_getElem k hk

theorem rank_injective {p q : Placeholder} (h : rank p = rank q) : p = q :=
  (List.idxOf_inj (Placeholder.mem_all p)).mp h

section Stages
variable (v : Variant) (options : InstallOptions)

def stage (k : Nat) (text : List Char) : List Char :=
  passes v options (Placeholder.all.take k) text

@[simp] theorem stage_zero (text : List Char) : stage v options 0 text = text := rfl

theorem stage_succ {k : Nat} (hk : k < Placeholder.all.length) (text : List Char) :
    stage v options (k + 1) text = pass v options Placeholder.all[k] (stage v options k text) := by
  rw [stage, List.take_succ_eq_append_getElem hk, passes_append, passes_cons, passes_nil]
  rfl

theorem stage_all (text : List Char) :
    stage v options Placeholder.all.length text = passes v options Placeholder.all text := by
  rw [stage, List.take_length]

end Stages

/-! ## Torn texts -/

/-- The text is `w` with holes between its characters. In each hole stands the token of a
placeholder of `holes`, itself torn by what is replaced before it. Every hole is the token of an
empty value and is not among the first `done` to be replaced. -/
inductive Torn (v : Variant) (options : InstallOptions) (done : Nat) :
    List Placeholder → List Char → List Char → Prop where
  | last (c : Char) : Torn v options done [] [c] [c]
  | next (c : Char) {holes : List Placeholder} {w text : List Char} :
      Torn v options done holes w text → Torn v options done holes (c :: w) (c :: text)
  | hole {p : Placeholder} {inner holes : List Placeholder} {c d : Char} {w hole text : List Char} :
      p.value v options = "" → done ≤ rank p → (∀ q ∈ inner, rank q < rank p) →
      Torn v options done inner p.token.toList hole →
      Torn v options done holes (c :: d :: w) (c :: text) →
      Torn v options done (p :: holes) (c :: d :: w) (c :: (hole ++ text))

variable {v : Variant} {options : InstallOptions} {k : Nat} {holes : List Placeholder}
  {w text : List Char} {p q : Placeholder}

theorem Torn.exists_cons (h : Torn v options k holes w text) :
    ∃ c w' text', w = c :: w' ∧ text = c :: text' := by
  cases h with
  | last c => exact ⟨c, [], [], rfl, rfl⟩
  | next c h => exact ⟨c, _, _, rfl, rfl⟩
  | hole => exact ⟨_, _, _, rfl, rfl⟩

theorem Torn.le_rank (h : Torn v options k holes w text) : ∀ g ∈ holes, k ≤ rank g := by
  induction h with
  | last c => exact fun g hg => absurd hg List.not_mem_nil
  | next c h ih => exact ih
  | hole hvalue hdone hinner hhole hrest _ ih =>
    intro g hg
    rcases List.mem_cons.mp hg with rfl | hg
    · exact hdone
    · exact ih g hg

theorem Torn.eq_of_no_holes (h : Torn v options k [] w text) : text = w := by
  generalize hnil : ([] : List Placeholder) = holes at h
  induction h with
  | last c => rfl
  | next c h ih => rw [ih hnil]
  | hole => exact absurd hnil (List.cons_ne_nil _ _).symm

/-- Holes that would all be replaced by now are none. -/
theorem Torn.eq_of_ranks_lt (h : Torn v options k holes w text) (hk : ∀ g ∈ holes, rank g < k) :
    text = w := by
  cases holes with
  | nil => exact h.eq_of_no_holes
  | cons g holes =>
    have hlow := h.le_rank g List.mem_cons_self
    have hhigh := hk g List.mem_cons_self
    omega

theorem Torn.opening (h : Torn v options k holes p.token.toList text) : ['{', '{'] <+: text := by
  have htok := Placeholder.token_toList p
  generalize p.token.toList = w at h htok
  cases h with
  | last c => simp at htok
  | next c h =>
    obtain ⟨c', w', text', rfl, rfl⟩ := h.exists_cons
    simp only [List.cons.injEq] at htok
    obtain ⟨rfl, rfl, -⟩ := htok
    exact ⟨text', rfl⟩
  | @hole p' _ _ _ _ _ hole' text' _ _ _ hhole hrest =>
    obtain ⟨c', w', text'', hw, rfl⟩ := hhole.exists_cons
    rw [Placeholder.token_toList] at hw
    simp only [List.cons.injEq] at htok hw
    rw [htok.1, ← hw.1]
    exact ⟨text'' ++ text', rfl⟩

/-- What can be read of a torn text without an opening brace lies in front of its first hole. -/
theorem Torn.read_to_hole {y r : List Char} (h : Torn v options k holes w text) (hy : '{' ∉ y)
    (hread : y <+: text ++ r) :
    (∃ c s, w = y ++ c :: s) ∨ (w <+: y ∧ holes = [] ∧ text = w) := by
  induction h generalizing y with
  | last c =>
    cases y with
    | nil => exact Or.inl ⟨c, [], rfl⟩
    | cons d y =>
      rw [List.singleton_append, List.cons_prefix_cons] at hread
      rw [hread.1]
      exact Or.inr ⟨⟨y, rfl⟩, rfl, rfl⟩
  | @next c _ w _ h ih =>
    cases y with
    | nil => exact Or.inl ⟨c, w, rfl⟩
    | cons d y =>
      rw [List.cons_append, List.cons_prefix_cons] at hread
      obtain ⟨rfl, hread⟩ := hread
      have hy' : '{' ∉ y := fun hmem => hy (List.mem_cons_of_mem d hmem)
      rcases ih hy' hread with ⟨c, s, rfl⟩ | ⟨hw, hnil, rfl⟩
      · exact Or.inl ⟨c, s, rfl⟩
      · exact Or.inr ⟨List.cons_prefix_cons.mpr ⟨rfl, hw⟩, hnil, rfl⟩
  | @hole p _ _ c d w hole text _ _ _ hhole _ _ _ =>
    cases y with
    | nil => exact Or.inl ⟨c, d :: w, rfl⟩
    | cons e y =>
      rw [List.cons_append, List.cons_prefix_cons] at hread
      obtain ⟨rfl, hread⟩ := hread
      cases y with
      | nil => exact Or.inl ⟨d, w, rfl⟩
      | cons e' y =>
        obtain ⟨rest, hrest⟩ := hhole.opening
        rw [← hrest, List.append_assoc, List.append_assoc, List.cons_append,
          List.cons_prefix_cons] at hread
        rw [hread.1] at hy
        exact absurd (List.mem_cons_of_mem _ List.mem_cons_self) hy

theorem Torn.cons_cases {c d : Char} (h : Torn v options k holes (c :: d :: w) text) :
    (∃ u, text = c :: u ∧ Torn v options k holes (d :: w) u) ∨
      ∃ rest, text = c :: '{' :: '{' :: rest := by
  cases h with
  | next c h => exact Or.inl ⟨_, rfl, h⟩
  | hole _ _ _ hhole _ =>
    obtain ⟨rest, hrest⟩ := hhole.opening
    rw [← hrest]
    exact Or.inr ⟨rest ++ _, rfl⟩

theorem not_starts_three_braces {rest : List Char} :
    ¬ p.token.toList <+: '{' :: '{' :: '{' :: rest := by
  intro h
  obtain ⟨c, rest', heq, hc⟩ := Placeholder.third_of_starts h
  simp only [List.cons.injEq, true_and] at heq
  exact hc heq.1.symm

/-- Only a token without holes starts where a torn token does. -/
theorem Torn.eq_of_starts {r : List Char} (h : Torn v options k holes q.token.toList text)
    (hstart : p.token.toList <+: text ++ r) : p = q ∧ holes = [] ∧ text = q.token.toList := by
  obtain ⟨e, s, hes⟩ : ∃ e s, q.key.toList ++ ['}', '}'] = e :: s :=
    List.exists_cons_of_ne_nil (List.append_ne_nil_of_right_ne_nil _ (List.cons_ne_nil _ _))
  have hq : q.token.toList = '{' :: '{' :: e :: s := by
    rw [Placeholder.token_toList, hes]
  rw [hq] at h ⊢
  rcases h.cons_cases with ⟨u, rfl, hu⟩ | ⟨rest, rfl⟩
  · rcases hu.cons_cases with ⟨u', rfl, hu'⟩ | ⟨rest, rfl⟩
    · have hread : p.key.toList ++ ['}', '}'] <+: u' ++ r := by
        rw [Placeholder.token_toList] at hstart
        simpa only [List.cons_append, List.cons_prefix_cons, true_and] using hstart
      have hbrace : '{' ∉ p.key.toList ++ ['}', '}'] := by
        intro hmem
        rcases List.mem_append.mp hmem with hmem | hmem
        · exact (Placeholder.key_no_brace p _ hmem).1 rfl
        · simp at hmem
      rcases hu'.read_to_hole hbrace hread with ⟨c, s', hs'⟩ | ⟨hle, hnil, rfl⟩
      · have htok : q.token.toList = p.token.toList ++ c :: s' := by
          rw [hq, hs', Placeholder.token_toList]
          rfl
        have heq := Placeholder.token_unique (p := p) (q := q) ⟨c :: s', htok.symm⟩
          (List.prefix_refl _)
        subst heq
        have hlen := congrArg List.length htok
        rw [List.length_append, List.length_cons] at hlen
        omega
      · have htok : q.token.toList <+: p.token.toList := by
          rw [hq, Placeholder.token_toList]
          simpa only [List.cons_prefix_cons, true_and] using hle
        exact ⟨Placeholder.token_unique (List.prefix_refl _) htok, hnil, rfl⟩
    · exact absurd hstart not_starts_three_braces
  · exact absurd hstart not_starts_three_braces

/-! ## One pass over a torn token -/

/-- Behind its first character the rest of a torn token starts no token. -/
theorem Torn.not_starts {r : List Char} (h : Torn v options k holes w text)
    (hw : w <:+ q.token.toList.tail) : ¬ p.token.toList <+: text ++ r := by
  intro hstart
  obtain ⟨c, w', text', rfl, rfl⟩ := h.exists_cons
  have hopen := Placeholder.opening_of_starts hstart
  have hnot := Placeholder.not_opening_of_suffix_tail (r := ['{']) (List.cons_ne_nil c w') hw
  rw [List.cons_append, List.cons_prefix_cons] at hopen
  obtain ⟨rfl, hopen⟩ := hopen
  cases w' with
  | nil => exact hnot (List.prefix_refl _)
  | cons d w' =>
    rcases h.cons_cases with ⟨u, hu, htorn⟩ | ⟨rest, hrest⟩
    · obtain ⟨d', _, u', hd, rfl⟩ := htorn.exists_cons
      rw [List.cons.injEq] at hu hd
      rw [hu.2, List.cons_append, List.cons_prefix_cons] at hopen
      apply hnot
      rw [hd.1, ← hopen.1]
      exact ⟨w' ++ ['{'], rfl⟩
    · rw [hrest] at hstart
      exact not_starts_three_braces hstart

/-- What the pass of `p` makes of a torn text: the holes of `p` close, deeper holes may close, and
no hole is torn open. -/
structure Closes (p : Placeholder) (holes holes' : List Placeholder) : Prop where
  subset : holes' ⊆ holes
  keeps : ∀ g ∈ holes, rank p < rank g → g ∈ holes'

theorem Closes.drop {holes' : List Placeholder} (h : Closes p holes holes') :
    Closes p (p :: holes) holes' where
  subset := fun g hg => List.mem_cons_of_mem p (h.subset hg)
  keeps := by
    intro g hg hlt
    rcases List.mem_cons.mp hg with rfl | hg
    · omega
    · exact h.keeps g hg hlt

theorem Closes.cons {holes' : List Placeholder} (h : Closes p holes holes') (q : Placeholder) :
    Closes p (q :: holes) (q :: holes') where
  subset := List.cons_subset_cons q h.subset
  keeps := by
    intro g hg hlt
    rcases List.mem_cons.mp hg with rfl | hg
    · exact List.mem_cons_self
    · exact List.mem_cons_of_mem q (h.keeps g hg hlt)

/-- Behind the first character, the pass closes the holes that are due and leaves the rest of the
torn text, whatever follows it. -/
theorem Torn.pass_tail (hk : rank p = k) (h : Torn v options k holes w text)
    (hw : w <:+ q.token.toList) :
    ∃ c tail tail' holes', text = c :: tail ∧ Torn v options (k + 1) holes' w (c :: tail') ∧
      Closes p holes holes' ∧
      ∀ r, pass v options p (tail ++ r) = tail' ++ pass v options p r := by
  induction h generalizing q with
  | last c =>
    have hclose : Closes p [] [] :=
      ⟨List.Subset.refl _, fun g hg => absurd hg List.not_mem_nil⟩
    exact ⟨c, [], [], [], rfl, Torn.last c, hclose, fun r => rfl⟩
  | @next c _ w text h ih =>
    have hwq : w <:+ q.token.toList := (List.suffix_cons c w).trans hw
    obtain ⟨c₁, tail, tail', holes', rfl, htorn, hclose, hpass⟩ := ih hwq
    have hproper : w <:+ q.token.toList.tail := by
      obtain ⟨front, hfront⟩ := hw
      apply Placeholder.suffix_tail_of_append (x := front ++ [c]) (by simp)
      rw [← hfront]
      simp
    refine ⟨c, c₁ :: tail, c₁ :: tail', holes', rfl, Torn.next c htorn, hclose, ?_⟩
    intro r
    have hnot : ¬ p.token.toList <+: c₁ :: (tail ++ r) := h.not_starts hproper
    rw [List.cons_append, pass_cons v options p hnot, hpass r, List.cons_append]
  | @hole p' inner holes c d w hole text hvalue hdone hinner hhole hrest ihhole ihrest =>
    obtain ⟨c₁, tail, tail', holes', htext, htorn, hclose, hpass⟩ := ihrest hw
    obtain ⟨rfl, rfl⟩ := List.cons.inj htext
    by_cases hp : p' = p
    · subst hp
      have hwhole := hhole.eq_of_ranks_lt fun g hg => by rw [← hk]; exact hinner g hg
      refine ⟨_, _, tail', holes', rfl, htorn, hclose.drop, ?_⟩
      intro r
      rw [hwhole, List.append_assoc, pass_token_append, hvalue, hpass r]
      rfl
    · have hrank : k + 1 ≤ rank p' := by
        have hne : rank p' ≠ rank p := fun heq => hp (rank_injective heq)
        omega
      obtain ⟨c₂, tailh, tailh', inner', rfl, htornh, hcloseh, hpassh⟩ :=
        ihhole (q := p') (List.suffix_refl _)
      have hbefore : ∀ g ∈ inner', rank g < rank p' := fun g hg => hinner g (hcloseh.subset hg)
      refine ⟨_, _, (c₂ :: tailh') ++ tail', p' :: holes', rfl,
        Torn.hole hvalue hrank hbefore htornh htorn, hclose.cons p', ?_⟩
      intro r
      have hnot : ¬ p.token.toList <+: c₂ :: (tailh ++ (text ++ r)) :=
        fun hstart => hp (hhole.eq_of_starts hstart).1.symm
      rw [List.append_assoc, List.cons_append, pass_cons v options p hnot, hpassh, hpass r]
      simp only [List.cons_append, List.append_assoc]

/-- The pass of `p` over a torn token that is not the whole token of `p`. -/
theorem Torn.pass_token (hk : rank p = k) (h : Torn v options k holes q.token.toList text)
    (hdue : p ≠ q ∨ holes ≠ []) :
    ∃ holes' text', Torn v options (k + 1) holes' q.token.toList text' ∧
      Closes p holes holes' ∧
      ∀ r, pass v options p (text ++ r) = text' ++ pass v options p r := by
  obtain ⟨c, tail, tail', holes', rfl, htorn, hclose, hpass⟩ :=
    h.pass_tail hk (List.suffix_refl q.token.toList)
  refine ⟨holes', c :: tail', htorn, hclose, ?_⟩
  intro r
  have hnot : ¬ p.token.toList <+: c :: (tail ++ r) := by
    intro hstart
    obtain ⟨hpq, hnil, -⟩ := h.eq_of_starts hstart
    rcases hdue with hne | hne
    · exact hne hpq
    · exact hne hnil
  rw [List.cons_append, pass_cons v options p hnot, hpass r, List.cons_append]

/-! ## All passes -/

theorem Torn.stage_append (h : Torn v options 0 holes q.token.toList text)
    (hk : k ≤ Placeholder.all.length) (hdue : k ≤ rank q ∨ ∃ g ∈ holes, rank q ≤ rank g) :
    ∃ holes' text', Torn v options k holes' q.token.toList text' ∧ holes' ⊆ holes ∧
      (∀ g ∈ holes, k ≤ rank g → g ∈ holes') ∧
      ∀ a b, stage v options k (a ++ (text ++ b)) =
        stage v options k a ++ (text' ++ stage v options k b) := by
  induction k with
  | zero =>
    exact ⟨holes, text, h, List.Subset.refl _, fun g hg _ => hg, fun a b => rfl⟩
  | succ k ih =>
    have hklt : k < Placeholder.all.length := by omega
    have hrank := rank_getElem hklt
    obtain ⟨holes', text', htorn, hsub, hkeep, hstage⟩ :=
      ih (by omega) (hdue.imp_left fun hle => by omega)
    have hdue' : Placeholder.all[k] ≠ q ∨ holes' ≠ [] := by
      rcases hdue with hle | ⟨g, hg, hle⟩
      · left
        intro heq
        rw [heq] at hrank
        omega
      · by_cases heq : Placeholder.all[k] = q
        · right
          rw [heq] at hrank
          exact List.ne_nil_of_mem (hkeep g hg (by omega))
        · exact Or.inl heq
    obtain ⟨holes'', text'', htorn', hclose, hpass⟩ := htorn.pass_token hrank hdue'
    refine ⟨holes'', text'', htorn', List.Subset.trans hclose.subset hsub, ?_, ?_⟩
    · intro g hg hle
      exact hclose.keeps g (hkeep g hg (by omega)) (by omega)
    · intro a b
      have hcut := (barrier_of_opening htorn.opening).uncrossed Placeholder.all[k]
        (stage v options k a) (stage v options k b)
      rw [stage_succ v options hklt, stage_succ v options hklt, stage_succ v options hklt,
        hstage a b, pass_append v options _ hcut, hpass]

theorem Torn.stage_rank (h : Torn v options 0 holes q.token.toList text)
    (hbefore : ∀ g ∈ holes, rank g < rank q) :
    stage v options (rank q) text = q.token.toList := by
  obtain ⟨holes', text', htorn, hsub, -, hstage⟩ :=
    h.stage_append (Nat.le_of_lt (rank_lt q)) (Or.inl (Nat.le_refl _))
  have hwhole := htorn.eq_of_ranks_lt fun g hg => hbefore g (hsub hg)
  have happ := hstage [] []
  rw [hwhole] at happ
  simpa only [stage, passes_empty_text, List.nil_append, List.append_nil] using happ

theorem Torn.stage_all (h : Torn v options 0 holes q.token.toList text)
    (hlate : ∃ g ∈ holes, rank q ≤ rank g) (a b : List Char) :
    passes v options Placeholder.all (a ++ (text ++ b)) =
      passes v options Placeholder.all a ++
        (q.token.toList ++ passes v options Placeholder.all b) := by
  obtain ⟨holes', text', htorn, -, -, hstage⟩ :=
    h.stage_append (Nat.le_refl Placeholder.all.length) (Or.inr hlate)
  rw [← htorn.eq_of_ranks_lt fun g _ => rank_lt g]
  simpa only [Template.stage_all] using hstage a b

end MountMatrix.Template
