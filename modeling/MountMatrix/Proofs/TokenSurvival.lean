import MountMatrix.Proofs.Openings

/-! # Tokens that survive rendering

A known token stands in a rendered text exactly when the template has a torn token of which a hole
lasts until the pass of the token itself: that pass finds nothing to replace, and the later ones
close the hole. Such a text is changed when it is rendered once more, every other one stays.

* `Leftover`: a part of the template that rendering turns into a token.
* `occurs_render_iff`: the tokens of a rendered text are what the leftovers become.
* `Harmless.render_eq_self_iff`: rendering leaves a text as it is when it has no token, and only
  then.
-/

set_option autoImplicit false

namespace MountMatrix.Template

open Text

/-- The part is a torn token, and one of its holes is not replaced before the token is due. -/
def Leftover (v : Variant) (options : InstallOptions) (p : Placeholder) (part : List Char) : Prop :=
  ∃ holes, Torn v options 0 holes p.token.toList part ∧ ∃ g ∈ holes, rank p ≤ rank g

theorem Torn.whole {v : Variant} {options : InstallOptions} {k : Nat} {w : List Char}
    (hw : w ≠ []) : Torn v options k [] w w := by
  induction w with
  | nil => exact absurd rfl hw
  | cons c w ih =>
    cases w with
    | nil => exact Torn.last c
    | cons d w => exact Torn.next c (ih (List.cons_ne_nil d w))

theorem Torn.of_split {v : Variant} {options : InstallOptions} {q : Placeholder}
    (hq : q.value v options = "") {a b : List Char} (ha : a ≠ []) (hb : b ≠ []) :
    Torn v options 0 [q] (a ++ b) (a ++ (q.token.toList ++ b)) := by
  have hhole : Torn v options 0 [] q.token.toList q.token.toList :=
    Torn.whole (Placeholder.token_ne_nil q)
  induction a with
  | nil => exact absurd rfl ha
  | cons c a ih =>
    cases a with
    | nil =>
      obtain ⟨d, b, rfl⟩ := List.exists_cons_of_ne_nil hb
      have hrest : Torn v options 0 [] (c :: d :: b) (c :: d :: b) :=
        Torn.whole (List.cons_ne_nil c _)
      rw [List.singleton_append, List.singleton_append]
      exact Torn.hole hq (Nat.zero_le _) (fun g hg => absurd hg List.not_mem_nil) hhole hrest
    | cons c' a => exact Torn.next c (ih (List.cons_ne_nil c' a))

/-- A token stands in another one, is empty and not replaced before it. -/
theorem leftover_of_split {v : Variant} {options : InstallOptions} {p q : Placeholder}
    (hq : q.value v options = "") (hpq : rank p ≤ rank q) {a b : List Char} (ha : a ≠ [])
    (hb : b ≠ []) (htok : p.token.toList = a ++ b) :
    Leftover v options p (a ++ (q.token.toList ++ b)) := by
  refine ⟨[q], ?_, q, List.mem_cons_self, hpq⟩
  rw [htok]
  exact Torn.of_split hq ha hb

theorem originOf_infix {seg m : List Item} (h : seg <:+: m) : originOf seg <:+: originOf m := by
  obtain ⟨front, back, rfl⟩ := h
  rw [originOf_append, originOf_append]
  exact ⟨originOf front, originOf back, rfl⟩

section
variable {v : Variant} {options : InstallOptions} {p q : Placeholder}

theorem passes_eq_pass_stage (text : List Char) :
    passes v options Placeholder.all text =
      passes v options (Placeholder.all.drop (rank p + 1))
        (pass v options p (stage v options (rank p) text)) := by
  have hlt := rank_lt p
  have hp : Placeholder.all[rank p] = p := List.getElem_idxOf hlt
  have hsplit : Placeholder.all = Placeholder.all.take (rank p) ++
      p :: Placeholder.all.drop (rank p + 1) := by
    conv_lhs => rw [← List.take_append_drop (rank p) Placeholder.all]
    rw [List.drop_eq_getElem_cons hlt, hp]
  conv_lhs => rw [hsplit]
  rw [passes_append, passes_cons]
  rfl

section Harmless
variable (hval : Harmless v options)
include hval

theorem Harmless.tokenFree_value : TokenFree (q.value v options).toList := by
  by_cases hq : q.value v options = ""
  · rw [hq]
    exact tokenFree_nil
  · exact (hval q hq).not_occurs

/-- A token that is whole when it is due becomes its value, and stays that. -/
theorem Harmless.passes_of_stage {text : List Char}
    (h : stage v options (rank p) text = p.token.toList) :
    passes v options Placeholder.all text = (p.value v options).toList := by
  have hpass := pass_token_append v options p []
  rw [List.append_nil, pass_nil, List.append_nil] at hpass
  rw [passes_eq_pass_stage (p := p), h, hpass]
  exact passes_of_tokenFree v options hval.tokenFree_value _

theorem Harmless.occurs_passes_iff (t : List Char) :
    Occurs p.token.toList (passes v options Placeholder.all t) ↔
      ∃ part, Occurs part t ∧ Leftover v options p part := by
  constructor
  · intro hocc
    obtain ⟨m, rfl, hlegit, hstage⟩ := hval.exists_items t (Nat.le_refl Placeholder.all.length)
    rw [← stage_all, hstage m (List.infix_refl m)] at hocc
    obtain ⟨seg, holes, hseg, hnow, htorn, -⟩ := hval.exists_torn_of_occurs hlegit hocc
    refine ⟨originOf seg, originOf_infix hseg, holes, htorn, ?_⟩
    by_contra hearly
    have hbefore : ∀ g ∈ holes, rank g < rank p := by
      intro g hg
      by_contra hle
      exact hearly ⟨g, hg, Nat.le_of_not_lt hle⟩
    -- otherwise the passes make the value of the part, and no value has a token
    have hvalue := hval.passes_of_stage (htorn.stage_rank hbefore)
    rw [← stage_all, hstage seg hseg, hnow] at hvalue
    apply hval.tokenFree_value p
    rw [← hvalue]
    exact List.infix_refl _
  · rintro ⟨part, ⟨a, b, rfl⟩, holes, htorn, hlate⟩
    rw [List.append_assoc, htorn.stage_all hlate a b]
    exact ⟨_, _, List.append_assoc _ _ _⟩

end Harmless

end

/-! ## Rendering once, and once more -/

section Rendering
variable {v : Variant} {options : InstallOptions} (hval : Harmless v options) (template : String)
include hval

theorem Harmless.occurs_render_iff (p : Placeholder) :
    Occurs p.token.toList (render template v options).toList ↔
      ∃ part, Occurs part template.toList ∧ Leftover v options p part := by
  rw [toList_render]
  exact hval.occurs_passes_iff template.toList

theorem Harmless.render_eq_self_iff :
    render template v options = template ↔ TokenFree template.toList := by
  rw [← String.toList_inj, toList_render, hval.passes_eq_self_iff]
  exact ⟨fun h p => h p (Placeholder.mem_all p), fun h p _ => h p⟩

end Rendering

theorem harmless_of_mem_matrix {v : Variant} (hv : v ∈ Variant.matrix) {options : InstallOptions}
    (hversion : VersionWithoutBrace options) : Harmless v options :=
  fun p => inert_value hv (fun _ => hversion) p

/-- In the suites of the matrix, a token survives exactly where the template has a leftover of it,
and rendering once more changes exactly the texts of such templates. -/
theorem tokenFree_render_iff {v : Variant} (hv : v ∈ Variant.matrix) {options : InstallOptions}
    (hversion : VersionWithoutBrace options) (template : String) :
    (∀ p : Placeholder, Occurs p.token.toList (render template v options).toList ↔
      ∃ part, Occurs part template.toList ∧ Leftover v options p part) ∧
    (render (render template v options) v options = render template v options ↔
      ∀ (p : Placeholder) (part : List Char), Occurs part template.toList →
        ¬ Leftover v options p part) := by
  have hval := harmless_of_mem_matrix hv hversion
  refine ⟨hval.occurs_render_iff template, ?_⟩
  rw [hval.render_eq_self_iff]
  constructor
  · intro hfree p part hpart hleft
    exact hfree p ((hval.occurs_render_iff template p).mpr ⟨part, hpart, hleft⟩)
  · intro hnone p hocc
    obtain ⟨part, hpart, hleft⟩ := (hval.occurs_render_iff template p).mp hocc
    exact hnone p part hpart hleft

theorem tokenFree_render_iff_of_addon :
    let options : InstallOptions := { addon := true, addonVersion := some "v1.2" }
    let template := "\x7b\x7bAUTH\x7b\x7bPRIVREPO_CHECK\x7d\x7d_TYPE\x7d\x7d"
    let once := render template Variant.matrix[3] options
    Variant.matrix[3] ∈ Variant.matrix ∧ VersionWithoutBrace options ∧
      Occurs Placeholder.authType.token.toList once.toList ∧
      render once Variant.matrix[3] options ≠ once := by
  intro options template once
  have hmem : Variant.matrix[3] ∈ Variant.matrix := List.getElem_mem _
  have hversion : VersionWithoutBrace options := by
    rintro version ⟨⟩
    exact noBrace_literal (by decide)
  have hpart : template.toList = "\x7b\x7bAUTH".toList ++
      (Placeholder.privrepoCheck.token.toList ++ "_TYPE\x7d\x7d".toList) := by decide +kernel
  have hleft : Leftover Variant.matrix[3] options .authType template.toList := by
    rw [hpart]
    exact leftover_of_split rfl (by decide) (by decide) (by decide) (by decide)
  obtain ⟨hocc, hagain⟩ := tokenFree_render_iff hmem hversion template
  refine ⟨hmem, hversion, (hocc .authType).mpr ⟨_, List.infix_refl _, hleft⟩, ?_⟩
  exact fun heq => hagain.mp heq .authType _ (List.infix_refl _) hleft

/-- The token in the middle is deleted after the pass that looked for the one around it. -/
theorem not_tokenFree_render :
    let template := "\x7b\x7bARCH\x7b\x7bTEARDOWN_CLEANUP\x7d\x7d\x7d\x7d"
    let once := render template Variant.matrix[0] {}
    Variant.matrix[0] ∈ Variant.matrix ∧ VersionWithoutBrace {} ∧
      Occurs Placeholder.arch.token.toList once.toList ∧
      render once Variant.matrix[0] {} ≠ once := by
  intro template once
  have honce : once = "\x7b\x7bARCH\x7d\x7d" := by decide +kernel
  have htwice : render "\x7b\x7bARCH\x7d\x7d" Variant.matrix[0] {} = "x64" := by decide +kernel
  have hversion : VersionWithoutBrace {} := fun version h => absurd h (by simp)
  refine ⟨List.getElem_mem _, hversion, ?_, ?_⟩
  · rw [honce]
    exact List.infix_refl _
  · rw [honce, htwice]
    decide

end MountMatrix.Template
