import MountMatrix.Proofs.MatrixValues
import MountMatrix.Proofs.ResourceNames

/-! # Tokens that are nowhere in a template

An inert value is no part of a token, so a pass that puts inert values in brings no token about. A
token that a template lacks is still lacking when its own pass comes, if all passes before it are of
this kind; then the pass does nothing, and the value could be any.

* `occurs_of_occurs_pass`: a token after such a pass was there before.
* `passes_of_absent`: passes for absent tokens can be left out.
* `render_eq_of_absent`: renderings that differ in the values of absent tokens.
-/

set_option autoImplicit false

namespace MountMatrix.Template

open Text

section Passes
variable {v : Variant} {options : InstallOptions} {p q : Placeholder}

/-- A token that starts in front of a text that a pass has been over started there before. -/
theorem starts_of_starts_pass (hq : Inert (q.value v options).toList) {text x : List Char}
    (hx : x ≠ []) (h : p.token.toList <+: x ++ pass v options q text) :
    p.token.toList <+: x ++ text := by
  induction text using reading_induction (Placeholder.token_ne_nil q) generalizing x with
  | nil => rwa [pass_nil] at h
  | found rest _ =>
    rw [pass_token_append] at h
    exact (hq.barrier p x _ hx h).trans (List.prefix_append x _)
  | keep c rest hstart ih =>
    -- the character that is kept joins the text in front
    rw [pass_cons v options q hstart, List.append_cons] at h
    rw [List.append_cons]
    exact ih (by simp) h

theorem occurs_of_occurs_pass (hq : Inert (q.value v options).toList) {text : List Char}
    (h : Occurs p.token.toList (pass v options q text)) : Occurs p.token.toList text := by
  induction text using reading_induction (Placeholder.token_ne_nil q) with
  | nil => rwa [pass_nil] at h
  | found rest ih =>
    rw [pass_token_append] at h
    rcases occurs_append_cases h with ⟨x, hx, hs, hstart⟩ | hrest
    · exact absurd hstart (hq.absent hx hs p _)
    · exact (ih hrest).append_left
  | keep c rest hstart ih =>
    rw [pass_cons v options q hstart] at h
    rcases occurs_cons.mp h with hc | hrest
    · exact (starts_of_starts_pass hq (List.cons_ne_nil c []) hc).isInfix
    · exact occurs_cons.mpr (.inr (ih hrest))

theorem not_occurs_passes {front : List Placeholder}
    (hfront : ∀ q ∈ front, Inert (q.value v options).toList) {text : List Char}
    (h : ¬ Occurs p.token.toList text) :
    ¬ Occurs p.token.toList (passes v options front text) := by
  induction front generalizing text with
  | nil => exact h
  | cons q front ih =>
    obtain ⟨hq, hrest⟩ := List.forall_mem_cons.mp hfront
    exact ih hrest fun hpass => h (occurs_of_occurs_pass hq hpass)

/-- Behind inert values the passes for absent tokens do nothing. -/
theorem passes_of_absent {front absent : List Placeholder} (back : List Placeholder)
    (hfront : ∀ q ∈ front, Inert (q.value v options).toList) {text : List Char}
    (h : ∀ p ∈ absent, ¬ Occurs p.token.toList text) :
    passes v options (front ++ absent ++ back) text = passes v options (front ++ back) text := by
  have hmiddle : passes v options absent (passes v options front text) =
      passes v options front text :=
    passes_of_not_occurs v options fun p hp => not_occurs_passes hfront (h p hp)
  rw [passes_append, passes_append, hmiddle, passes_append]

end Passes

/-! ## Values that do not differ -/

section Values
variable {v w : Variant} {options options' : InstallOptions}

theorem value_eq_of_colors (harch : v.arch = w.arch) (hauth : v.auth = w.auth) {p : Placeholder}
    (hp : p ∉ [Placeholder.logColor, Placeholder.colorCode]) :
    p.value v options = p.value w options := by
  obtain ⟨arch, auth, _, _⟩ := v
  obtain ⟨arch', auth', _, _⟩ := w
  obtain rfl : arch = arch' := harch
  obtain rfl : auth = auth' := hauth
  cases p with
  | logColor | colorCode => exact absurd (by decide) hp
  | _ => rfl

theorem value_eq_of_version (haddon : options.addon = options'.addon) {p : Placeholder}
    (hp : options.addon = false ∨ p ≠ .installMethod) :
    p.value v options = p.value v options' := by
  cases p with
  | installMethod =>
    have hwithout : options.addon = false := hp.resolve_right fun hne => hne rfl
    have hchart : ¬ options.addon = true := by rw [hwithout]; decide
    have hchart' : ¬ options'.addon = true := by rwa [← haddon]
    rw [Placeholder.value, Placeholder.value, Snippet.installMethod, Snippet.installMethod,
      if_neg hchart, if_neg hchart']
  | privrepoCheck => rw [Placeholder.value, Placeholder.value, Snippet.privrepoCheck, haddon]; rfl
  | installProviderTest =>
    rw [Placeholder.value, Placeholder.value, Snippet.installProviderTest, haddon]
    rfl
  | _ => rfl

theorem versionWithoutBrace_default : VersionWithoutBrace {} :=
  fun _ hversion => nomatch hversion

/-- Whatever the colours, the first two values are those of a variant in the matrix. -/
theorem inert_before_colors (v : Variant) {p : Placeholder}
    (hp : p ∈ [Placeholder.arch, .authType]) : Inert (p.value v options).toList := by
  obtain ⟨w, hw, harch, hauth⟩ := v.exists_mem_matrix
  have hvalue : p.value v options = p.value w {} := by
    rcases List.mem_pair.mp hp with rfl | rfl
    · exact congrArg Arch.name harch
    · exact congrArg AuthMode.name hauth
  have hneeded : p ∉ optional := by
    rcases List.mem_pair.mp hp with rfl | rfl <;> decide
  rw [hvalue]
  exact inert_of_not_optional hw (fun _ => versionWithoutBrace_default) hneeded

/-- No value before the installation's depends on the options. -/
theorem inert_before_installMethod (hv : v ∈ Variant.matrix) {p : Placeholder}
    (hp : p ∈ Placeholder.attributes ++ [.authSetup]) : Inert (p.value v options).toList := by
  have hvalue : p.value v options = p.value v {} := by
    cases p with
    | installMethod | teardownCleanup | podIdentityParam | privrepoCheck | installProviderTest =>
      exact absurd hp (by decide)
    | _ => rfl
  have hneeded : p ∉ optional := by
    cases p with
    | teardownCleanup | podIdentityParam | privrepoCheck | installProviderTest =>
      exact absurd hp (by decide)
    | _ => decide
  rw [hvalue]
  exact inert_of_not_optional hv (fun _ => versionWithoutBrace_default) hneeded

end Values

/-! ## Renderings -/

theorem render_eq_of_colors {template : String} (options : InstallOptions) {v w : Variant}
    (harch : v.arch = w.arch) (hauth : v.auth = w.auth)
    (hlog : ¬ Occurs Placeholder.logColor.token.toList template.toList)
    (hcode : ¬ Occurs Placeholder.colorCode.token.toList template.toList) :
    render template v options = render template w options := by
  let back := Placeholder.attributes.drop 4 ++ Placeholder.snippets
  have hall : Placeholder.all = [.arch, .authType] ++ [.logColor, .colorCode] ++ back := rfl
  have habsent : ∀ p ∈ [Placeholder.logColor, .colorCode],
      ¬ Occurs p.token.toList template.toList := by
    simpa using ⟨hlog, hcode⟩
  have hsame : ∀ p ∈ [Placeholder.arch, .authType] ++ back,
      p.value v options = p.value w options := fun p hp => by
    refine value_eq_of_colors harch hauth ?_
    revert p
    decide
  apply String.toList_inj.mp
  rw [toList_render, toList_render, hall,
    passes_of_absent back (fun _ => inert_before_colors v) habsent,
    passes_of_absent back (fun _ => inert_before_colors w) habsent, passes_congr hsame]

theorem render_eq_of_version {template : String} {options options' : InstallOptions} {v : Variant}
    (hv : v ∈ Variant.matrix) (haddon : options.addon = options'.addon)
    (h : options.addon = false ∨
      ¬ Occurs Placeholder.installMethod.token.toList template.toList) :
    render template v options = render template v options' := by
  apply String.toList_inj.mp
  rw [toList_render, toList_render]
  rcases h with hwithout | habsent
  · exact passes_congr (fun p _ => value_eq_of_version haddon (.inl hwithout)) _
  · let front := Placeholder.attributes ++ [.authSetup]
    let back := Placeholder.snippets.drop 2
    have hall : Placeholder.all = front ++ [.installMethod] ++ back := rfl
    have habsent' : ∀ p ∈ [Placeholder.installMethod],
        ¬ Occurs p.token.toList template.toList := List.forall_mem_singleton.mpr habsent
    have hsame : ∀ p ∈ front ++ back, p.value v options = p.value v options' := fun p hp => by
      refine value_eq_of_version haddon (.inr ?_)
      revert p
      decide
    rw [hall, passes_of_absent back (fun _ => inert_before_installMethod hv) habsent',
      passes_of_absent back (fun _ => inert_before_installMethod hv) habsent', passes_congr hsame]

/-- A template that lacks the tokens of the colours is rendered without regard to them, for any
variant; and a variant of the matrix is rendered without regard to the addon version when there is
no addon, or when the template lacks the token of the installation. -/
theorem render_eq_of_absent (template : String) :
    (∀ (options : InstallOptions) (v w : Variant), v.arch = w.arch → v.auth = w.auth →
      ¬ Occurs Placeholder.logColor.token.toList template.toList →
      ¬ Occurs Placeholder.colorCode.token.toList template.toList →
      render template v options = render template w options) ∧
    (∀ v ∈ Variant.matrix, ∀ options options' : InstallOptions,
      options.addon = options'.addon →
      options.addon = false ∨ ¬ Occurs Placeholder.installMethod.token.toList template.toList →
      render template v options = render template v options') :=
  ⟨fun options _ _ harch hauth hlog hcode => render_eq_of_colors options harch hauth hlog hcode,
    fun _ hv _ _ haddon h => render_eq_of_version hv haddon h⟩

/-- The pieces of a colour's token around another token, which its value keeps apart. -/
theorem render_eq_of_absent_of_split_token :
    let template := "{{LOG_{{ARCH}}COLOR}}"
    ¬ Occurs Placeholder.logColor.token.toList template.toList ∧
      ¬ Occurs Placeholder.colorCode.token.toList template.toList ∧
      ¬ Occurs Placeholder.installMethod.token.toList template.toList ∧
      render template ⟨.x64, .irsa, "CYAN", "36"⟩ {} =
        render template ⟨.x64, .irsa, "{{ARCH}}", ""⟩ {} ∧
      render template ⟨.x64, .irsa, "CYAN", "36"⟩ ⟨true, some "v2"⟩ =
        render template ⟨.x64, .irsa, "CYAN", "36"⟩ ⟨true, none⟩ := by
  intro template
  have hlog : ¬ Occurs Placeholder.logColor.token.toList template.toList := by decide +kernel
  have hcode : ¬ Occurs Placeholder.colorCode.token.toList template.toList := by decide +kernel
  have hinstall : ¬ Occurs Placeholder.installMethod.token.toList template.toList := by
    decide +kernel
  obtain ⟨hcolors, hversions⟩ := render_eq_of_absent template
  exact ⟨hlog, hcode, hinstall, hcolors {} _ _ rfl rfl hlog hcode,
    hversions _ (by decide) _ _ rfl (.inr hinstall)⟩

end MountMatrix.Template
