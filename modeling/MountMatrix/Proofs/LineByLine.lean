import MountMatrix.Proofs.Passes

/-! # Rendering line by line

A character that is in no token cuts a text where no token crosses the cut. Every pass then goes
over the two parts one by one and leaves the character where it is. A value may bring the character
in, or tokens of its own; both stay in the part in which the value was put.

* `Separates`: a character that is in no token.
* `passes_separated`: the passes on the two sides of such a character.
* `lines`: the lines of a template.
* `render_local`: rendering in parts, and line by line.
-/

set_option autoImplicit false

namespace MountMatrix

theorem Text.uncrossed_separator {old : List Char} {c : Char} (hc : c ∉ old) (a b : List Char) :
    Uncrossed old a (c :: b) := by
  intro x _ _ hstart
  rcases starts_or_crosses hstart with hfound | ⟨y, hy, hold, hreach⟩
  · exact hfound
  -- an occurrence that reached over the cut would hold the separator
  obtain ⟨d, y, rfl⟩ := List.exists_cons_of_ne_nil hy
  obtain ⟨rfl, -⟩ := List.cons_prefix_cons.mp hreach
  rw [hold] at hc
  exact absurd (List.mem_append_right x List.mem_cons_self) hc

namespace Template

open Text

def Separates (c : Char) : Prop :=
  ∀ p : Placeholder, c ∉ p.token.toList

theorem separates_newline : Separates '\n' := by
  intro p
  cases p <;> decide

/-! ## Parts -/

section Parts
variable (v : Variant) (options : InstallOptions) {c : Char}

theorem pass_separated (hc : Separates c) (p : Placeholder) (a b : List Char) :
    pass v options p (a ++ c :: b) = pass v options p a ++ c :: pass v options p b := by
  have habsent : ¬ p.token.toList <+: c :: b := by
    intro hstart
    obtain ⟨d, rest, htoken⟩ := List.exists_cons_of_ne_nil (Placeholder.token_ne_nil p)
    rw [htoken] at hstart
    obtain ⟨rfl, -⟩ := List.cons_prefix_cons.mp hstart
    exact hc p (by rw [htoken]; exact List.mem_cons_self)
  rw [pass_append v options p (uncrossed_separator (hc p) a b), pass_cons v options p habsent]

/-- What a pass puts into one part the later passes find in that part. -/
theorem passes_separated (hc : Separates c) (order : List Placeholder) (a b : List Char) :
    passes v options order (a ++ c :: b) =
      passes v options order a ++ c :: passes v options order b := by
  induction order generalizing a b with
  | nil => rfl
  | cons p order ih => rw [passes_cons, passes_cons, passes_cons, pass_separated v options hc, ih]

theorem render_separated (hc : Separates c) (a b : String) :
    render (a ++ String.singleton c ++ b) v options =
      render a v options ++ String.singleton c ++ render b v options := by
  apply String.toList_inj.mp
  have htemplate : (a ++ String.singleton c ++ b).toList = a.toList ++ c :: b.toList := by simp
  rw [toList_render, htemplate, passes_separated v options hc, ← toList_render, ← toList_render]
  simp

/-- Any number of parts with the separator between them. -/
theorem render_intercalate (hc : Separates c) (parts : List String) :
    render ((String.singleton c).intercalate parts) v options =
      (String.singleton c).intercalate (parts.map fun part => render part v options) := by
  induction parts with
  | nil =>
    apply String.toList_inj.mp
    rw [toList_render]
    exact passes_empty_text v options Placeholder.all
  | cons part parts ih =>
    cases parts with
    | nil => simp
    | cons next parts =>
      rw [String.intercalate_cons_of_ne_nil (List.cons_ne_nil next parts),
        render_separated v options hc, ih, List.map_cons, List.map_cons, List.map_cons,
        String.intercalate_cons_of_ne_nil (List.cons_ne_nil _ _)]

end Parts

/-! ## Lines -/

/-- The texts before, between and behind the newlines. -/
def lines (template : String) : List String :=
  (template.toList.splitOn '\n').map String.ofList

theorem not_mem_of_mem_splitOn {c : Char} {text part : List Char} (h : part ∈ text.splitOn c) :
    c ∉ part := by
  induction text generalizing part with
  | nil =>
    rw [List.splitOn_nil, List.mem_singleton] at h
    rw [h]
    exact List.not_mem_nil
  | cons d text ih =>
    rw [List.splitOn_cons_eq_if_modifyHead] at h
    split at h
    · rcases List.mem_cons.mp h with rfl | hpart
      · exact List.not_mem_nil
      · exact ih hpart
    next hd =>
      obtain ⟨first, parts, hparts⟩ := List.exists_cons_of_ne_nil (List.splitOn_ne_nil c text)
      rw [hparts] at h ih
      rcases List.mem_cons.mp h with rfl | hpart
      · have hcd : c ≠ d := fun heq => hd (by simp [heq])
        exact List.not_mem_cons_of_ne_of_not_mem hcd (ih List.mem_cons_self)
      · exact ih (List.mem_cons_of_mem first hpart)

theorem newline_not_mem_of_mem_lines {template line : String} (h : line ∈ lines template) :
    '\n' ∉ line.toList := by
  obtain ⟨part, hpart, rfl⟩ := List.mem_map.mp h
  rw [String.toList_ofList]
  exact not_mem_of_mem_splitOn hpart

theorem intercalate_lines (template : String) : "\n".intercalate (lines template) = template := by
  have hnewline : "\n".toList = ['\n'] := rfl
  have hlines : (lines template).map String.toList = template.toList.splitOn '\n' := by
    simp [lines, Function.comp_def]
  apply String.toList_inj.mp
  rw [String.toList_intercalate, hlines, hnewline, List.intercalate_splitOn]

/-- A template is rendered in parts wherever a character stands that is in no token. So its lines
can be rendered one by one, whatever the values are. -/
theorem render_local (v : Variant) (options : InstallOptions) :
    (∀ c : Char, (∀ p : Placeholder, c ∉ p.token.toList) → ∀ a b : String,
      render (a ++ String.singleton c ++ b) v options =
        render a v options ++ String.singleton c ++ render b v options) ∧
    ∀ template : String,
      (∀ line ∈ lines template, '\n' ∉ line.toList) ∧
        "\n".intercalate (lines template) = template ∧
        render template v options =
          "\n".intercalate ((lines template).map fun line => render line v options) := by
  refine ⟨fun c hc => render_separated v options hc, fun template => ?_⟩
  refine ⟨fun line => newline_not_mem_of_mem_lines, intercalate_lines template, ?_⟩
  have hrender : render ("\n".intercalate (lines template)) v options =
      "\n".intercalate ((lines template).map fun line => render line v options) :=
    render_intercalate v options separates_newline (lines template)
  rw [intercalate_lines] at hrender
  exact hrender

/-- The first line's value completes a token, whose value has two lines, and the second line has the
rest of a token that the first line begins. -/
theorem render_local_of_two_lines :
    let v : Variant := ⟨.x64, .irsa, "\x7b\x7bCOLOR_CODE", "one\ntwo"⟩
    let a := "\x7b\x7bLOG_COLOR\x7d\x7d\x7d\x7d \x7b\x7bAR"
    let b := "CH\x7d\x7d \x7b\x7bARCH\x7d\x7d"
    (∀ p : Placeholder, '\n' ∉ p.token.toList) ∧
      render (a ++ String.singleton '\n' ++ b) v {} =
        render a v {} ++ String.singleton '\n' ++ render b v {} ∧
      render a v {} = "one\ntwo \x7b\x7bAR" ∧ render b v {} = "CH\x7d\x7d x64" := by
  intro v a b
  obtain ⟨hparts, -⟩ := render_local v {}
  exact ⟨separates_newline, hparts '\n' separates_newline a b, by decide +kernel,
    by decide +kernel⟩

end Template

end MountMatrix
