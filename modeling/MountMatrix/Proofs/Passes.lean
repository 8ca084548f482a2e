import MountMatrix.Template.Render
import MountMatrix.Proofs.TokenShape

/-! # Rendering as passes over characters

One pass replaces one token everywhere in a text. Rendering is a pass for each placeholder, and what
no token can enter or leave is a barrier that each pass respects.

* `pass`, `passes`: the replacements on lists of characters.
* `TokenFree`: no known token stands in a text.
* `Barrier`: no token that starts in front of a text reaches into it.
-/

set_option autoImplicit false

namespace MountMatrix.Template

open Text

variable (v : Variant) (options : InstallOptions)

def pass (p : Placeholder) (text : List Char) : List Char :=
  replaceFrom p.token.toList (p.value v options).toList 0 text

def passes (order : List Placeholder) (text : List Char) : List Char :=
  order.foldl (fun text p => pass v options p text) text

@[simp] theorem pass_nil (p : Placeholder) : pass v options p [] = [] := replaceFrom_nil _ _ 0

@[simp] theorem passes_nil (text : List Char) : passes v options [] text = text := rfl

@[simp] theorem passes_cons (p : Placeholder) (order : List Placeholder) (text : List Char) :
    passes v options (p :: order) text = passes v options order (pass v options p text) := rfl

@[simp] theorem passes_empty_text (order : List Placeholder) : passes v options order [] = [] := by
  induction order with
  | nil => rfl
  | cons p order ih => rw [passes_cons, pass_nil, ih]

theorem passes_append (first second : List Placeholder) (text : List Char) :
    passes v options (first ++ second) text =
      passes v options second (passes v options first text) := by
  unfold passes
  rw [List.foldl_append]

theorem toList_replaceEach (order : List Placeholder) (template : String) :
    (replaceEach order v options template).toList = passes v options order template.toList := by
  induction order generalizing template with
  | nil => rfl
  | cons p order ih =>
    have hstep := ih (replaceAll template p.token (p.value v options))
    have hpass : (replaceAll template p.token (p.value v options)).toList =
        pass v options p template.toList := by
      rw [replaceAll, String.toList_ofList]
      rfl
    rw [hpass] at hstep
    exact hstep

theorem toList_render (template : String) :
    (render template v options).toList = passes v options Placeholder.all template.toList :=
  toList_replaceEach v options Placeholder.all template

theorem pass_append (p : Placeholder) {a b : List Char} (h : Uncrossed p.token.toList a b) :
    pass v options p (a ++ b) = pass v options p a ++ pass v options p b :=
  replaceFrom_append (Placeholder.token_ne_nil p) h

theorem pass_append_of_absent (p : Placeholder) {a b : List Char}
    (h : ∀ x, x ≠ [] → x <:+ a → ¬ p.token.toList <+: x ++ b) :
    pass v options p (a ++ b) = a ++ pass v options p b :=
  replaceFrom_append_of_absent h

theorem pass_cons (p : Placeholder) {c : Char} {b : List Char}
    (h : ¬ p.token.toList <+: c :: b) :
    pass v options p (c :: b) = c :: pass v options p b :=
  replaceFrom_keep _ _ h

theorem pass_token_append (p : Placeholder) (b : List Char) :
    pass v options p (p.token.toList ++ b) =
      (p.value v options).toList ++ pass v options p b :=
  replaceFrom_old _ _ (Placeholder.token_ne_nil p) b

theorem pass_of_not_occurs (p : Placeholder) {text : List Char}
    (h : ¬ Occurs p.token.toList text) : pass v options p text = text :=
  replaceFrom_of_not_occurs h

theorem passes_of_not_occurs {order : List Placeholder} {text : List Char}
    (h : ∀ p ∈ order, ¬ Occurs p.token.toList text) : passes v options order text = text := by
  induction order with
  | nil => rfl
  | cons p order ih =>
    obtain ⟨hp, hrest⟩ := List.forall_mem_cons.mp h
    rw [passes_cons, pass_of_not_occurs v options p hp, ih hrest]

theorem passes_congr {v w : Variant} {options options' : InstallOptions}
    {order : List Placeholder} (h : ∀ p ∈ order, p.value v options = p.value w options')
    (text : List Char) : passes v options order text = passes w options' order text := by
  induction order generalizing text with
  | nil => rfl
  | cons p order ih =>
    obtain ⟨hp, hrest⟩ := List.forall_mem_cons.mp h
    rw [passes_cons, passes_cons, pass, pass, hp, ih hrest]

/-! ## Texts without tokens -/

def TokenFree (text : List Char) : Prop :=
  ∀ p : Placeholder, ¬ Occurs p.token.toList text

theorem tokenFree_nil : TokenFree [] := fun p h =>
  Placeholder.token_ne_nil p (List.eq_nil_of_infix_nil h)

theorem TokenFree.of_append {a b : List Char} (h : TokenFree (a ++ b)) : TokenFree b :=
  fun p hp => h p hp.append_left

theorem passes_of_tokenFree {text : List Char} (h : TokenFree text) (order : List Placeholder) :
    passes v options order text = text :=
  passes_of_not_occurs v options fun p _ => h p

/-! ## Barriers -/

def Barrier (w : List Char) : Prop :=
  ∀ (p : Placeholder) (x r : List Char), x ≠ [] → p.token.toList <+: x ++ (w ++ r) →
    p.token.toList <+: x

theorem barrier_of_opening {w : List Char} (hw : ['{', '{'] <+: w) : Barrier w :=
  fun _ _ r hx h =>
    Placeholder.starts_before_opening hx (hw.trans (List.prefix_append w r)) h

theorem barrier_token (q : Placeholder) : Barrier q.token.toList :=
  barrier_of_opening (Placeholder.opening_of_starts (List.prefix_refl _))

theorem Barrier.uncrossed {w : List Char} (hw : Barrier w) (p : Placeholder) (a r : List Char) :
    Uncrossed p.token.toList a (w ++ r) :=
  fun x hx _ h => hw p x r hx h

end MountMatrix.Template
