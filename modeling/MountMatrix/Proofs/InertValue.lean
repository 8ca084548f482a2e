import Mathlib.Data.List.Chain
import MountMatrix.Proofs.Passes

/-! # Inert values

A value that is put into a text may, with the text around it, make up a new token. An inert value
never takes part in one: no brace stands beside its like in it, its ends do not complete a pair of
braces, and it is no piece of a token.

* `Inert.absent`: no token starts in an inert text.
* `Inert.barrier`: no token that starts in front of an inert text reaches into it.
* `inert_of_foreign`: a text without braces is inert when one of its characters is in no token.
-/

set_option autoImplicit false

namespace MountMatrix.Template

open Text

def SingleBraced (w : List Char) : Prop :=
  w.IsChain fun a b => a = b → a ≠ '{' ∧ a ≠ '}'

structure Inert (w : List Char) : Prop where
  single : SingleBraced w
  first : w.head? ≠ some '}'
  last : w.getLast? ≠ some '{'
  apart : ∀ p : Placeholder, ¬ w <:+: p.token.toList

theorem SingleBraced.no_pair {w front back : List Char} {c : Char} (h : SingleBraced w)
    (hw : w = front ++ c :: c :: back) : c ≠ '{' ∧ c ≠ '}' := by
  subst hw
  unfold SingleBraced at h
  rw [List.isChain_append] at h
  have hpair := h.2.1
  rw [List.isChain_cons_cons] at hpair
  exact hpair.1 rfl

section
variable {w : List Char} (h : Inert w)
include h

theorem Inert.absent {x : List Char} (hx : x ≠ []) (hs : x <:+ w) (p : Placeholder)
    (r : List Char) : ¬ p.token.toList <+: x ++ r := by
  intro hp
  obtain ⟨front, hfront⟩ := hs
  obtain ⟨rest, hrest⟩ := Placeholder.opening_of_starts hp
  obtain ⟨c, x, rfl⟩ := List.exists_cons_of_ne_nil hx
  simp only [List.cons_append, List.nil_append, List.cons.injEq] at hrest
  obtain ⟨rfl, hrest⟩ := hrest
  cases x with
  | nil =>
    apply h.last
    rw [← hfront, List.getLast?_append]
    rfl
  | cons d x =>
    rw [List.cons_append, List.cons.injEq] at hrest
    obtain ⟨rfl, -⟩ := hrest
    exact (h.single.no_pair hfront.symm).1 rfl

theorem Inert.ne_nil : w ≠ [] := fun hw =>
  h.apart .arch (by rw [hw]; exact List.nil_infix)

theorem Inert.not_occurs (p : Placeholder) : ¬ Occurs p.token.toList w := by
  intro hp
  rcases occurs_append_cases (by rwa [List.append_nil]) with ⟨x, hx, hs, hstart⟩ | hnil
  · exact h.absent hx hs p [] hstart
  · exact Placeholder.token_ne_nil p (List.eq_nil_of_infix_nil hnil)

/-- A token ends in a closing brace that stands alone or in two, and neither is found at the start
of an inert text. -/
theorem Inert.not_end_prefix {p : Placeholder} {x y : List Char} (hy : y ≠ [])
    (htok : p.token.toList = x ++ y) : ¬ y <+: w := by
  rintro ⟨rest, hrest⟩
  have hend : y <:+ ('{' :: '{' :: p.key.toList ++ ['}']) ++ ['}'] := by
    refine ⟨x, ?_⟩
    rw [← htok, Placeholder.token_toList]
    simp
  rcases List.suffix_concat_iff.mp hend with hnil | ⟨z, rfl, hend'⟩
  · exact hy hnil
  · rcases List.suffix_concat_iff.mp hend' with rfl | ⟨z', rfl, -⟩
    · apply h.first
      rw [← hrest]
      rfl
    · have hw : w = z' ++ '}' :: '}' :: rest := by
        rw [← hrest]
        simp
      exact (h.single.no_pair hw).2 rfl

theorem Inert.barrier : Barrier w := by
  intro p x r hx hp
  rcases starts_or_crosses hp with hstart | ⟨y, hy, htok, hyw⟩
  · exact hstart
  · rcases List.prefix_or_prefix_of_prefix hyw (List.prefix_append w r) with hin | hover
    · exact absurd hin (h.not_end_prefix hy htok)
    · obtain ⟨rest, rfl⟩ := hover
      exact absurd ⟨x, rest, by rw [htok, List.append_assoc]⟩ (h.apart p)

end

/-! ## Texts without braces -/

def NoBrace (w : List Char) : Prop :=
  ∀ c ∈ w, c ≠ '{' ∧ c ≠ '}'

theorem NoBrace.append {a b : List Char} (ha : NoBrace a) (hb : NoBrace b) : NoBrace (a ++ b) := by
  intro c hc
  rcases List.mem_append.mp hc with hc | hc
  · exact ha c hc
  · exact hb c hc

theorem NoBrace.singleBraced {w : List Char} (h : NoBrace w) : SingleBraced w := by
  unfold SingleBraced
  induction w with
  | nil => exact List.IsChain.nil
  | cons c w ih =>
    have hw : NoBrace w := fun d hd => h d (List.mem_cons_of_mem c hd)
    rw [List.isChain_cons]
    exact ⟨fun _ _ _ => h c List.mem_cons_self, ih hw⟩

theorem SingleBraced.append_noBrace {a b : List Char} (ha : SingleBraced a) (hb : NoBrace b) :
    SingleBraced (a ++ b) := by
  refine List.IsChain.append ha hb.singleBraced ?_
  intro x _ y hy hxy
  rw [hxy]
  exact hb y (List.mem_of_mem_head? hy)

theorem NoBrace.append_singleBraced {a b : List Char} (ha : NoBrace a) (hb : SingleBraced b) :
    SingleBraced (a ++ b) := by
  refine List.IsChain.append ha.singleBraced hb ?_
  intro x hx y _ _
  exact ha x (List.mem_of_mem_getLast? hx)

theorem token_chars (p : Placeholder) :
    ∀ c ∈ p.token.toList, c.isUpper = true ∨ c = '_' ∨ c = '{' ∨ c = '}' := by
  rw [Placeholder.token_toList]
  cases p <;> simp [Placeholder.key]

def Foreign (c : Char) : Prop :=
  ¬ (c.isUpper = true ∨ c = '_' ∨ c = '{' ∨ c = '}')

instance (c : Char) : Decidable (Foreign c) :=
  inferInstanceAs (Decidable (¬ _))

theorem Foreign.not_infix {c : Char} {w : List Char} (hc : Foreign c) (hw : c ∈ w)
    (p : Placeholder) : ¬ w <:+: p.token.toList :=
  fun h => hc (token_chars p c (h.subset hw))

theorem NoBrace.inert {w : List Char} (h : NoBrace w)
    (hw : ∀ p : Placeholder, ¬ w <:+: p.token.toList) : Inert w where
  single := h.singleBraced
  first := fun hc => (h '}' (List.mem_of_mem_head? hc)).2 rfl
  last := fun hc => (h '{' (List.mem_of_mem_getLast? hc)).1 rfl
  apart := hw

theorem inert_of_foreign {c : Char} {w : List Char} (h : NoBrace w) (hc : Foreign c) (hw : c ∈ w) :
    Inert w :=
  h.inert (hc.not_infix hw)

/-! ## Blocks of lines -/

theorem toList_block (lines : List String) :
    (Snippet.block lines).toList = ['\n'].intercalate (lines.map String.toList) := by
  rw [Snippet.block, String.toList_intercalate]
  rfl

theorem noBrace_intercalate {sep : List Char} (hsep : NoBrace sep) {lines : List (List Char)}
    (h : ∀ line ∈ lines, NoBrace line) : NoBrace (sep.intercalate lines) := by
  induction lines with
  | nil =>
    intro c hc
    simp at hc
  | cons first lines ih =>
    have hfirst := h first List.mem_cons_self
    have hlines := ih fun line hline => h line (List.mem_cons_of_mem first hline)
    cases lines with
    | nil =>
      rw [List.intercalate_singleton]
      exact hfirst
    | cons second rest =>
      rw [List.intercalate_cons_cons]
      exact (hfirst.append hsep).append hlines

theorem singleBraced_intercalate {sep : List Char} (hsep : NoBrace sep) (hne : sep ≠ [])
    {lines : List (List Char)} (h : ∀ line ∈ lines, SingleBraced line) :
    SingleBraced (sep.intercalate lines) := by
  induction lines with
  | nil => exact List.IsChain.nil
  | cons first lines ih =>
    have hfirst := h first List.mem_cons_self
    have hlines := ih fun line hline => h line (List.mem_cons_of_mem first hline)
    cases lines with
    | nil =>
      rw [List.intercalate_singleton]
      exact hfirst
    | cons second rest =>
      rw [List.intercalate_cons_cons]
      have hfront : SingleBraced (first ++ sep) := hfirst.append_noBrace hsep
      refine List.IsChain.append hfront hlines ?_
      intro x hx y _ _
      rw [List.getLast?_append_of_ne_nil _ hne] at hx
      exact hsep x (List.mem_of_mem_getLast? hx)

end MountMatrix.Template
