import MountMatrix.Template.Placeholder
import MountMatrix.Proofs.Replacement

/-! # The shape of the tokens

A token is two opening braces, a key without braces and two closing braces. So two tokens in a text
never overlap, however they are arranged.

* `token_unique`: a text starts with one token at most.
* `starts_before_opening`: a token that starts in front of two opening braces ends in front of them.
* `eq_token_of_starts`: a token that starts inside another one is that token.
-/

set_option autoImplicit false

namespace MountMatrix.Placeholder

open Text

variable {p q : Placeholder} {t x y : List Char}

theorem token_toList (p : Placeholder) :
    p.token.toList = '{' :: '{' :: (p.key.toList ++ ['}', '}']) := by
  simp [token]

theorem key_no_brace (p : Placeholder) : ∀ c ∈ p.key.toList, c ≠ '{' ∧ c ≠ '}' := by
  cases p <;> simp [key]

theorem key_ne_nil (p : Placeholder) : p.key.toList ≠ [] := by
  cases p <;> simp [key]

theorem key_injective : Function.Injective key := by
  intro p q h
  have hall : ∀ p ∈ all, all.find? (fun r => r.key == p.key) = some p := by decide
  have hp := hall p (mem_all p)
  have hq := hall q (mem_all q)
  rw [h, hq] at hp
  exact (Option.some.inj hp).symm

theorem token_ne_nil (p : Placeholder) : p.token.toList ≠ [] := by
  rw [token_toList]
  exact List.cons_ne_nil _ _

/-- The third character of a token belongs to its key. -/
theorem third_of_starts (h : p.token.toList <+: t) :
    ∃ c rest, t = '{' :: '{' :: c :: rest ∧ c ≠ '{' := by
  obtain ⟨c, k, hk⟩ := List.exists_cons_of_ne_nil (key_ne_nil p)
  obtain ⟨rest, rfl⟩ := h
  refine ⟨c, k ++ ['}', '}'] ++ rest, ?_, ?_⟩
  · rw [token_toList, hk]
    simp
  · exact (key_no_brace p c (by rw [hk]; exact List.mem_cons_self)).1

theorem opening_of_starts (h : p.token.toList <+: t) : ['{', '{'] <+: t := by
  obtain ⟨c, rest, rfl, -⟩ := third_of_starts h
  exact ⟨c :: rest, rfl⟩

/-- Behind its first character a token has no two opening braces, whatever follows it. -/
theorem not_opening_of_suffix_tail {r : List Char} (hy : y ≠ [])
    (hs : y <:+ p.token.toList.tail) : ¬ ['{', '{'] <+: y ++ r := by
  rintro ⟨rest, hrest⟩
  rw [token_toList, List.tail_cons] at hs
  obtain ⟨c, k, hk⟩ := List.exists_cons_of_ne_nil (key_ne_nil p)
  rcases List.suffix_cons_iff.mp hs with rfl | hs
  · have hc := (key_no_brace p c (by rw [hk]; exact List.mem_cons_self)).1
    rw [hk] at hrest
    simp at hrest
    exact hc hrest.1.symm
  · obtain ⟨c', y', rfl⟩ := List.exists_cons_of_ne_nil hy
    have hc' : c' = '{' := by
      simp at hrest
      exact hrest.1.symm
    have hmem : c' ∈ p.key.toList ++ ['}', '}'] := hs.subset List.mem_cons_self
    rcases List.mem_append.mp hmem with hmem | hmem
    · exact (key_no_brace p c' hmem).1 hc'
    · subst hc'
      simp at hmem

theorem suffix_tail_of_append (hx : x ≠ []) (h : p.token.toList = x ++ y) :
    y <:+ p.token.toList.tail := by
  obtain ⟨c, x, rfl⟩ := List.exists_cons_of_ne_nil hx
  exact ⟨x, by rw [h]; rfl⟩

/-- A token that starts in front of two opening braces is complete in front of them. -/
theorem starts_before_opening {z : List Char} (hx : x ≠ []) (hz : ['{', '{'] <+: z)
    (h : p.token.toList <+: x ++ z) : p.token.toList <+: x := by
  rcases starts_or_crosses h with hp | ⟨y, hy, htok, r, rfl⟩
  · exact hp
  · exact absurd hz (not_opening_of_suffix_tail hy (suffix_tail_of_append hx htok))

/-- The key of the token at the start of a text is what stands in front of the first closing
brace. -/
theorem key_of_starts (h : p.token.toList <+: t) :
    (t.drop 2).takeWhile (fun c => c != '}') = p.key.toList := by
  obtain ⟨r, rfl⟩ := h
  rw [token_toList]
  have hkey : ∀ c ∈ p.key.toList, (c != '}') = true := fun c hc => by
    simpa using (key_no_brace p c hc).2
  simp [List.takeWhile_append_of_pos hkey]

theorem token_unique (hp : p.token.toList <+: t) (hq : q.token.toList <+: t) : p = q := by
  have hkey := (key_of_starts hp).symm.trans (key_of_starts hq)
  exact key_injective (String.toList_inj.mp hkey)

/-- A token that starts inside another one, at its first character or behind it, is that token. -/
theorem eq_token_of_starts {r : List Char} (hx : x ≠ []) (hs : x <:+ q.token.toList)
    (h : p.token.toList <+: x ++ r) : x = q.token.toList ∧ p = q := by
  obtain ⟨front, hfront⟩ := hs
  by_cases hnil : front = []
  · subst hnil
    rw [List.nil_append] at hfront
    subst hfront
    exact ⟨rfl, token_unique h (List.prefix_append _ r)⟩
  · have htail := suffix_tail_of_append hnil hfront.symm
    exact absurd (opening_of_starts h) (not_opening_of_suffix_tail hx htail)

end MountMatrix.Placeholder
