import MountMatrix.Proofs.TornToken

/-! # Where rendered text comes from

Between two passes a text consists of characters of the template that are still there and of values
that took the place of a piece of the template. Each pass puts together whole parts only, so every
piece of the text is what the passes make of the piece of the template it comes from.

* `Item`, `nowOf`, `originOf`: a text in parts, and the template that it comes from.
* `Collapse`: what one pass does to the parts.
* `exists_items`: the parts of the text after the first `k` passes.
* `exists_torn_of_occurs`: a token in that text comes from a torn token in the template.
-/

set_option autoImplicit false

namespace MountMatrix.Template

open Text

inductive Item where
  | kept (c : Char)
  | gone (p : Placeholder) (origin : List Char)

def Item.origin : Item → List Char
  | .kept c => [c]
  | .gone _ origin => origin

def originOf (m : List Item) : List Char := m.flatMap Item.origin

section Texts
variable (v : Variant) (options : InstallOptions)

def Item.now : Item → List Char
  | .kept c => [c]
  | .gone p _ => (p.value v options).toList

def nowOf (m : List Item) : List Char := m.flatMap (Item.now v options)

@[simp] theorem nowOf_cons (i : Item) (m : List Item) :
    nowOf v options (i :: m) = i.now v options ++ nowOf v options m := rfl

@[simp] theorem nowOf_append (a b : List Item) :
    nowOf v options (a ++ b) = nowOf v options a ++ nowOf v options b :=
  List.flatMap_append

@[simp] theorem originOf_cons (i : Item) (m : List Item) :
    originOf (i :: m) = i.origin ++ originOf m := rfl

@[simp] theorem originOf_append (a b : List Item) : originOf (a ++ b) = originOf a ++ originOf b :=
  List.flatMap_append

/-- Every piece that is gone was the torn token of one of the first `k` placeholders, and whole when
it was due. -/
def Legit (k : Nat) (m : List Item) : Prop :=
  ∀ p origin, Item.gone p origin ∈ m → rank p < k ∧
    ∃ holes, Torn v options 0 holes p.token.toList origin ∧ ∀ g ∈ holes, rank g < rank p

end Texts

variable {v : Variant} {options : InstallOptions} {k : Nat} {m m' : List Item}
  {p q : Placeholder}

theorem Legit.of_subset (h : Legit v options k m) (hs : m' ⊆ m) : Legit v options k m' :=
  fun p origin hmem => h p origin (hs hmem)

/-! ## Tokens consist of whole parts -/

/-- The values are empty or inert. -/
def Harmless (v : Variant) (options : InstallOptions) : Prop :=
  ∀ p : Placeholder, p.value v options ≠ "" → Inert (p.value v options).toList

section Harmless
variable (hval : Harmless v options)
include hval

theorem Harmless.absent {x r : List Char} (hx : x ≠ []) (hs : x <:+ (q.value v options).toList) :
    ¬ p.token.toList <+: x ++ r := by
  have hne : q.value v options ≠ "" := by
    intro hnil
    rw [hnil] at hs
    exact hx (List.eq_nil_of_suffix_nil hs)
  exact (hval q hne).absent hx hs p r

/-- The rest of a token that has begun consists of whole parts, of which the values are empty. -/
theorem Harmless.exists_parts {x y : List Char} (hx : x ≠ []) (htok : p.token.toList = x ++ y)
    (hm : Legit v options k m) (hy : y <+: nowOf v options m) :
    ∃ seg rest holes, m = seg ++ rest ∧ nowOf v options seg = y ∧ (∀ g ∈ holes, rank g < k) ∧
      ∀ c, Torn v options 0 holes (c :: y) (c :: originOf seg) := by
  induction m generalizing x y with
  | nil =>
    have hnil : y = [] := List.eq_nil_of_prefix_nil hy
    subst hnil
    exact ⟨[], [], [], rfl, rfl, fun g hg => absurd hg List.not_mem_nil, Torn.last⟩
  | cons i m ih =>
    have hm' := hm.of_subset (List.subset_cons_self i m)
    cases y with
    | nil =>
      exact ⟨[], i :: m, [], rfl, rfl, fun g hg => absurd hg List.not_mem_nil, Torn.last⟩
    | cons d y =>
      cases i with
      | kept c =>
        have hc : d = c ∧ y <+: nowOf v options m := List.cons_prefix_cons.mp hy
        obtain ⟨rfl, hrest⟩ := hc
        have hx' : x ++ [d] ≠ [] := List.append_ne_nil_of_left_ne_nil hx [d]
        obtain ⟨seg, rest, holes, rfl, hseg, hrank, htorn⟩ :=
          ih hx' (by rw [htok, List.append_cons]) hm' hrest
        refine ⟨.kept d :: seg, rest, holes, rfl, ?_, hrank, ?_⟩
        · rw [nowOf_cons, hseg]
          rfl
        · exact fun c => Torn.next c (htorn d)
      | gone q origin =>
        by_cases hq : q.value v options = ""
        · have hnow : nowOf v options (.gone q origin :: m) = nowOf v options m := by
            rw [nowOf_cons, Item.now, hq]
            rfl
          rw [hnow] at hy
          obtain ⟨seg, rest, holes, rfl, hseg, hrank, htorn⟩ := ih hx htok hm' hy
          obtain ⟨hqk, inner, hinner, hbefore⟩ := hm q origin List.mem_cons_self
          refine ⟨.gone q origin :: seg, rest, q :: holes, rfl, ?_, ?_, ?_⟩
          · rw [nowOf_cons, hseg, Item.now, hq]
            rfl
          · exact List.forall_mem_cons.mpr ⟨hqk, hrank⟩
          · exact fun c => Torn.hole hq (Nat.zero_le _) hbefore hinner (htorn c)
        · obtain ⟨r, hr⟩ := hy
          have hstart : p.token.toList <+: x ++ ((q.value v options).toList ++ nowOf v options m) :=
            ⟨r, by rw [htok, List.append_assoc, hr]; rfl⟩
          have hlen := ((hval q hq).barrier p x _ hx hstart).length_le
          rw [htok, List.length_append, List.length_cons] at hlen
          omega

/-- A token that starts at a character of the template consists of whole parts. -/
theorem Harmless.exists_parts_of_starts {c : Char} (hm : Legit v options k m)
    (h : p.token.toList <+: c :: nowOf v options m) :
    ∃ seg rest holes, m = seg ++ rest ∧
      nowOf v options (.kept c :: seg) = p.token.toList ∧
      Torn v options 0 holes p.token.toList (originOf (.kept c :: seg)) ∧
      ∀ g ∈ holes, rank g < k := by
  obtain ⟨d, y, htok⟩ := List.exists_cons_of_ne_nil (Placeholder.token_ne_nil p)
  rw [htok] at h ⊢
  obtain ⟨rfl, hy⟩ := List.cons_prefix_cons.mp h
  obtain ⟨seg, rest, holes, hm', hseg, hrank, htorn⟩ :=
    hval.exists_parts (x := [d]) (List.cons_ne_nil d []) htok hm hy
  refine ⟨seg, rest, holes, hm', ?_, htorn d, hrank⟩
  rw [nowOf_cons, hseg]
  rfl

theorem Harmless.exists_torn_of_occurs (hm : Legit v options k m)
    (h : Occurs p.token.toList (nowOf v options m)) :
    ∃ seg holes, seg <:+: m ∧ nowOf v options seg = p.token.toList ∧
      Torn v options 0 holes p.token.toList (originOf seg) ∧ ∀ g ∈ holes, rank g < k := by
  induction m with
  | nil => exact absurd (List.eq_nil_of_infix_nil h) (Placeholder.token_ne_nil p)
  | cons i m ih =>
    have hm' := hm.of_subset (List.subset_cons_self i m)
    have later : Occurs p.token.toList (nowOf v options m) →
        ∃ seg holes, seg <:+: i :: m ∧ nowOf v options seg = p.token.toList ∧
          Torn v options 0 holes p.token.toList (originOf seg) ∧ ∀ g ∈ holes, rank g < k := by
      intro hlater
      obtain ⟨seg, holes, hseg, hrest⟩ := ih hm' hlater
      exact ⟨seg, holes, hseg.trans (List.suffix_cons i m).isInfix, hrest⟩
    rw [nowOf_cons] at h
    rcases occurs_append_cases h with ⟨x, hx, hs, hstart⟩ | hlater
    · cases i with
      | kept c =>
        have hxc : x = [c] := by
          rcases List.suffix_cons_iff.mp hs with rfl | hs
          · rfl
          · exact absurd (List.eq_nil_of_suffix_nil hs) hx
        rw [hxc] at hstart
        obtain ⟨seg, rest, holes, rfl, hnow, htorn, hrank⟩ := hval.exists_parts_of_starts hm' hstart
        exact ⟨.kept c :: seg, holes, ⟨[], rest, rfl⟩, hnow, htorn, hrank⟩
      | gone q origin => exact absurd hstart (hval.absent hx hs)
    · exact later hlater

end Harmless

/-! ## One pass over the parts -/

/-- One pass: parts that make up a token of `p` become one part, and no token of `p` starts in a
part that stays. -/
inductive Collapse (v : Variant) (options : InstallOptions) (p : Placeholder) :
    List Item → List Item → Prop where
  | nil : Collapse v options p [] []
  | keep (i : Item) {m m' : List Item} :
      (∀ x, x ≠ [] → x <:+ i.now v options → ¬ p.token.toList <+: x ++ nowOf v options m) →
      Collapse v options p m m' → Collapse v options p (i :: m) (i :: m')
  | take {seg m m' : List Item} : nowOf v options seg = p.token.toList →
      Collapse v options p m m' → Collapse v options p (seg ++ m) (.gone p (originOf seg) :: m')

theorem Collapse.originOf_eq (h : Collapse v options p m m') : originOf m' = originOf m := by
  induction h with
  | nil => rfl
  | keep i _ _ ih => rw [originOf_cons, originOf_cons, ih]
  | take _ _ ih =>
    rw [originOf_cons, originOf_append, ih]
    rfl

theorem Collapse.pass_eq (h : Collapse v options p m m') :
    pass v options p (nowOf v options m) = nowOf v options m' := by
  induction h with
  | nil => exact pass_nil v options p
  | keep i habsent _ ih =>
    rw [nowOf_cons, nowOf_cons, pass_append_of_absent v options p habsent, ih]
  | take htok _ ih =>
    rw [nowOf_append, nowOf_cons, htok, pass_token_append, ih]
    rfl

theorem Collapse.split {a' b' : List Item} (h : Collapse v options p m (a' ++ b')) :
    ∃ a b, m = a ++ b ∧ Collapse v options p a a' ∧ Collapse v options p b b' := by
  generalize hm' : a' ++ b' = m' at h
  induction h generalizing a' with
  | nil =>
    obtain ⟨rfl, rfl⟩ := List.append_eq_nil_iff.mp hm'
    exact ⟨[], [], rfl, Collapse.nil, Collapse.nil⟩
  | @keep i m m' habsent hc ih =>
    cases a' with
    | nil =>
      have hb : b' = i :: m' := hm'
      subst hb
      exact ⟨[], i :: m, rfl, Collapse.nil, Collapse.keep i habsent hc⟩
    | cons j a' =>
      obtain ⟨rfl, htail⟩ := List.cons.inj hm'
      obtain ⟨a, b, rfl, ha, hb⟩ := ih htail
      refine ⟨j :: a, b, rfl, Collapse.keep j ?_ ha, hb⟩
      intro x hx hs hstart
      apply habsent x hx hs
      rw [nowOf_append, ← List.append_assoc]
      exact hstart.trans (List.prefix_append _ _)
  | @take seg m m' htok hc ih =>
    cases a' with
    | nil =>
      have hb : b' = .gone p (originOf seg) :: m' := hm'
      subst hb
      exact ⟨[], seg ++ m, rfl, Collapse.nil, Collapse.take htok hc⟩
    | cons j a' =>
      obtain ⟨rfl, htail⟩ := List.cons.inj hm'
      obtain ⟨a, b, rfl, ha, hb⟩ := ih htail
      exact ⟨seg ++ a, b, (List.append_assoc seg a b).symm, Collapse.take htok ha, hb⟩

/-- A piece of the new parts comes from a piece of the old ones. -/
theorem Collapse.of_infix {seg' : List Item} (h : Collapse v options p m m') (hs : seg' <:+: m') :
    ∃ seg, seg <:+: m ∧ Collapse v options p seg seg' := by
  obtain ⟨front, back, rfl⟩ := hs
  obtain ⟨a, b, rfl, ha, -⟩ := h.split
  obtain ⟨a₁, a₂, rfl, -, hseg⟩ := ha.split
  exact ⟨a₂, ⟨a₁, b, rfl⟩, hseg⟩

theorem Harmless.exists_collapse (hval : Harmless v options) (hk : rank p = k)
    (hm : Legit v options k m) :
    ∃ m', Collapse v options p m m' ∧ Legit v options (k + 1) m' := by
  induction hn : m.length using Nat.strongRecOn generalizing m with
  | ind n ih =>
    subst hn
    cases m with
    | nil => exact ⟨[], Collapse.nil, fun _ _ hmem => absurd hmem List.not_mem_nil⟩
    | cons i m =>
      have hm' := hm.of_subset (List.subset_cons_self i m)
      by_cases htake : ∃ c, i = .kept c ∧ p.token.toList <+: c :: nowOf v options m
      · obtain ⟨c, rfl, hstart⟩ := htake
        obtain ⟨seg, rest, holes, rfl, hnow, htorn, hrank⟩ := hval.exists_parts_of_starts hm' hstart
        have hlen : rest.length < (Item.kept c :: (seg ++ rest)).length := by
          rw [List.length_cons, List.length_append]
          omega
        obtain ⟨m', hc, hlegit⟩ :=
          ih _ hlen (hm'.of_subset (List.subset_append_right seg rest)) rfl
        refine ⟨.gone p (originOf (.kept c :: seg)) :: m', Collapse.take hnow hc, ?_⟩
        intro q origin hmem
        rcases List.mem_cons.mp hmem with heq | hmem
        · obtain ⟨rfl, rfl⟩ := Item.gone.inj heq
          exact ⟨by omega, holes, htorn, fun g hg => by rw [hk]; exact hrank g hg⟩
        · exact hlegit q origin hmem
      · obtain ⟨m', hc, hlegit⟩ := ih _ (Nat.lt_succ_self _) hm' rfl
        refine ⟨i :: m', Collapse.keep i ?_ hc, ?_⟩
        · intro x hx hs hstart
          cases i with
          | kept c =>
            rcases List.suffix_cons_iff.mp hs with rfl | hs
            · exact htake ⟨c, rfl, hstart⟩
            · exact hx (List.eq_nil_of_suffix_nil hs)
          | gone q origin => exact hval.absent hx hs hstart
        · intro q origin hmem
          rcases List.mem_cons.mp hmem with rfl | hmem
          · obtain ⟨hlt, hrest⟩ := hm q origin List.mem_cons_self
            exact ⟨by omega, hrest⟩
          · exact hlegit q origin hmem

/-! ## All passes -/

theorem nowOf_kept (t : List Char) : nowOf v options (t.map Item.kept) = t := by
  induction t with
  | nil => rfl
  | cons c t ih =>
    rw [List.map_cons, nowOf_cons, ih]
    rfl

theorem originOf_kept (t : List Char) : originOf (t.map Item.kept) = t := by
  induction t with
  | nil => rfl
  | cons c t ih =>
    rw [List.map_cons, originOf_cons, ih]
    rfl

theorem Harmless.exists_items (hval : Harmless v options) (t : List Char)
    (hk : k ≤ Placeholder.all.length) :
    ∃ m, originOf m = t ∧ Legit v options k m ∧
      ∀ seg, seg <:+: m → stage v options k (originOf seg) = nowOf v options seg := by
  induction k with
  | zero =>
    refine ⟨t.map Item.kept, originOf_kept t, ?_, ?_⟩
    · intro p origin hmem
      simp at hmem
    · rintro seg ⟨front, back, hseg⟩
      obtain ⟨a, b, rfl, ha, rfl⟩ := List.map_eq_append_iff.mp hseg.symm
      obtain ⟨a₁, a₂, rfl, rfl, rfl⟩ := List.map_eq_append_iff.mp ha
      rw [stage_zero, originOf_kept, nowOf_kept]
  | succ k ih =>
    have hklt : k < Placeholder.all.length := by omega
    obtain ⟨m, horigin, hlegit, hstage⟩ := ih (by omega)
    obtain ⟨m', hc, hlegit'⟩ := hval.exists_collapse (rank_getElem hklt) hlegit
    refine ⟨m', by rw [hc.originOf_eq, horigin], hlegit', ?_⟩
    intro seg' hseg'
    obtain ⟨seg, hseg, hcseg⟩ := hc.of_infix hseg'
    rw [stage_succ v options hklt, hcseg.originOf_eq, hstage seg hseg, hcseg.pass_eq]

end MountMatrix.Template
