import MountMatrix.Proofs.InertValue

/-! # The values of the matrix

Every value that a variant of the matrix gives to a placeholder is empty or inert, as long as the
addon version brings no brace along.

* `inert_value`: every value that is not empty is inert.
* `inert_value_of_podIdentity`: with pod identity and without the addon no value is empty.
-/

set_option autoImplicit false

namespace MountMatrix.Template

theorem noBrace_literal {l : List Char} (h : (l.all fun c => c != '{' && c != '}') = true) :
    NoBrace (String.ofList l).toList := by
  intro c hc
  rw [String.toList_ofList] at hc
  simpa using List.all_eq_true.mp h c hc

theorem noBrace_string_append {s t : String} :
    NoBrace (s ++ t).toList ↔ NoBrace s.toList ∧ NoBrace t.toList := by
  rw [String.toList_append]
  constructor
  · intro h
    exact ⟨fun c hc => h c (List.mem_append_left _ hc),
      fun c hc => h c (List.mem_append_right _ hc)⟩
  · rintro ⟨hs, ht⟩
    exact hs.append ht

theorem noBrace_block {lines : List String} (h : ∀ line ∈ lines, NoBrace line.toList) :
    NoBrace (Snippet.block lines).toList := by
  rw [toList_block]
  apply noBrace_intercalate
  · intro c hc
    rw [List.mem_singleton.mp hc]
    decide
  · intro line hline
    obtain ⟨s, hs, rfl⟩ := List.mem_map.mp hline
    exact h s hs

variable (v : Variant)

theorem noBrace_name : NoBrace v.name.toList := by
  unfold Variant.name
  simp only [noBrace_string_append]
  refine ⟨⟨?_, noBrace_literal (by decide)⟩, ?_⟩
  · cases v.arch <;> exact noBrace_literal (by decide)
  · cases v.auth <;> exact noBrace_literal (by decide)

theorem noBrace_variableSuffix : NoBrace v.variableSuffix.toList := by
  unfold Variant.variableSuffix
  simp only [noBrace_string_append]
  refine ⟨⟨?_, noBrace_literal (by decide)⟩, ?_⟩
  · cases v.arch <;> exact noBrace_literal (by decide)
  · cases v.auth <;> exact noBrace_literal (by decide)

theorem noBrace_serviceAccount : NoBrace v.serviceAccount.toList :=
  noBrace_string_append.mpr ⟨noBrace_literal (by decide), noBrace_name v⟩

theorem noBrace_kubeconfigVar : NoBrace v.kubeconfigVar.toList :=
  noBrace_string_append.mpr ⟨noBrace_literal (by decide), noBrace_variableSuffix v⟩

theorem noBrace_authSetup : NoBrace (Snippet.authSetup v).toList := by
  have hsa := noBrace_serviceAccount v
  unfold Snippet.authSetup
  split
  all_goals
    apply noBrace_block
    simp only [List.forall_mem_cons, noBrace_string_append, hsa, List.not_mem_nil, false_imp_iff,
      implies_true, and_true]
    and_intros
  all_goals exact noBrace_literal (by decide)

theorem noBrace_teardownCleanup : NoBrace (Snippet.teardownCleanup v).toList := by
  have hsa := noBrace_serviceAccount v
  unfold Snippet.teardownCleanup
  split
  · exact noBrace_literal (by decide)
  · apply noBrace_block
    simp only [List.forall_mem_cons, noBrace_string_append, hsa, List.not_mem_nil, false_imp_iff,
      implies_true, and_true]
    and_intros
    all_goals exact noBrace_literal (by decide)

theorem noBrace_podIdentityParam : NoBrace (Snippet.podIdentityParam v).toList := by
  unfold Snippet.podIdentityParam
  split <;> exact noBrace_literal (by decide)

/-- The addon version, if there is one, has no brace. -/
def VersionWithoutBrace (options : InstallOptions) : Prop :=
  ∀ version, options.addonVersion = some version → NoBrace version.toList

theorem noBrace_versionFlag {options : InstallOptions} (h : VersionWithoutBrace options) :
    NoBrace (Snippet.versionFlag options).toList := by
  unfold Snippet.versionFlag
  split
  · next version hversion =>
    exact noBrace_string_append.mpr ⟨noBrace_literal (by decide), h version hversion⟩
  · exact noBrace_literal (by decide)

theorem noBrace_installMethod {options : InstallOptions}
    (h : options.addon = true → VersionWithoutBrace options) :
    NoBrace (Snippet.installMethod v options).toList := by
  have hkube := noBrace_kubeconfigVar v
  unfold Snippet.installMethod
  split
  · next haddon =>
    have hflag := noBrace_versionFlag (h haddon)
    apply noBrace_block
    simp only [List.forall_mem_cons, noBrace_string_append, hflag, List.not_mem_nil, false_imp_iff,
      implies_true, and_true]
    and_intros
    all_goals exact noBrace_literal (by decide)
  · apply noBrace_block
    simp only [List.forall_mem_cons, noBrace_string_append, hkube, List.not_mem_nil, false_imp_iff,
      implies_true, and_true]
    and_intros
    all_goals exact noBrace_literal (by decide)

/-! ## The two blocks with braces -/

theorem block_starts (line : String) (rest : List String) :
    ∃ back, (Snippet.block (line :: rest)).toList = line.toList ++ back := by
  rw [toList_block, List.map_cons]
  cases rest with
  | nil => exact ⟨[], by rw [List.map_nil, List.intercalate_singleton, List.append_nil]⟩
  | cons second rest =>
    rw [List.map_cons, List.intercalate_cons_cons, List.append_assoc]
    exact ⟨_, rfl⟩

theorem block_ends (lines : List String) (line : String) :
    ∃ front, (Snippet.block (lines ++ [line])).toList = front ++ line.toList := by
  rw [toList_block, List.map_append]
  induction lines with
  | nil => exact ⟨[], by simp⟩
  | cons first lines ih =>
    obtain ⟨front, hfront⟩ := ih
    have hne : lines.map String.toList ++ [line].map String.toList ≠ [] := by simp
    rw [List.map_cons, List.cons_append, List.intercalate_cons_of_ne_nil hne, hfront,
      ← List.append_assoc]
    exact ⟨_, rfl⟩

theorem singleBraced_block {lines : List String}
    (h : ∀ line ∈ lines, SingleBraced line.toList) :
    SingleBraced (Snippet.block lines).toList := by
  rw [toList_block]
  apply singleBraced_intercalate
  · intro c hc
    rw [List.mem_singleton.mp hc]
    decide
  · exact List.cons_ne_nil _ _
  · intro line hline
    obtain ⟨s, hs, rfl⟩ := List.mem_map.mp hline
    exact h s hs

theorem singleBraced_literal {l : List Char}
    (h : l.IsChain fun a b => a = b → a ≠ '{' ∧ a ≠ '}') :
    SingleBraced (String.ofList l).toList := by
  rw [String.toList_ofList]
  exact h

theorem singleBraced_string_append {s t : String} (hs : NoBrace s.toList)
    (ht : SingleBraced t.toList) : SingleBraced (s ++ t).toList := by
  rw [String.toList_append]
  exact hs.append_singleBraced ht

theorem singleBraced_privrepoCheck (options : InstallOptions) :
    SingleBraced (Snippet.privrepoCheck options).toList := by
  unfold Snippet.privrepoCheck
  split
  · exact singleBraced_literal (by decide)
  · apply singleBraced_block
    simp only [List.forall_mem_cons, List.not_mem_nil, false_imp_iff, implies_true, and_true]
    and_intros
    all_goals exact singleBraced_literal (by decide)

theorem singleBraced_installProviderTest (options : InstallOptions) :
    SingleBraced (Snippet.installProviderTest v options).toList := by
  have hkube := noBrace_kubeconfigVar v
  unfold Snippet.installProviderTest
  split
  · exact singleBraced_literal (by decide)
  · apply singleBraced_block
    simp only [List.forall_mem_cons, List.not_mem_nil, false_imp_iff, implies_true, and_true]
    have hpod : SingleBraced "-o jsonpath=\"\x7b.items[0].metadata.name\x7d\")".toList :=
      singleBraced_literal (by decide)
    refine ⟨singleBraced_literal (by decide), singleBraced_literal (by decide),
      singleBraced_literal (by decide), NoBrace.singleBraced ?_, NoBrace.singleBraced ?_,
      singleBraced_literal (by decide), singleBraced_literal (by decide),
      singleBraced_string_append ?_ hpod, NoBrace.singleBraced ?_,
      singleBraced_literal (by decide), singleBraced_literal (by decide),
      singleBraced_literal (by decide), singleBraced_literal (by decide)⟩
    all_goals
      simp only [noBrace_string_append, hkube, and_true]
      and_intros
    all_goals exact noBrace_literal (by decide)

/-! ## Every value -/

theorem mem_block {c : Char} {line : String} {rest : List String} (h : c ∈ line.toList) :
    c ∈ (Snippet.block (line :: rest)).toList := by
  obtain ⟨back, hback⟩ := block_starts line rest
  rw [hback]
  exact List.mem_append_left back h

theorem inert_literal {c : Char} {l : List Char}
    (h : ((c :: l).all fun c => c != '{' && c != '}') = true) (hc : Foreign c) :
    Inert (String.ofList (c :: l)).toList := by
  refine inert_of_foreign (noBrace_literal h) hc ?_
  rw [String.toList_ofList]
  exact List.mem_cons_self

theorem inert_of_braced_block {first last : String} (middle : List String)
    (hw : SingleBraced (Snippet.block (first :: middle ++ [last])).toList) {c d : Char}
    {back : List Char} (hfirst : first.toList = c :: back) (front : List Char)
    (hlast : last.toList = front ++ [d]) (hc : Foreign c) (hd : d ≠ '{') :
    Inert (Snippet.block (first :: middle ++ [last])).toList where
  single := hw
  first := by
    obtain ⟨rest, hrest⟩ := block_starts first (middle ++ [last])
    rw [List.cons_append, hrest, hfirst]
    intro heq
    have hbrace : c = '}' := Option.some.inj heq
    exact hc (by rw [hbrace]; decide)
  last := by
    obtain ⟨rest, hrest⟩ := block_ends (first :: middle) last
    rw [hrest, hlast, ← List.append_assoc, List.getLast?_concat]
    exact fun heq => hd (Option.some.inj heq)
  apart := hc.not_infix (mem_block (by rw [hfirst]; exact List.mem_cons_self))

theorem inert_logColor (hv : v ∈ Variant.matrix) : Inert v.logColor.toList := by
  have hbrace : ∀ v ∈ Variant.matrix, NoBrace v.logColor.toList := by
    unfold Variant.matrix
    simp only [List.forall_mem_cons, List.not_mem_nil, false_imp_iff, implies_true, and_true]
    and_intros
    all_goals exact noBrace_literal (by decide)
  have happart : ∀ p ∈ Placeholder.all, ∀ v ∈ Variant.matrix,
      ¬ v.logColor.toList <:+: p.token.toList := by decide +kernel
  exact (hbrace v hv).inert fun p => happart p (Placeholder.mem_all p) v hv

theorem inert_colorCode (hv : v ∈ Variant.matrix) : Inert v.colorCode.toList := by
  revert v
  unfold Variant.matrix
  simp only [List.forall_mem_cons, List.not_mem_nil, false_imp_iff, implies_true, and_true]
  and_intros
  all_goals exact inert_literal (by decide) (by decide)

/-- Every key has fewer underscores than the name of an environment variable. -/
theorem inert_variable {stem : String} (hstem : NoBrace stem.toList)
    (hcount : 2 ≤ stem.toList.count '_') : Inert (stem ++ v.variableSuffix).toList := by
  have htoken : ∀ p ∈ Placeholder.all, p.token.toList.count '_' ≤ 2 := by decide
  have hsuffix : v.variableSuffix.toList.count '_' ≥ 1 := by
    unfold Variant.variableSuffix
    simp only [String.toList_append, List.count_append]
    have : "_".toList.count '_' = 1 := by simp
    omega
  refine (noBrace_string_append.mpr ⟨hstem, noBrace_variableSuffix v⟩).inert fun p hp => ?_
  have hle := hp.sublist.count_le '_'
  have htok := htoken p (Placeholder.mem_all p)
  rw [String.toList_append, List.count_append] at hle
  omega

theorem inert_authSetup : Inert (Snippet.authSetup v).toList := by
  have hmem : '\t' ∈ (Snippet.authSetup v).toList := by
    unfold Snippet.authSetup
    split <;> exact mem_block (by simp)
  exact inert_of_foreign (noBrace_authSetup v) (by decide) hmem

theorem inert_installMethod {options : InstallOptions}
    (h : options.addon = true → VersionWithoutBrace options) :
    Inert (Snippet.installMethod v options).toList := by
  have hmem : '\t' ∈ (Snippet.installMethod v options).toList := by
    unfold Snippet.installMethod
    split <;> exact mem_block (by simp)
  exact inert_of_foreign (noBrace_installMethod v h) (by decide) hmem

theorem inert_teardownCleanup (hauth : v.auth = .podIdentity) :
    Inert (Snippet.teardownCleanup v).toList := by
  have hmem : '\t' ∈ (Snippet.teardownCleanup v).toList := by
    unfold Snippet.teardownCleanup
    rw [hauth]
    exact mem_block (by simp)
  exact inert_of_foreign (noBrace_teardownCleanup v) (by decide) hmem

theorem inert_podIdentityParam (hauth : v.auth = .podIdentity) :
    Inert (Snippet.podIdentityParam v).toList := by
  have hmem : '\n' ∈ (Snippet.podIdentityParam v).toList := by
    unfold Snippet.podIdentityParam
    rw [hauth]
    simp
  exact inert_of_foreign (noBrace_podIdentityParam v) (by decide) hmem

theorem inert_privrepoCheck {options : InstallOptions} (haddon : options.addon = false) :
    Inert (Snippet.privrepoCheck options).toList := by
  have hw := singleBraced_privrepoCheck options
  unfold Snippet.privrepoCheck at hw ⊢
  rw [haddon] at hw ⊢
  exact inert_of_braced_block [_, _] hw String.toList_ofList ['f'] String.toList_ofList
    (by decide) (by decide)

theorem inert_installProviderTest {options : InstallOptions} (haddon : options.addon = false) :
    Inert (Snippet.installProviderTest v options).toList := by
  have hw := singleBraced_installProviderTest v options
  unfold Snippet.installProviderTest at hw ⊢
  rw [haddon] at hw ⊢
  exact inert_of_braced_block [_, _, _, _, _, _, _, _, _, _, _] hw String.toList_ofList []
    String.toList_ofList (by decide) (by decide)

variable {v} {options : InstallOptions}

/-- The placeholders that some suites do without. -/
def optional : List Placeholder :=
  [.teardownCleanup, .podIdentityParam, .privrepoCheck, .installProviderTest]

theorem inert_of_not_optional (hv : v ∈ Variant.matrix)
    (hversion : options.addon = true → VersionWithoutBrace options) {p : Placeholder}
    (hp : p ∉ optional) : Inert (p.value v options).toList := by
  cases p with
  | arch =>
    unfold Placeholder.value
    cases v.arch <;> exact inert_literal (by decide) (by decide)
  | authType =>
    unfold Placeholder.value
    cases v.auth <;> exact inert_literal (by decide) (by decide)
  | logColor => exact inert_logColor v hv
  | colorCode => exact inert_colorCode v hv
  | nodeTypeVar => exact inert_variable v (noBrace_literal (by decide)) (by simp)
  | defaultNodeType =>
    unfold Placeholder.value Variant.defaultNodeType
    cases v.arch <;> exact inert_literal (by decide) (by decide)
  | kubeconfigVar => exact inert_variable v (noBrace_literal (by decide)) (by simp)
  | authSetup => exact inert_authSetup v
  | installMethod => exact inert_installMethod v hversion
  | teardownCleanup | podIdentityParam | privrepoCheck | installProviderTest =>
    exact absurd (by decide) hp

theorem inert_value (hv : v ∈ Variant.matrix)
    (hversion : options.addon = true → VersionWithoutBrace options) (p : Placeholder)
    (hne : p.value v options ≠ "") : Inert (p.value v options).toList := by
  by_cases hp : p ∈ optional
  · simp only [optional, List.mem_cons, List.not_mem_nil, or_false] at hp
    rcases hp with rfl | rfl | rfl | rfl
    · cases hauth : v.auth with
      | irsa => exact absurd (by simp [Placeholder.value, Snippet.teardownCleanup, hauth]) hne
      | podIdentity => exact inert_teardownCleanup v hauth
    · cases hauth : v.auth with
      | irsa => exact absurd (by simp [Placeholder.value, Snippet.podIdentityParam, hauth]) hne
      | podIdentity => exact inert_podIdentityParam v hauth
    · cases haddon : options.addon with
      | true => exact absurd (by simp [Placeholder.value, Snippet.privrepoCheck, haddon]) hne
      | false => exact inert_privrepoCheck haddon
    · cases haddon : options.addon with
      | true =>
        exact absurd (by simp [Placeholder.value, Snippet.installProviderTest, haddon]) hne
      | false => exact inert_installProviderTest v haddon
  · exact inert_of_not_optional hv hversion hp

theorem inert_value_of_podIdentity (hv : v ∈ Variant.matrix) (hauth : v.auth = .podIdentity)
    (haddon : options.addon = false) (p : Placeholder) : Inert (p.value v options).toList := by
  by_cases hp : p ∈ optional
  · simp only [optional, List.mem_cons, List.not_mem_nil, or_false] at hp
    rcases hp with rfl | rfl | rfl | rfl
    · exact inert_teardownCleanup v hauth
    · exact inert_podIdentityParam v hauth
    · exact inert_privrepoCheck haddon
    · exact inert_installProviderTest v haddon
  · exact inert_of_not_optional hv (fun h => absurd h (by rw [haddon]; decide)) hp

end MountMatrix.Template
