import MountMatrix.Proofs.GenerationRun

/-! # A generation that fails

A generation checks before each file whether the template can be read and then whether the output
can be written. It fails at the first check that does not hold in the tree in which it begins, and
has then written the files that come before that check.

* `Check`, `Check.all`: the twenty-four checks, in order.
* `Check.Holds`, `Check.Fails`: how a check turns out in a tree, and what its failure is.
* `Generation.exists_stop`: the file at which a generation fails.
* `generateFixtures_stopped`: the failure, and what is left behind.
-/

set_option autoImplicit false

namespace MountMatrix

/-! ## Checks -/

/-- What a file needs: first that its template can be read, then that it can be written. -/
inductive Check where
  | template (v : Variant) (f : Fixture)
  | output (v : Variant) (f : Fixture)
  deriving DecidableEq

namespace Check

def forFile (job : Variant × Fixture) : List Check :=
  [.template job.1 job.2, .output job.1 job.2]

def all : List Check :=
  Fixture.productions.flatMap forFile

def variant : Check → Variant
  | template v _ => v
  | output v _ => v

def fixture : Check → Fixture
  | template _ f => f
  | output _ f => f

def isOutput : Check → Bool
  | template _ _ => false
  | output _ _ => true

def Holds (g : Generation) (tree : FileTree) : Check → Prop
  | template _ f => ∃ text, tree.HasText (g.templatePath f) text
  | output v f => tree.Writable (g.outputPath v f)

/-- The check does not hold in the tree: there the access itself fails, whatever would be written,
and its failure is reported with the path. -/
inductive Fails (g : Generation) (tree : FileTree) : Check → GenerationError → Prop
  | template {v : Variant} {f : Fixture} {cause : IoError}
      (unreadable : tree.read (g.templatePath f) = .error cause) :
      Fails g tree (.template v f) (.read (g.templatePath f) cause)
  | output {v : Variant} {f : Fixture} {cause : IoError}
      (unwritable : ∀ text, tree.write (g.outputPath v f) text = .error cause) :
      Fails g tree (.output v f) (.write (g.outputPath v f) cause)

theorem output_mem_forFiles {v : Variant} {f : Fixture} {jobs : List (Variant × Fixture)} :
    output v f ∈ jobs.flatMap forFile ↔ (v, f) ∈ jobs := by
  simp [forFile]

theorem countP_isOutput_forFiles (jobs : List (Variant × Fixture)) :
    (jobs.flatMap forFile).countP isOutput = jobs.length := by
  induction jobs with
  | nil => rfl
  | cons job jobs ih =>
    have hone : (forFile job).countP isOutput = 1 := rfl
    rw [List.flatMap_cons, List.countP_append, ih, hone, List.length_cons, Nat.add_comm]

end Check

/-! ## The file at which a generation fails -/

namespace Generation

variable {g : Generation} {tree : FileTree} {v : Variant} {f : Fixture}
  {failure : GenerationError}

theorem holds_of_possible {jobs : List (Variant × Fixture)}
    (h : ∀ job ∈ jobs, g.Possible tree job.1 job.2) :
    ∀ check ∈ jobs.flatMap Check.forFile, check.Holds g tree := by
  intro check hcheck
  obtain ⟨job, hjob, hcheck⟩ := List.mem_flatMap.mp hcheck
  obtain ⟨readable, writable⟩ := possible_iff.mp (h job hjob)
  simp only [Check.forFile, List.mem_cons, List.not_mem_nil, or_false] at hcheck
  rcases hcheck with rfl | rfl
  · exact readable
  · exact writable

theorem fails_of_attempt (h : g.attempt tree v f = .error failure) :
    (Check.template v f).Fails g tree failure ∨
      (Check.template v f).Holds g tree ∧ (Check.output v f).Fails g tree failure := by
  rw [attempt] at h
  cases hread : tree.read (g.templatePath f) with
  | error cause =>
    rw [hread] at h
    obtain rfl := Except.error.inj h
    exact .inl (.template hread)
  | ok text =>
    cases hslot : tree.slotFor (g.outputPath v f) with
    | error cause =>
      rw [hread, hslot] at h
      obtain rfl := Except.error.inj h
      refine .inr ⟨⟨text, FileTree.read_eq_ok_iff.mp hread⟩, .output fun text => ?_⟩
      rw [FileTree.write, FileTree.writeBytes, hslot]
      rfl
    | ok slot =>
      rw [hread, hslot] at h
      cases h

/-- What is written before a file has other names than the file. -/
theorem fresh_outputName {jobs rest : List (Variant × Fixture)}
    (hsplit : Fixture.productions = jobs ++ (v, f) :: rest) :
    (jobs.map fun job => job.2.outputName job.1).Nodup ∧
      ∀ v' f', (v', f') ∈ jobs → f'.outputName v' ≠ f.outputName v := by
  have hnames := nodup_outputNames
  rw [hsplit, List.map_append, List.map_cons] at hnames
  obtain ⟨hnodup, -, hdistinct⟩ := List.nodup_append.mp hnames
  refine ⟨hnodup, fun v' f' hjob => hdistinct _ ?_ _ List.mem_cons_self⟩
  exact List.mem_map.mpr ⟨(v', f'), hjob, rfl⟩

/-- Where a file goes, nothing is written for the files before it. -/
theorem node?_writtenAll_of_later {jobs rest : List (Variant × Fixture)}
    (hsplit : Fixture.productions = jobs ++ (v, f) :: rest) {slot : Slot}
    (reached : tree.Reaches (g.outputPath v f) slot) :
    (g.writtenAll tree jobs tree).node? slot.place = tree.node? slot.place := by
  have hjobs : jobs ⊆ Fixture.productions := by
    rw [hsplit]
    exact List.subset_append_left _ _
  have hself : (v, f) ∈ Fixture.productions := by
    rw [hsplit]
    exact List.mem_append_right _ List.mem_cons_self
  refine node?_writtenAll_of_not_reached hjobs _ fun v' f' hjob slot' reached' here => ?_
  have hname := (reached.of_join (simple_outputName hself)).1
  have hname' := (reached'.of_join (simple_outputName (hjobs hjob))).1
  refine (fresh_outputName hsplit).2 v' f' hjob ?_
  rw [← hname, ← hname', Slot.place_injective here]

/-- The first check of a file that fails is the first of all if the files before can be generated;
the checks for writing among those that it follows are these files'. -/
theorem exists_failing_check {jobs rest : List (Variant × Fixture)}
    (hsplit : Fixture.productions = jobs ++ (v, f) :: rest)
    (hjobs : ∀ job ∈ jobs, g.Possible tree job.1 job.2)
    (hfailure : g.attempt tree v f = .error failure) :
    ∃ passed check later, Check.all = passed ++ check :: later ∧
      (∀ earlier ∈ passed, earlier.Holds g tree) ∧ check.Fails g tree failure ∧
      (check.variant = v ∧ check.fixture = f) ∧
      (∀ v' f', .output v' f' ∈ passed ↔ (v', f') ∈ jobs) ∧
      passed.countP Check.isOutput = jobs.length := by
  have hall : Check.all = jobs.flatMap Check.forFile ++
      .template v f :: .output v f :: rest.flatMap Check.forFile := by
    rw [Check.all, hsplit, List.flatMap_append, List.flatMap_cons]
    rfl
  rcases fails_of_attempt hfailure with hfails | ⟨hholds, hfails⟩
  · exact ⟨_, _, _, hall, holds_of_possible hjobs, hfails, ⟨rfl, rfl⟩,
      fun _ _ => Check.output_mem_forFiles, Check.countP_isOutput_forFiles jobs⟩
  · refine ⟨jobs.flatMap Check.forFile ++ [.template v f], .output v f,
      rest.flatMap Check.forFile, ?_, ?_, hfails, ⟨rfl, rfl⟩, fun v' f' => ?_, ?_⟩
    · rw [hall, List.append_assoc]
      rfl
    · intro earlier hearlier
      rcases List.mem_append.mp hearlier with hearlier | hearlier
      · exact holds_of_possible hjobs earlier hearlier
      · obtain rfl := List.mem_singleton.mp hearlier
        exact hholds
    · rw [← Check.output_mem_forFiles, List.mem_append, List.mem_singleton]
      exact or_iff_left nofun
    · rw [List.countP_append, Check.countP_isOutput_forFiles]
      rfl

/-- The files before a given one: all those of the variants before its own, and those of its own
variant that come before it. -/
def filesBefore (vs : List Variant) (v : Variant) (fs : List Fixture) : List (Variant × Fixture) :=
  (vs.flatMap fun v => Fixture.all.map fun f => (v, f)) ++ fs.map fun f => (v, f)

theorem exists_productions_split {vs vs' : List Variant} {fs fs' : List Fixture}
    (hmatrix : Variant.matrix = vs ++ v :: vs') (hall : Fixture.all = fs ++ f :: fs') :
    ∃ rest, Fixture.productions = filesBefore vs v fs ++ (v, f) :: rest := by
  have hfiles : (Fixture.all.map fun f => (v, f)) =
      (fs.map fun f => (v, f)) ++ (v, f) :: fs'.map fun f => (v, f) := by
    rw [hall, List.map_append, List.map_cons]
  refine ⟨(fs'.map fun f => (v, f)) ++ vs'.flatMap fun v => Fixture.all.map fun f => (v, f), ?_⟩
  rw [Fixture.productions, hmatrix, List.flatMap_append, List.flatMap_cons, hfiles, filesBefore]
  simp only [List.append_assoc, List.cons_append]

theorem possible_of_mem_filesBefore {vs : List Variant} {fs : List Fixture}
    (hvs : ∀ v ∈ vs, ∀ f ∈ Fixture.all, g.Possible tree v f) (hfs : ∀ f ∈ fs, g.Possible tree v f) :
    ∀ job ∈ filesBefore vs v fs, g.Possible tree job.1 job.2 := by
  intro job hjob
  rcases List.mem_append.mp hjob with hjob | hjob
  · obtain ⟨v, hv, hjob⟩ := List.mem_flatMap.mp hjob
    obtain ⟨f, hf, rfl⟩ := List.mem_map.mp hjob
    exact hvs v hv f hf
  · obtain ⟨f, hf, rfl⟩ := List.mem_map.mp hjob
    exact hfs f hf

theorem exists_stop (failed : ((generateFixtures g.templateDir g.outputDir g.options).run
      FileTree.serve tree).result = .error failure) :
    ∃ vs v vs' fs f fs', Variant.matrix = vs ++ v :: vs' ∧ Fixture.all = fs ++ f :: fs' ∧
      (∀ v ∈ vs, ∀ f ∈ Fixture.all, g.Possible tree v f) ∧ (∀ f ∈ fs, g.Possible tree v f) ∧
      g.attempt tree v f = .error failure := by
  have hnot : ¬ ∀ v ∈ Variant.matrix, ∀ f ∈ Fixture.all, g.Possible tree v f := by
    intro hpossible
    obtain ⟨paths, hok⟩ := result_eq_ok_iff.mpr hpossible
    rw [hok] at failed
    cases failed
  obtain ⟨vs, v, vs', hmatrix, hvs, hv⟩ := exists_first_failure hnot
  obtain ⟨fs, f, fs', hall, hfs, hf⟩ := exists_first_failure hv
  obtain ⟨failure', hfailure⟩ := exists_failure_of_not_possible hf
  have hrun := (foretold_of_failure hmatrix hall hvs hfs hfailure).run_eq tree (.inl rfl)
  rw [hrun] at failed
  obtain rfl := Except.error.inj failed
  exact ⟨vs, v, vs', fs, f, fs', hmatrix, hall, hvs, hfs, hfailure⟩

/-- Every variant reads the same templates, so one that cannot be read ends the first variant. -/
theorem eq_nil_of_unreadable {vs : List Variant} {cause : IoError}
    (hvs : ∀ v ∈ vs, ∀ f ∈ Fixture.all, g.Possible tree v f) (hf : f ∈ Fixture.all)
    (unreadable : tree.read (g.templatePath f) = .error cause) : vs = [] := by
  refine List.eq_nil_iff_forall_not_mem.mpr fun v hv => ?_
  obtain ⟨⟨text, htext⟩, -⟩ := possible_iff.mp (hvs v hv f hf)
  rw [FileTree.read_eq_ok_iff.mpr htext] at unreadable
  cases unreadable

end Generation

/-- A generation that fails does so at the first of its twenty-four checks that does not hold in the
tree in which it begins, with the failure of that check. The files that come before the check are
written in full, each with its template as it was at the beginning, and nothing else is touched, the
file of the check included. If a template is the cause, the first variant is the only one that has
got files, and these are two at most. -/
theorem generateFixtures_stopped (templateDir outputDir : String) (options : InstallOptions)
    (tree : FileTree) {failure : GenerationError}
    (failed : ((generateFixtures templateDir outputDir options).run FileTree.serve tree).result =
      .error failure) :
    let g : Generation := ⟨templateDir, outputDir, options⟩
    let last := ((generateFixtures templateDir outputDir options).run FileTree.serve tree).state
    Check.all.length = 24 ∧
    ∃ passed check rest, Check.all = passed ++ check :: rest ∧
      (∀ earlier ∈ passed, earlier.Holds g tree) ∧ check.Fails g tree failure ∧
      (∀ v f, .output v f ∈ passed → ∃ text, tree.HasText (g.templatePath f) text ∧
        last.HasText (g.outputPath v f) (Template.render text v options)) ∧
      (∀ place, (∀ v f, .output v f ∈ passed → ∀ slot,
          tree.Reaches (g.outputPath v f) slot → place ≠ slot.place) →
        last.node? place = tree.node? place) ∧
      (∀ slot, tree.Reaches (g.outputPath check.variant check.fixture) slot →
        last.node? slot.place = tree.node? slot.place) ∧
      ∀ path cause, failure = .read path cause →
        Variant.matrix.head? = some check.variant ∧ passed.countP Check.isOutput ≤ 2 := by
  intro g last
  obtain ⟨vs, v, vs', fs, f, fs', hmatrix, hall, hvs, hfs, hfailure⟩ :=
    Generation.exists_stop (g := g) failed
  let jobs := Generation.filesBefore vs v fs
  obtain ⟨rest, hsplit⟩ := Generation.exists_productions_split hmatrix hall
  have hjobs : jobs ⊆ Fixture.productions := by
    rw [hsplit]
    exact List.subset_append_left _ _
  have hpossible : ∀ job ∈ jobs, g.Possible tree job.1 job.2 :=
    Generation.possible_of_mem_filesBefore hvs hfs
  have hlast : last = g.writtenAll tree jobs tree :=
    congrArg Outcome.state
      ((Generation.foretold_of_failure hmatrix hall hvs hfs hfailure).run_eq tree (.inl rfl))
  obtain ⟨hnodup, -⟩ := Generation.fresh_outputName hsplit
  obtain ⟨passed, check, later, hchecks, hholds, hfails, ⟨rfl, rfl⟩, hpassed, hcount⟩ :=
    Generation.exists_failing_check hsplit hpossible hfailure
  refine ⟨rfl, passed, check, later, hchecks, hholds, hfails, ?_, ?_, ?_, ?_⟩
  · intro v f hwritten
    have hjob := (hpassed v f).mp hwritten
    rw [hlast]
    exact Generation.hasText_writtenAll hjobs hnodup hjob (hpossible (v, f) hjob)
  · intro place hplace
    rw [hlast]
    exact Generation.node?_writtenAll_of_not_reached hjobs place fun v f hjob =>
      hplace v f ((hpassed v f).mpr hjob)
  · intro slot reached
    rw [hlast]
    exact Generation.node?_writtenAll_of_later hsplit reached
  · rintro path cause rfl
    cases hfails with
    | @template v f cause unreadable =>
      have hf : f ∈ Fixture.all := by
        rw [hall]
        exact List.mem_append_right _ List.mem_cons_self
      obtain rfl := Generation.eq_nil_of_unreadable hvs hf unreadable
      have hlength : fs.length < Fixture.all.length := by
        rw [hall, List.length_append, List.length_cons]
        omega
      refine ⟨?_, ?_⟩
      · rw [hmatrix]
        rfl
      · rw [hcount, Generation.filesBefore, List.flatMap_nil, List.nil_append, List.length_map]
        exact Nat.le_of_lt_succ hlength

/-- A directory that holds the first two templates only. -/
def lacksLastTemplate : FileTree :=
  (Fixture.all.take 2).foldl
    (fun tree f => tree.put [] f.template (.file "{{ARCH}}".toUTF8)) .empty

theorem generateFixtures_stopped_of_missing_template :
    let outcome := (generateFixtures "." "." {}).run FileTree.serve lacksLastTemplate
    let failure := GenerationError.read "./BasicTestMount.yaml.template" .notFound
    outcome.result = .error failure ∧
    ∃ passed check rest, Check.all = passed ++ check :: rest ∧
      check.Fails ⟨".", ".", {}⟩ lacksLastTemplate failure ∧
      (∀ v f, .output v f ∈ passed → ∃ text,
        lacksLastTemplate.HasText (Path.join "." f.template) text ∧
        outcome.state.HasText (Path.join "." (f.outputName v)) (Template.render text v {})) ∧
      Variant.matrix.head? = some check.variant ∧ passed.countP Check.isOutput ≤ 2 := by
  intro outcome failure
  have failed : outcome.result = .error failure := by decide +kernel
  obtain ⟨-, passed, check, rest, hchecks, -, hfails, hwritten, -, -, hread⟩ :=
    generateFixtures_stopped "." "." {} lacksLastTemplate failed
  exact ⟨failed, passed, check, rest, hchecks, hfails, hwritten, hread _ _ rfl⟩

end MountMatrix
