import Mathlib.Data.List.Nodup
import MountMatrix.File.Generation
import MountMatrix.Proofs.FirstFailure
import MountMatrix.Proofs.PathReach

/-! # A run of the generation

Whether each file can be generated is settled by the tree in which the run begins: what is written
on the way has the names of generated files, takes the place of no directory, and lies where the
templates' names are not.

* `Generation.attempt`: where one file goes and what it holds, or why it cannot be generated.
* `Generation.Underway`: the trees on the way, in which every attempt ends as in the first.
* `foretold_of_possible`, `foretold_of_failure`: the run, in terms of the first tree alone.
* `node?_writtenAll_of_mem`, `node?_writtenAll_of_ne`: what the last tree holds.
* `generateFixtures_run`: when a run succeeds, and what it leaves behind.
-/

set_option autoImplicit false

namespace MountMatrix

/-! ## One file -/

/-- The kind and the variant of every file, in the order in which they are generated. -/
def Fixture.productions : List (Variant × Fixture) :=
  Variant.matrix.flatMap fun v => Fixture.all.map fun f => (v, f)

theorem Fixture.mem_productions {v : Variant} {f : Fixture} :
    (v, f) ∈ productions ↔ v ∈ Variant.matrix ∧ f ∈ Fixture.all := by
  simp [productions]

/-- What a generation is given. -/
structure Generation where
  templateDir : String
  outputDir : String
  options : InstallOptions

namespace Generation

variable (g : Generation)

def file (v : Variant) (f : Fixture) : Dialogue FileAccess GenerationError String :=
  generateFixture g.templateDir g.outputDir g.options v f

def filesOf (v : Variant) : Dialogue FileAccess GenerationError (List String) :=
  .note (.generating v) (.traverse Fixture.all (g.file v))

theorem generateFixtures_eq :
    generateFixtures g.templateDir g.outputDir g.options =
      (Dialogue.traverse Variant.matrix g.filesOf).bind fun paths => .succeed paths.flatten := rfl

def templatePath (f : Fixture) : String :=
  Path.join g.templateDir f.template

def outputPath (v : Variant) (f : Fixture) : String :=
  Path.join g.outputDir (f.outputName v)

/-- The entry that a file is written to and its content, in a tree in which both can be found. -/
def attempt (tree : FileTree) (v : Variant) (f : Fixture) :
    Except GenerationError (Slot × ByteArray) := do
  let text ← (tree.read (g.templatePath f)).mapError (.read (g.templatePath f))
  let slot ← (tree.slotFor (g.outputPath v f)).mapError (.write (g.outputPath v f))
  return (slot, (Template.render text v g.options).toUTF8)

/-- The tree after an attempt. -/
def written (attempted : Except GenerationError (Slot × ByteArray)) (tree : FileTree) :
    FileTree :=
  match attempted with
  | .error _ => tree
  | .ok (slot, content) => tree.put slot.directory slot.name (.file content)

def notices (attempted : Except GenerationError (Slot × ByteArray)) (v : Variant) (f : Fixture) :
    List Notice :=
  match attempted with
  | .error _ => []
  | .ok _ => [.rendered (g.templatePath f) (g.outputPath v f), .generated (g.outputPath v f)]

variable {g} {initial tree : FileTree} {v : Variant} {f : Fixture} {slot : Slot}
  {content : ByteArray}

theorem run_file (tree : FileTree) (v : Variant) (f : Fixture) :
    (g.file v f).run FileTree.serve tree =
      ⟨(g.attempt tree v f).map fun _ => g.outputPath v f, written (g.attempt tree v f) tree,
        g.notices (g.attempt tree v f) v f⟩ := by
  simp only [file, generateFixture, renderFile, Dialogue.bind, Dialogue.run_ask, FileTree.serve]
  rw [attempt, templatePath, outputPath]
  cases tree.read (Path.join g.templateDir f.template) with
  | error cause => rfl
  | ok text =>
    simp only [Dialogue.bind, Dialogue.run_ask, FileTree.serve, FileTree.write,
      FileTree.writeBytes]
    cases tree.slotFor (Path.join g.outputDir (f.outputName v)) with
    | error cause => rfl
    | ok slot => rfl

theorem attempt_eq_ok_iff :
    g.attempt tree v f = .ok (slot, content) ↔
      (∃ text, tree.HasText (g.templatePath f) text ∧
        content = (Template.render text v g.options).toUTF8) ∧
      tree.Reaches (g.outputPath v f) slot ∧ tree.node? slot.place ≠ some .directory := by
  simp only [← FileTree.slotFor_eq_ok_iff, ← FileTree.read_eq_ok_iff]
  rw [attempt]
  cases tree.read (g.templatePath f) with
  | error cause => simp [Except.mapError, bind, Except.bind]
  | ok text =>
    cases tree.slotFor (g.outputPath v f) with
    | error cause => simp [Except.mapError, bind, Except.bind]
    | ok found => simp [Except.mapError, bind, Except.bind, pure, Except.pure, and_comm, eq_comm]

/-! ## The names -/

theorem template_not_mem (hf : f ∈ Fixture.all) : f.template ∉ Fixture.generatedNames := by
  revert f
  decide

theorem simple_template (hf : f ∈ Fixture.all) : Path.Simple f.template := by
  revert f
  decide

theorem simple_outputName (h : (v, f) ∈ Fixture.productions) : Path.Simple (f.outputName v) := by
  have hall : ∀ job ∈ Fixture.productions, Path.Simple (job.2.outputName job.1) := by decide
  exact hall (v, f) h

theorem outputName_mem (h : (v, f) ∈ Fixture.productions) :
    f.outputName v ∈ Fixture.generatedNames := by
  have hall : ∀ job ∈ Fixture.productions,
      job.2.outputName job.1 ∈ Fixture.generatedNames := by decide
  exact hall (v, f) h

theorem name_of_attempt (hjob : (v, f) ∈ Fixture.productions)
    (h : g.attempt tree v f = .ok (slot, content)) : slot.name = f.outputName v :=
  ((attempt_eq_ok_iff.mp h).2.1.of_join (simple_outputName hjob)).1

/-! ## The trees on the way -/

variable (g)

/-- The trees that a generation may be at: the one that it begins with, or, once both directories
have been found, one with the same directories and the same entries but for generated names. -/
def Underway (initial tree : FileTree) : Prop :=
  tree = initial ∨
    (∃ source, initial.Leads [] (Path.segments g.templateDir) source) ∧
    (∃ target, initial.Leads [] (Path.segments g.outputDir) target) ∧
    initial.SameDirectories tree ∧
    ∀ slot : Slot, slot.name ∉ Fixture.generatedNames →
      tree.node? slot.place = initial.node? slot.place

variable {g}

theorem Underway.sameDirectories (h : g.Underway initial tree) : initial.SameDirectories tree := by
  rcases h with rfl | ⟨-, -, same, -⟩
  · exact fun _ => Iff.rfl
  · exact same

theorem Underway.template_unchanged (h : g.Underway initial tree)
    (hname : slot.name ∉ Fixture.generatedNames) :
    tree.node? slot.place = initial.node? slot.place := by
  rcases h with rfl | ⟨-, -, -, unchanged⟩
  · rfl
  · exact unchanged slot hname

theorem Underway.attempt_eq (h : g.Underway initial tree) (hjob : (v, f) ∈ Fixture.productions) :
    g.attempt tree v f = g.attempt initial v f := by
  rcases h with rfl | ⟨⟨source, hsource⟩, ⟨target, htarget⟩, same, unchanged⟩
  · rfl
  have hf := (Fixture.mem_productions.mp hjob).2
  have hread : initial.read (g.templatePath f) = tree.read (g.templatePath f) := by
    have hlocate := FileTree.locate_congr same (Path.segments_join (simple_template hf)) hsource
    refine FileTree.read_congr hlocate fun slot slash hslot => (unchanged slot ?_).symm
    rw [FileTree.name_of_locate_join (simple_template hf) hslot]
    exact template_not_mem hf
  have hslot : initial.slotFor (g.outputPath v f) = tree.slotFor (g.outputPath v f) :=
    FileTree.slotFor_congr same
      (FileTree.locate_congr same (Path.segments_join (simple_outputName hjob)) htarget)
  rw [attempt, attempt, hread, hslot]

/-- Where the first tree can be written, so can all trees on the way. -/
theorem Underway.writable (h : g.Underway initial tree)
    (hattempt : g.attempt initial v f = .ok (slot, content)) :
    tree.node? slot.directory = some .directory ∧ tree.node? slot.place ≠ some .directory := by
  obtain ⟨-, reached, free⟩ := attempt_eq_ok_iff.mp hattempt
  have same := h.sameDirectories
  exact ⟨(same _).mp reached.isDirectory, mt (same _).mpr free⟩

theorem Underway.node?_written (h : g.Underway initial tree)
    (hattempt : g.attempt initial v f = .ok (slot, content)) (place : Place) :
    (written (g.attempt initial v f) tree).node? place =
      if place = slot.place then some (.file content) else tree.node? place := by
  obtain ⟨isDirectory, free⟩ := h.writable hattempt
  rw [hattempt]
  exact FileTree.node?_put _ isDirectory free place

theorem Underway.step (h : g.Underway initial tree) (hjob : (v, f) ∈ Fixture.productions) :
    g.Underway initial (written (g.attempt initial v f) tree) := by
  rcases hattempt : g.attempt initial v f with error | ⟨slot, content⟩
  · exact h
  obtain ⟨isDirectory, free⟩ := h.writable hattempt
  obtain ⟨⟨text, ⟨source, hsource, -⟩, -⟩, reached, -⟩ := attempt_eq_ok_iff.mp hattempt
  obtain ⟨-, hsource⟩ := hsource.of_join (simple_template (Fixture.mem_productions.mp hjob).2)
  obtain ⟨hname, htarget⟩ := reached.of_join (simple_outputName hjob)
  refine .inr ⟨⟨_, hsource⟩, ⟨_, htarget⟩, fun place => ?_, fun other hother => ?_⟩
  · exact (h.sameDirectories place).trans
      (FileTree.sameDirectories_put content isDirectory free place).symm
  · have hnode := h.node?_written hattempt other.place
    rw [hattempt] at hnode
    rw [hnode, if_neg, h.template_unchanged hother]
    intro here
    rw [Slot.place_injective here, hname] at hother
    exact hother (outputName_mem hjob)

/-! ## The run -/

variable (g initial)

/-- The file can be generated, as far as the first tree tells. -/
def Possible (v : Variant) (f : Fixture) : Prop :=
  ∃ attempted, g.attempt initial v f = .ok attempted

/-- The tree after several attempts, all as the first tree has them. -/
def writtenAll (jobs : List (Variant × Fixture)) (tree : FileTree) : FileTree :=
  jobs.foldl (fun tree job => written (g.attempt initial job.1 job.2) tree) tree

def paths : List String :=
  Fixture.productions.map fun job => g.outputPath job.1 job.2

/-- The end that a part of the run comes to in all trees on the way. -/
def Foretold {α : Type} (d : Dialogue FileAccess GenerationError α)
    (result : Except GenerationError α) (effect : FileTree → FileTree) (log : List Notice) :
    Prop :=
  d.Predictable FileTree.serve (g.Underway initial) result effect log

theorem foretold_file (hjob : (v, f) ∈ Fixture.productions) :
    g.Foretold initial (g.file v f) ((g.attempt initial v f).map fun _ => g.outputPath v f)
      (written (g.attempt initial v f)) (g.notices (g.attempt initial v f) v f) where
  run_eq tree h := by rw [run_file, h.attempt_eq hjob]
  keeps tree h := h.step hjob

theorem paths_eq_flatten :
    g.paths = (Variant.matrix.map fun v => Fixture.all.map (g.outputPath v)).flatten := by
  rw [paths, Fixture.productions, List.map_flatMap, List.flatMap_def]
  simp only [List.map_map, Function.comp_def]

theorem writtenAll_flatMap (vs : List Variant) (fs : List Fixture) :
    g.writtenAll initial (vs.flatMap fun v => fs.map fun f => (v, f)) = fun tree =>
      vs.foldl (fun tree v => g.writtenAll initial (fs.map fun f => (v, f)) tree) tree :=
  funext fun _ => List.foldl_flatMap

theorem writtenAll_append (first second : List (Variant × Fixture)) :
    g.writtenAll initial (first ++ second) = fun tree =>
      g.writtenAll initial second (g.writtenAll initial first tree) :=
  funext fun _ => List.foldl_append

theorem writtenAll_map (fs : List Fixture) (v : Variant) :
    g.writtenAll initial (fs.map fun f => (v, f)) = fun tree =>
      fs.foldl (fun tree f => written (g.attempt initial v f) tree) tree :=
  funext fun _ => List.foldl_map

variable {g initial}

theorem foretold_file_of_possible (hjob : (v, f) ∈ Fixture.productions)
    (h : g.Possible initial v f) :
    g.Foretold initial (g.file v f) (.ok (g.outputPath v f)) (written (g.attempt initial v f))
      (g.notices (g.attempt initial v f) v f) := by
  obtain ⟨attempted, hattempt⟩ := h
  have hfile := foretold_file g initial hjob
  have hresult : (g.attempt initial v f).map (fun _ => g.outputPath v f) =
      .ok (g.outputPath v f) := by rw [hattempt]; rfl
  rwa [hresult] at hfile

theorem foretold_filesOf_of_possible (hv : v ∈ Variant.matrix)
    (h : ∀ f ∈ Fixture.all, g.Possible initial v f) :
    g.Foretold initial (g.filesOf v) (.ok (Fixture.all.map (g.outputPath v)))
      (g.writtenAll initial (Fixture.all.map fun f => (v, f)))
      (.generating v :: Fixture.all.flatMap fun f => g.notices (g.attempt initial v f) v f) := by
  have hfiles := Dialogue.Predictable.traverse_ok fun f hf =>
    foretold_file_of_possible (Fixture.mem_productions.mpr ⟨hv, hf⟩) (h f hf)
  rw [writtenAll_map]
  exact hfiles.note _

/-- If every attempt succeeds in the first tree, so does the run. -/
theorem foretold_of_possible
    (h : ∀ v ∈ Variant.matrix, ∀ f ∈ Fixture.all, g.Possible initial v f) :
    g.Foretold initial (generateFixtures g.templateDir g.outputDir g.options) (.ok g.paths)
      (g.writtenAll initial Fixture.productions)
      (Variant.matrix.flatMap fun v =>
        .generating v :: Fixture.all.flatMap fun f => g.notices (g.attempt initial v f) v f) := by
  have hall := Dialogue.Predictable.traverse_ok fun v hv =>
    foretold_filesOf_of_possible hv (h v hv)
  have hrun := hall.bind_ok (fun paths => .succeed paths.flatten) (.finished _)
  rw [List.append_nil, Function.id_comp, ← paths_eq_flatten] at hrun
  rw [generateFixtures_eq, Fixture.productions, writtenAll_flatMap]
  exact hrun

theorem foretold_file_of_failure (hjob : (v, f) ∈ Fixture.productions)
    {failure : GenerationError} (h : g.attempt initial v f = .error failure) :
    g.Foretold initial (g.file v f) (.error failure) id [] := by
  have hfile := foretold_file g initial hjob
  rwa [h] at hfile

theorem foretold_filesOf_of_failure {before after : List Fixture} {failure : GenerationError}
    (hv : v ∈ Variant.matrix) (hall : Fixture.all = before ++ f :: after)
    (hbefore : ∀ f ∈ before, g.Possible initial v f)
    (hfailure : g.attempt initial v f = .error failure) :
    g.Foretold initial (g.filesOf v) (.error failure)
      (g.writtenAll initial (before.map fun f => (v, f)))
      (.generating v :: before.flatMap fun f => g.notices (g.attempt initial v f) v f) := by
  have hmem : ∀ f' ∈ before ++ f :: after, (v, f') ∈ Fixture.productions :=
    fun f' hf' => Fixture.mem_productions.mpr ⟨hv, hall ▸ hf'⟩
  have hfiles := Dialogue.Predictable.traverse_error after
    (fun f' hf' => foretold_file_of_possible (hmem f' (by simp [hf'])) (hbefore f' hf'))
    (foretold_file_of_failure (hmem f (by simp)) hfailure)
  rw [List.append_nil] at hfiles
  rw [filesOf, hall, writtenAll_map]
  exact hfiles.note _

/-- The run ends at the first attempt that fails in the first tree. -/
theorem foretold_of_failure {vs vs' : List Variant} {fs fs' : List Fixture}
    {failure : GenerationError} (hmatrix : Variant.matrix = vs ++ v :: vs')
    (hall : Fixture.all = fs ++ f :: fs')
    (hvs : ∀ v ∈ vs, ∀ f ∈ Fixture.all, g.Possible initial v f)
    (hfs : ∀ f ∈ fs, g.Possible initial v f)
    (hfailure : g.attempt initial v f = .error failure) :
    g.Foretold initial (generateFixtures g.templateDir g.outputDir g.options) (.error failure)
      (g.writtenAll initial
        ((vs.flatMap fun v => Fixture.all.map fun f => (v, f)) ++ fs.map fun f => (v, f)))
      ((vs.flatMap fun v =>
        .generating v :: Fixture.all.flatMap fun f => g.notices (g.attempt initial v f) v f) ++
        .generating v :: fs.flatMap fun f => g.notices (g.attempt initial v f) v f) := by
  have hmem : ∀ v' ∈ vs ++ v :: vs', v' ∈ Variant.matrix := fun v' hv' => hmatrix ▸ hv'
  have hrun := (Dialogue.Predictable.traverse_error vs'
    (fun v' hv' => foretold_filesOf_of_possible (hmem v' (by simp [hv'])) (hvs v' hv'))
    (foretold_filesOf_of_failure (hmem v (by simp)) hall hfs hfailure)).bind_error
      fun paths => .succeed paths.flatten
  rw [generateFixtures_eq, hmatrix, writtenAll_append, writtenAll_flatMap]
  exact hrun

theorem exists_first_failure {α : Type} {P : α → Prop} {xs : List α} (h : ¬ ∀ x ∈ xs, P x) :
    ∃ before x after, xs = before ++ x :: after ∧ (∀ y ∈ before, P y) ∧ ¬ P x := by
  induction xs with
  | nil => simp at h
  | cons x xs ih =>
    by_cases hx : P x
    · obtain ⟨before, y, after, rfl, hbefore, hy⟩ := ih fun hxs => h (by simpa using ⟨hx, hxs⟩)
      exact ⟨x :: before, y, after, rfl, by simpa using ⟨hx, hbefore⟩, hy⟩
    · exact ⟨[], x, xs, rfl, by simp, hx⟩

theorem exists_failure_of_not_possible (h : ¬ g.Possible initial v f) :
    ∃ failure, g.attempt initial v f = .error failure := by
  rcases hattempt : g.attempt initial v f with failure | attempted
  · exact ⟨failure, rfl⟩
  · exact absurd ⟨attempted, hattempt⟩ h

theorem result_eq_ok_iff :
    (∃ paths, ((generateFixtures g.templateDir g.outputDir g.options).run FileTree.serve
      initial).result = .ok paths) ↔
      ∀ v ∈ Variant.matrix, ∀ f ∈ Fixture.all, g.Possible initial v f := by
  constructor
  · rintro ⟨paths, hok⟩
    refine Classical.byContradiction fun hnot => ?_
    obtain ⟨vs, v, vs', hmatrix, hvs, hv⟩ := exists_first_failure hnot
    obtain ⟨fs, f, fs', hall, hfs, hf⟩ := exists_first_failure hv
    obtain ⟨failure, hfailure⟩ := exists_failure_of_not_possible hf
    have hrun := (foretold_of_failure hmatrix hall hvs hfs hfailure).run_eq initial (.inl rfl)
    rw [hrun] at hok
    cases hok
  · intro h
    exact ⟨g.paths, congrArg Outcome.result ((foretold_of_possible h).run_eq initial (.inl rfl))⟩

/-! ## The tree at the end -/

theorem Underway.node?_writtenAll_of_ne {jobs : List (Variant × Fixture)}
    (hjobs : jobs ⊆ Fixture.productions) (h : g.Underway initial tree) (place : Place)
    (ne : ∀ job ∈ jobs, ∀ slot content,
      g.attempt initial job.1 job.2 = .ok (slot, content) → place ≠ slot.place) :
    (g.writtenAll initial jobs tree).node? place = tree.node? place := by
  induction jobs generalizing tree with
  | nil => rfl
  | cons job jobs ih =>
    obtain ⟨hhead, htail⟩ := List.cons_subset.mp hjobs
    obtain ⟨hne, hnes⟩ := List.forall_mem_cons.mp ne
    refine (ih htail (h.step hhead) hnes).trans ?_
    rcases hattempt : g.attempt initial job.1 job.2 with failure | ⟨slot, content⟩
    · rfl
    · rw [← hattempt, h.node?_written hattempt, if_neg (hne slot content hattempt)]

/-- No later file takes the place of an earlier one, since their names differ. -/
theorem Underway.node?_writtenAll_of_mem {jobs : List (Variant × Fixture)}
    (hjobs : jobs ⊆ Fixture.productions) (h : g.Underway initial tree)
    (nodup : (jobs.map fun job => job.2.outputName job.1).Nodup) (hjob : (v, f) ∈ jobs)
    (hattempt : g.attempt initial v f = .ok (slot, content)) :
    (g.writtenAll initial jobs tree).node? slot.place = some (.file content) := by
  induction jobs generalizing tree with
  | nil => cases hjob
  | cons job jobs ih =>
    obtain ⟨hhead, htail⟩ := List.cons_subset.mp hjobs
    obtain ⟨hnew, hnodup⟩ := List.nodup_cons.mp nodup
    rcases List.mem_cons.mp hjob with rfl | hlater
    · have hlast : ∀ other ∈ jobs, ∀ slot' content',
          g.attempt initial other.1 other.2 = .ok (slot', content') → slot.place ≠ slot'.place := by
        intro other hother slot' content' hattempt' here
        have hname : other.2.outputName other.1 = f.outputName v := by
          rw [← name_of_attempt (htail hother) hattempt', ← Slot.place_injective here,
            name_of_attempt hhead hattempt]
        exact hnew (List.mem_map.mpr ⟨other, hother, hname⟩)
      refine ((h.step hhead).node?_writtenAll_of_ne htail slot.place hlast).trans ?_
      rw [h.node?_written hattempt, if_pos rfl]
    · exact ih htail (h.step hhead) hnodup hlater

theorem nodup_outputNames :
    (Fixture.productions.map fun job => job.2.outputName job.1).Nodup := by
  decide

theorem nodup_paths : g.paths.Nodup := by
  have hpaths : g.paths =
      (Fixture.productions.map fun job => job.2.outputName job.1).map (Path.join g.outputDir) := by
    rw [List.map_map]
    rfl
  rw [hpaths]
  exact nodup_outputNames.map (Path.join_injective g.outputDir)

theorem Underway.writtenAll {jobs : List (Variant × Fixture)} (hjobs : jobs ⊆ Fixture.productions)
    (h : g.Underway initial tree) : g.Underway initial (g.writtenAll initial jobs tree) := by
  induction jobs generalizing tree with
  | nil => exact h
  | cons job jobs ih =>
    obtain ⟨hhead, htail⟩ := List.cons_subset.mp hjobs
    exact ih htail (h.step hhead)

theorem hasText_writtenAll {jobs : List (Variant × Fixture)} (hjobs : jobs ⊆ Fixture.productions)
    (nodup : (jobs.map fun job => job.2.outputName job.1).Nodup) (hjob : (v, f) ∈ jobs)
    (h : g.Possible initial v f) :
    ∃ text, initial.HasText (g.templatePath f) text ∧
      (g.writtenAll initial jobs initial).HasText (g.outputPath v f)
        (Template.render text v g.options) := by
  have hbegin : g.Underway initial initial := .inl rfl
  obtain ⟨⟨slot, content⟩, hattempt⟩ := h
  obtain ⟨⟨text, htext, hcontent⟩, reached, -⟩ := attempt_eq_ok_iff.mp hattempt
  refine ⟨text, htext, slot, reached.transfer (hbegin.writtenAll hjobs).sameDirectories, ?_⟩
  rw [hbegin.node?_writtenAll_of_mem hjobs nodup hjob hattempt, hcontent]

theorem node?_writtenAll_of_not_reached {jobs : List (Variant × Fixture)}
    (hjobs : jobs ⊆ Fixture.productions) (place : Place)
    (ne : ∀ v f, (v, f) ∈ jobs → ∀ slot, initial.Reaches (g.outputPath v f) slot →
      place ≠ slot.place) :
    (g.writtenAll initial jobs initial).node? place = initial.node? place := by
  have hbegin : g.Underway initial initial := .inl rfl
  refine hbegin.node?_writtenAll_of_ne hjobs place fun job hjob slot content hattempt => ?_
  exact ne job.1 job.2 hjob slot (attempt_eq_ok_iff.mp hattempt).2.1

/-- The attempts made once more find every file as they would write it. -/
theorem Underway.writtenAll_twice (h : g.Underway initial tree)
    (hagain : g.Underway initial (g.writtenAll initial Fixture.productions tree)) :
    g.writtenAll initial Fixture.productions (g.writtenAll initial Fixture.productions tree) =
      g.writtenAll initial Fixture.productions tree := by
  have hself : Fixture.productions ⊆ Fixture.productions := List.Subset.refl _
  refine FileTree.ext fun place => ?_
  by_cases hplace : ∃ job ∈ Fixture.productions, ∃ slot content,
      g.attempt initial job.1 job.2 = .ok (slot, content) ∧ place = slot.place
  · obtain ⟨job, hjob, slot, content, hattempt, rfl⟩ := hplace
    rw [h.node?_writtenAll_of_mem hself nodup_outputNames hjob hattempt,
      hagain.node?_writtenAll_of_mem hself nodup_outputNames hjob hattempt]
  · exact hagain.node?_writtenAll_of_ne hself place fun job hjob slot content hattempt here =>
      hplace ⟨job, hjob, slot, content, hattempt, here⟩

theorem possible_iff :
    g.Possible initial v f ↔
      (∃ text, initial.HasText (g.templatePath f) text) ∧ initial.Writable (g.outputPath v f) := by
  constructor
  · rintro ⟨⟨slot, content⟩, hattempt⟩
    obtain ⟨⟨text, htext, -⟩, reached, free⟩ := attempt_eq_ok_iff.mp hattempt
    exact ⟨⟨text, htext⟩, slot, reached, free⟩
  · rintro ⟨⟨text, htext⟩, slot, reached, free⟩
    exact ⟨(slot, _), attempt_eq_ok_iff.mpr ⟨⟨text, htext, rfl⟩, reached, free⟩⟩

theorem possible_all_iff :
    (∀ v ∈ Variant.matrix, ∀ f ∈ Fixture.all, g.Possible initial v f) ↔
      (∀ f ∈ Fixture.all, ∃ text, initial.HasText (g.templatePath f) text) ∧
      ∀ v ∈ Variant.matrix, ∀ f ∈ Fixture.all, initial.Writable (g.outputPath v f) := by
  have hsome : ∃ v, v ∈ Variant.matrix := ⟨_, List.mem_cons_self⟩
  obtain ⟨v₀, hv₀⟩ := hsome
  constructor
  · intro h
    exact ⟨fun f hf => (possible_iff.mp (h v₀ hv₀ f hf)).1,
      fun v hv f hf => (possible_iff.mp (h v hv f hf)).2⟩
  · rintro ⟨htexts, hwritable⟩ v hv f hf
    exact possible_iff.mpr ⟨htexts f hf, hwritable v hv f hf⟩

end Generation

/-- A generation succeeds exactly if at its beginning every template can be read and every output
can be written. It then tells the outputs in order; each holds its template as it was at the
beginning, rendered for its variant; nothing else has changed; and the same generation once more
ends in the same way and changes nothing. -/
theorem generateFixtures_run (templateDir outputDir : String) (options : InstallOptions)
    (tree : FileTree) :
    let generate := generateFixtures templateDir outputDir options
    let outcome := generate.run FileTree.serve tree
    let template := fun f : Fixture => Path.join templateDir f.template
    let output := fun (v : Variant) (f : Fixture) => Path.join outputDir (f.outputName v)
    let paths := Variant.matrix.flatMap fun v => Fixture.all.map (output v)
    ((∃ returned, outcome.result = .ok returned) ↔
      (∀ f ∈ Fixture.all, ∃ text, tree.HasText (template f) text) ∧
      ∀ v ∈ Variant.matrix, ∀ f ∈ Fixture.all, tree.Writable (output v f)) ∧
    (paths.length = 12 ∧ paths.Nodup) ∧
    ∀ returned, outcome.result = .ok returned →
      returned = paths ∧
      (∀ v ∈ Variant.matrix, ∀ f ∈ Fixture.all, ∀ text, tree.HasText (template f) text →
        outcome.state.HasText (output v f) (Template.render text v options)) ∧
      (∀ f ∈ Fixture.all, ∀ text, tree.HasText (template f) text →
        outcome.state.HasText (template f) text) ∧
      (∀ place, (∀ v ∈ Variant.matrix, ∀ f ∈ Fixture.all, ∀ slot,
          tree.Reaches (output v f) slot → place ≠ slot.place) →
        outcome.state.node? place = tree.node? place) ∧
      (∀ place, outcome.state.node? place = some .directory ↔
        tree.node? place = some .directory) ∧
      generate.run FileTree.serve outcome.state = outcome := by
  intro generate outcome template output paths
  let g : Generation := ⟨templateDir, outputDir, options⟩
  refine ⟨(Generation.result_eq_ok_iff (g := g)).trans Generation.possible_all_iff,
    ⟨rfl, Generation.nodup_paths (g := g)⟩, fun returned hok => ?_⟩
  have hpossible := (Generation.result_eq_ok_iff (g := g)).mp ⟨returned, hok⟩
  have hforetold := Generation.foretold_of_possible hpossible
  have hrun : outcome = ⟨_, _, _⟩ := hforetold.run_eq tree (.inl rfl)
  have hbegin : g.Underway tree tree := .inl rfl
  have hend := hforetold.keeps tree hbegin
  have hself : Fixture.productions ⊆ Fixture.productions := List.Subset.refl _
  rw [hrun] at hok ⊢
  refine ⟨(Except.ok.inj hok).symm, fun v hv f hf text htext => ?_, fun f hf text htext => ?_,
    fun place hplace => ?_, fun place => (hend.sameDirectories place).symm, ?_⟩
  · have hjob := Fixture.mem_productions.mpr ⟨hv, hf⟩
    obtain ⟨⟨slot, content⟩, hattempt⟩ := hpossible v hv f hf
    obtain ⟨⟨text', htext', hcontent⟩, reached, -⟩ := Generation.attempt_eq_ok_iff.mp hattempt
    obtain rfl : text = text' := htext.unique htext'
    refine ⟨slot, reached.transfer hend.sameDirectories, ?_⟩
    rw [hbegin.node?_writtenAll_of_mem hself Generation.nodup_outputNames hjob hattempt, hcontent]
  · obtain ⟨slot, reached, hnode⟩ := htext
    have hname := (reached.of_join (Generation.simple_template hf)).1
    refine ⟨slot, reached.transfer hend.sameDirectories, ?_⟩
    rw [hend.template_unchanged (hname ▸ Generation.template_not_mem hf), hnode]
  · refine hbegin.node?_writtenAll_of_ne hself place fun job hjob slot content hattempt => ?_
    obtain ⟨hv, hf⟩ := Fixture.mem_productions.mp hjob
    exact hplace job.1 hv job.2 hf slot (Generation.attempt_eq_ok_iff.mp hattempt).2.1
  · have hagain := hforetold.run_eq _ hend
    rw [hbegin.writtenAll_twice hend] at hagain
    exact hagain

/-- A directory that holds the templates only, all of one text. -/
def templatesOnly (text : String) : FileTree :=
  Fixture.all.foldl (fun tree f => tree.put [] f.template (.file text.toUTF8)) .empty

/-- Templates and outputs share the directory, whose path is written as a dot. -/
theorem generateFixtures_run_of_shared_directory :
    let outcome := (generateFixtures "." "." {}).run FileTree.serve (templatesOnly "{{ARCH}}")
    ∃ returned, outcome.result = .ok returned ∧ returned.length = 12 ∧
      (∀ v ∈ Variant.matrix, ∀ f ∈ Fixture.all,
        outcome.state.HasText (Path.join "." (f.outputName v))
          (Template.render "{{ARCH}}" v {})) ∧
      (∀ f ∈ Fixture.all, outcome.state.HasText (Path.join "." f.template) "{{ARCH}}") ∧
      (generateFixtures "." "." {}).run FileTree.serve outcome.state = outcome := by
  intro outcome
  have reaches : ∀ name, Path.Acceptable (Path.join "." name) → Path.Simple name →
      name.utf8ByteSize ≤ Path.maxNameBytes →
      (templatesOnly "{{ARCH}}").Reaches (Path.join "." name) ⟨[], name⟩ := by
    intro name acceptable simple short
    exact ⟨acceptable, Path.endsInSlash_join simple,
      (FileTree.walk_join_iff simple).mpr ⟨rfl, .current (.here [])⟩, short⟩
  have templates : ∀ f ∈ Fixture.all,
      (templatesOnly "{{ARCH}}").HasText (Path.join "." f.template) "{{ARCH}}" := by
    intro f hf
    refine ⟨_, reaches f.template ⟨?_, ?_⟩ (Generation.simple_template hf) ?_, ?_⟩ <;>
      revert f <;> decide +kernel
  have outputs : ∀ v ∈ Variant.matrix, ∀ f ∈ Fixture.all,
      (templatesOnly "{{ARCH}}").Writable (Path.join "." (f.outputName v)) := by
    intro v hv f hf
    refine ⟨_, reaches (f.outputName v) ⟨?_, ?_⟩
      (Generation.simple_outputName (Fixture.mem_productions.mpr ⟨hv, hf⟩)) ?_, ?_⟩ <;>
      revert v f <;> decide +kernel
  obtain ⟨hok, ⟨hlength, -⟩, hrun⟩ := generateFixtures_run "." "." {} (templatesOnly "{{ARCH}}")
  obtain ⟨returned, hreturned⟩ := hok.mpr ⟨fun f hf => ⟨_, templates f hf⟩, outputs⟩
  obtain ⟨rfl, hfiles, hkept, -, -, hagain⟩ := hrun returned hreturned
  exact ⟨_, hreturned, hlength, fun v hv f hf => hfiles v hv f hf _ (templates f hf),
    fun f hf => hkept f hf _ (templates f hf), hagain⟩

end MountMatrix
