import MountMatrix.Proofs.ArgumentItems
import MountMatrix.Proofs.CloudSimulation
import MountMatrix.Proofs.WorldParts

/-! # The run without a command

The default command creates the secrets and then generates the files. It is compared with the runs
that do one of the two, each from the same world.

* `Execution.infoRecords`: what a run reports to the user on its way.
* `Cloud.manageMatrix_of_faultless`: the manager in a cloud that works.
* `Program.executeSettings_default`: the default run put together from the two others.
* `Program.execute_default`: the same for whole runs, from the arguments on.
-/

set_option autoImplicit false

namespace MountMatrix

def Execution.infoRecords (execution : Execution) : List String :=
  (execution.log.filter (·.level = .info)).map Notice.record

theorem Ending.exitCode_eq_one_iff {ending : Ending} :
    ending.exitCode = 1 ↔ ∃ failure, ending = .failed failure := by
  cases ending <;> simp [exitCode]

theorem Choices.settings_under (choices : Choices) (command : Command) (environment : Environment) :
    (choices.under command).settings environment =
      { choices.settings environment with command } := rfl

/-! ## A cloud that works -/

namespace Cloud

variable {clients : Regions} {cloud : Cloud}

theorem failure?_backend (reachable : cloud.reachable = true) (faultless : cloud.faults = [])
    {call : Call} (hcall : call.Within clients) :
    Exchange.failure? ⟨call, (backend clients call cloud).1⟩ = none := by
  have hfault : Fault.find? cloud.faults cloud.requests.length = none := by rw [faultless]; rfl
  rw [backend_of_within hcall, deliver_of_no_fault _ _ reachable hfault]
  cases call with
  | create key value =>
    simp only [carryOut, claim]
    split
    · exact Exchange.failure?_of_harmless rfl
    · rfl
  | delete key =>
    simp only [carryOut, release]
    split
    · rfl
    · exact Exchange.failure?_of_harmless rfl

theorem tolerates_of_faultless (reachable : cloud.reachable = true) (faultless : cloud.faults = [])
    {calls : List Call} (hcalls : ∀ call ∈ calls, call.Within clients) :
    (backend clients).Tolerates cloud calls := by
  induction calls generalizing cloud with
  | nil => exact fun _ hmem => absurd hmem List.not_mem_nil
  | cons call calls ih =>
    obtain ⟨hcall, hrest⟩ := List.forall_mem_cons.mp hcalls
    have hmirrors :=
      (simulates_confined clients cloud.faults (mirrors_self reachable) call trivial).2
    exact List.forall_mem_cons.mpr ⟨failure?_backend reachable faultless hcall,
      ih hmirrors.reachable (hmirrors.faults.trans faultless) hrest⟩

/-- Neither what the cloud holds already nor what it no longer holds stops the manager. -/
theorem manageMatrix_of_faultless (reachable : cloud.reachable = true)
    (faultless : cloud.faults = []) (regions : Regions) (action : Action) :
    ((Manager.manageMatrix regions action).run (backend regions) cloud).result = .ok () := by
  obtain ⟨made, hended, -⟩ := Manager.handles_manageMatrix regions action (backend regions) cloud []
  rw [(Dialogue.run_traced _ _ cloud []).1]
  exact hended.result_eq_ok_iff.mpr
    (tolerates_of_faultless reachable faultless fun _ => region_of_mem_forMatrix)

end Cloud

/-! ## Two runs and the default -/

namespace Program

variable (settings : Settings) (world : World)

/-- The generation does not depend on the cloud and leaves it as it is. -/
theorem run_generateFiles_beside (cloud : Cloud) :
    (generateFiles settings).run World.serve { world with cloud } =
      let alone := (generateFiles settings).run World.serve world
      ⟨alone.result, ⟨cloud, alone.state.files⟩, alone.log⟩ := by
  rw [run_generateFiles, run_generateFiles]
  obtain ⟨result, files, log⟩ :=
    (generateFixtures settings.templateDir settings.outputDir settings.options).run
      FileTree.serve world.files
  cases result <;> rfl

theorem executeSettings_createSecrets :
    executeSettings { settings with command := .createSecrets } world =
      let created := (manageSecrets settings .create).run World.serve world
      ⟨.ofResult (created.result.map fun _ => ""), created.log,
        ⟨created.state.cloud, world.files⟩⟩ := by
  have hsecrets : manageSecrets { settings with command := .createSecrets } .create =
      manageSecrets settings .create := rfl
  simp only [executeSettings, run, hsecrets, Dialogue.run_bind, run_manageSecrets]
  obtain ⟨result, cloud, log⟩ :=
    (Manager.manageMatrix settings.regions .create).run (Cloud.backend settings.regions) world.cloud
  cases result with
  | error failure => rfl
  | ok value => simp [Except.mapError, Except.map]

theorem executeSettings_default {first second : Execution}
    (hfirst : first = executeSettings { settings with command := .createSecrets } world)
    (hsecond : second = executeSettings { settings with command := .generateFiles } world) :
    executeSettings { settings with command := .default } world =
      match first.ending with
      | .failed _ => first
      | _ => ⟨second.ending, first.log ++ second.log, first.world.cloud, second.world.files⟩ := by
  have hsecrets : manageSecrets { settings with command := .default } .create =
      manageSecrets settings .create := rfl
  have hfiles : ∀ command, generateFiles { settings with command } = generateFiles settings :=
    fun _ => rfl
  rw [hfirst, hsecond, executeSettings_createSecrets]
  simp only [executeSettings, run, hsecrets, hfiles, Dialogue.run_bind, run_manageSecrets]
  obtain ⟨result, cloud, log⟩ :=
    (Manager.manageMatrix settings.regions .create).run (Cloud.backend settings.regions) world.cloud
  cases result with
  | error failure => rfl
  | ok value =>
    simp only [Except.mapError, run_generateFiles_beside]
    rfl

theorem execute_of_parse {arguments : List String} {choices : Choices}
    (h : Choices.parse arguments = some choices) (environment : Environment) (world : World) :
    execute arguments environment world =
      executeSettings (choices.settings environment) world := by
  rw [execute, h]

/-- Other arguments with the same options exist for each command. If the run that creates the
secrets fails, the default run fails as it does, and nothing else is done. If not, the default run
leaves the cloud as that run does, with the same requests, and reports what that run reports and
then what the run that generates the files reports; everything else is as in this run. -/
theorem execute_default (arguments : List String) (environment : Environment) (world : World)
    (choices : Choices) (accepted : Choices.parse arguments = some choices)
    (standard : choices.command.getD .default = .default) :
    (∀ command, ∃ others, Choices.parse others = some (choices.under command)) ∧
    ∀ secrets files, Choices.parse secrets = some (choices.under .createSecrets) →
      Choices.parse files = some (choices.under .generateFiles) →
      let whole := execute arguments environment world
      let first := execute secrets environment world
      let second := execute files environment world
      (first.ending.exitCode = 1 →
        whole.world.cloud = first.world.cloud ∧ whole.infoRecords = first.infoRecords ∧
          whole.ending.stderr = first.ending.stderr ∧ whole.ending.exitCode = 1 ∧
          whole.ending.stdout = "" ∧ whole.world.files = world.files) ∧
      (first.ending.exitCode ≠ 1 →
        whole.world.cloud = first.world.cloud ∧
          whole.infoRecords = first.infoRecords ++ second.infoRecords ∧
          whole.world.files = second.world.files ∧ whole.ending.stdout = second.ending.stdout ∧
          whole.ending.stderr = second.ending.stderr ∧
          whole.ending.exitCode = second.ending.exitCode) := by
  refine ⟨Choices.exists_parse_under accepted, ?_⟩
  intro secrets files hsecrets hfiles whole first second
  have hsettings : choices.settings environment =
      { choices.settings environment with command := .default } :=
    congrArg (fun command => { choices.settings environment with command }) standard
  have hwhole : whole =
      executeSettings { choices.settings environment with command := .default } world :=
    (execute_of_parse accepted environment world).trans
      (congrArg (executeSettings · world) hsettings)
  have hfirst : first =
      executeSettings { choices.settings environment with command := .createSecrets } world :=
    execute_of_parse hsecrets environment world
  have hsecond : second =
      executeSettings { choices.settings environment with command := .generateFiles } world :=
    execute_of_parse hfiles environment world
  rw [executeSettings_default _ world hfirst hsecond] at hwhole
  have huntouched : first.world.files = world.files := by
    rw [hfirst, executeSettings_createSecrets]
  refine ⟨fun hfailed => ?_, fun hpassed => ?_⟩
  · obtain ⟨failure, hending⟩ := Ending.exitCode_eq_one_iff.mp hfailed
    rw [hending] at hwhole
    have hsame : whole = first := hwhole
    rw [hsame]
    exact ⟨rfl, rfl, rfl, hfailed, by rw [hending]; rfl, huntouched⟩
  · have hjoined : whole =
        ⟨second.ending, first.log ++ second.log, first.world.cloud, second.world.files⟩ := by
      rw [hwhole]
      split
      · next failure hending => exact absurd (Ending.exitCode_eq_one_iff.mpr ⟨_, hending⟩) hpassed
      · rfl
    rw [hjoined]
    exact ⟨rfl, by simp [Execution.infoRecords], rfl, rfl, rfl, rfl⟩

/-- In an empty directory the default run creates everything and then misses the first template. -/
theorem execute_default_of_missing_templates :
    let world : World := ⟨{}, .empty⟩
    let whole := execute ["--addon"] {} world
    let first := execute ["--addon", "create-secrets"] {} world
    let second := execute ["generate-files", "--addon"] {} world
    first.ending = .succeeded "" ∧ whole.world.cloud = first.world.cloud ∧
      whole.infoRecords = first.infoRecords ++ second.infoRecords ∧
      whole.world.files = second.world.files ∧ whole.ending.exitCode = 1 ∧
      whole.ending.stderr =
        "Error: failed to read template ./integration.bats.template: " ++
          "No such file or directory (os error 2)\n\n" ++
          "Caused by:\n    No such file or directory (os error 2)" := by
  have hfirst : Choices.parse ["--addon", "create-secrets"] =
      some (Choices.under { addon := true } .createSecrets) := by decide +kernel
  have hsecond : Choices.parse ["generate-files", "--addon"] =
      some (Choices.under { addon := true } .generateFiles) := by decide +kernel
  have hcreated : (execute ["--addon", "create-secrets"] {} ⟨{}, .empty⟩).ending =
      .succeeded "" := by
    rw [execute_of_parse hfirst, Choices.settings_under, executeSettings_createSecrets,
      run_manageSecrets]
    simp only [@Cloud.manageMatrix_of_faultless {} rfl rfl]
    rfl
  have hexit : (execute ["generate-files", "--addon"] {} ⟨{}, .empty⟩).ending.exitCode = 1 := by
    decide +kernel
  obtain ⟨hcloud, hrecords, hfiles, -, hstderr, hsame⟩ :=
    ((execute_default ["--addon"] {} ⟨{}, .empty⟩ { addon := true } (by decide +kernel) rfl).2 _ _
      hfirst hsecond).2 (by rw [hcreated]; decide)
  exact ⟨hcreated, hcloud, hrecords, hfiles, hsame.trans hexit,
    hstderr.trans (by decide +kernel)⟩

end Program

end MountMatrix
