import MountMatrix.Proofs.Confinement
import MountMatrix.Proofs.DefaultRun
import MountMatrix.Proofs.ValidationRun

/-! # What each command may do

Every command has a part of the world to work on. It sends only its own operations to the cloud, or
none, and of the files it touches only the generated ones, or none. This holds for all arguments, in
every world and wherever a failure ends the run.

* `Command.operations`: the operations that a command sends.
* `Cloud.exists_sent_manageMatrix`, `Cloud.exists_sent_validateUri`: what the parts send.
* `Program.world_of_default` and the laws after it: the world that each command leaves behind.
* `Program.exists_sent`, `Program.onlyWrites_outputs`, `Program.onlyRemoves_outputs`: its limits.
* `Program.stdout_eq_banner_iff`: when the usage is shown.
* `Program.execute_confined`: whole runs, from the arguments on.
-/

set_option autoImplicit false

namespace MountMatrix

def Action.operations : Action → List String
  | .create => ["CreateSecret", "PutParameter"]
  | .cleanup => ["DeleteSecret", "DeleteParameter"]

def Command.operations : Command → List String
  | .default => Action.create.operations
  | .createSecrets => Action.create.operations
  | .cleanupSecrets => Action.cleanup.operations
  | .generateFiles => []
  | .cleanupFiles => []
  | .validateImage => ["DescribeImages"]

/-! ## Requests -/

theorem Ended.made_prefix {σ : Type} {backend : Backend σ} {state : σ} {calls made : List Call}
    {result : Except CallFailure Unit} (h : Ended backend state calls made result) :
    made <+: calls := by
  cases h with
  | through => exact List.prefix_refl _
  | @stopped before rest call => exact ⟨rest, (List.append_cons before call rest).symm⟩

theorem Call.toRequest_of_mem_forMatrix {action : Action} {regions : Regions} {request : Request}
    (h : request ∈ (forMatrix action regions).map toRequest) :
    request.operation.name ∈ action.operations ∧ request.region ∈ regions.toList := by
  obtain ⟨call, hcall, rfl⟩ := List.mem_map.mp h
  obtain ⟨v, -, region, hregion, resource, -, rfl⟩ := mem_forMatrix_iff_ofAction.mp hcall
  obtain ⟨kind, base, value⟩ := resource
  cases action <;> cases kind <;>
    exact ⟨by simp [ofAction, ResourceKey.ofResource, toRequest, Operation.name,
      Action.operations], hregion⟩

namespace Cloud

variable {cloud : Cloud}

theorem backend_of_unreachable (unreachable : cloud.reachable = false) (clients : Regions)
    (call : Call) : (backend clients call cloud).2 = cloud := by
  by_cases hcall : call.Within clients
  · simp [backend_of_within hcall, deliver, unreachable]
  · rw [backend_of_not_within hcall]

/-- Calls send one request each or none, in their order. -/
theorem exists_sent_after (clients : Regions) (calls : List Call) (cloud : Cloud) :
    ∃ sent, sent.Sublist (calls.map Call.toRequest) ∧
      ((backend clients).after calls cloud).requests = cloud.requests ++ sent := by
  cases reachable : cloud.reachable with
  | true => exact ⟨_, List.filter_sublist.map _, requests_after reachable calls⟩
  | false =>
    have hsame : (backend clients).after calls cloud = cloud := by
      refine Backend.after_of_step (P := (· = cloud)) ?_ rfl
      rintro call - now rfl
      exact backend_of_unreachable reachable clients call
    exact ⟨[], List.nil_sublist _, by rw [hsame, List.append_nil]⟩

theorem exists_sent_manageMatrix (clients regions : Regions) (action : Action) (cloud : Cloud) :
    ∃ sent, sent.Sublist ((Call.forMatrix action regions).map Call.toRequest) ∧
      ((Manager.manageMatrix regions action).run (backend clients) cloud).state.requests =
        cloud.requests ++ sent := by
  obtain ⟨made, hended, hstate⟩ :=
    (Manager.handles_manageMatrix regions action).exists_made (backend clients) cloud
  obtain ⟨sent, hsent, hrequests⟩ := exists_sent_after clients made cloud
  refine ⟨sent, hsent.trans (hended.made_prefix.sublist.map _), ?_⟩
  rw [hstate, hrequests]

theorem describeImages_of_unreachable (unreachable : cloud.reachable = false)
    (region repository : String) (tag token : Option String) :
    cloud.describeImages region repository tag token = (.error unreachableError, cloud) := by
  simp [describeImages, deliver, unreachable]

theorem exists_sent_findImage (query : ImageQuery) (cloud : Cloud) :
    ∃ sent, (∀ request ∈ sent, request.operation.name = "DescribeImages") ∧
      (findImage query cloud).2.requests = cloud.requests ++ sent := by
  obtain ⟨region, repository, tag⟩ := query
  cases reachable : cloud.reachable with
  | true =>
    obtain ⟨sent, answer, hlookup⟩ := cloud.exists_lookup region repository tag
    refine ⟨sent, fun request hrequest => ?_, (findImage_of_lookup reachable hlookup).2⟩
    obtain ⟨token, rfl⟩ := hlookup.eq_of_mem hrequest
    rfl
  | false =>
    have hanswer := describeImages_of_unreachable reachable region repository
    have hsame : (findImage ⟨region, repository, tag⟩ cloud).2 = cloud := by
      cases tag with
      | none => simp only [findImage, newestFrom_eq, hanswer]
      | some tag => simp only [findImage, tagged, hanswer]
    exact ⟨[], List.forall_mem_nil _, by rw [hsame, List.append_nil]⟩

/-- However a validation goes, it asks for images only. -/
theorem exists_sent_validateUri (uri : Option String) (cloud : Cloud) :
    ∃ sent, (∀ request ∈ sent, request.operation.name = "DescribeImages") ∧
      ((validateUri uri).run registry cloud).state.requests = cloud.requests ++ sent := by
  refine (validateUri uri).asks_of_any.run
    (P := fun now : Cloud => ∃ sent, (∀ request ∈ sent, request.operation.name = "DescribeImages") ∧
      now.requests = cloud.requests ++ sent) ?_
    ⟨[], List.forall_mem_nil _, (List.append_nil _).symm⟩
  rintro query now - ⟨sent, hsent, hnow⟩
  obtain ⟨more, hmore, hnext⟩ := exists_sent_findImage query now
  refine ⟨sent ++ more, fun request hrequest => ?_, ?_⟩
  · exact (List.mem_append.mp hrequest).elim (hsent request) (hmore request)
  · rw [registry, hnext, hnow, List.append_assoc]

end Cloud

/-! ## Runs with given settings -/

namespace Program

section
variable (settings : Settings) (world : World)

theorem exists_sent_manageSecrets (action : Action) :
    ∃ sent, ((manageSecrets settings action).run World.serve world).state.cloud.requests =
        world.cloud.requests ++ sent ∧
      (∀ request ∈ sent, request.operation.name ∈ action.operations) ∧ sent.length ≤ 72 ∧
      ∀ request ∈ sent, request.region ∈ [settings.regions.primary, settings.regions.failover] := by
  obtain ⟨sent, hsent, hrequests⟩ :=
    Cloud.exists_sent_manageMatrix settings.regions settings.regions action world.cloud
  have hfrom : ∀ request ∈ sent, request.operation.name ∈ action.operations ∧
      request.region ∈ [settings.regions.primary, settings.regions.failover] :=
    fun request hrequest => Call.toRequest_of_mem_forMatrix (hsent.subset hrequest)
  refine ⟨sent, ?_, fun request hrequest => (hfrom request hrequest).1, ?_,
    fun request hrequest => (hfrom request hrequest).2⟩
  · rw [run_manageSecrets]
    exact hrequests
  · simpa using hsent.length_le

theorem files_manageSecrets (action : Action) :
    ((manageSecrets settings action).run World.serve world).state.files = world.files := by
  rw [run_manageSecrets]

theorem state_generateFiles :
    ((generateFiles settings).run World.serve world).state =
      { world with files := ((generateFixtures settings.templateDir settings.outputDir
          settings.options).run FileTree.serve world.files).state } := by
  rw [run_generateFiles]
  generalize (generateFixtures settings.templateDir settings.outputDir settings.options).run
    FileTree.serve world.files = outcome
  obtain ⟨result, files, log⟩ := outcome
  cases result <;> rfl

theorem onlyWrites_generateFiles :
    world.files.OnlyWrites (Fixture.outputs settings.outputDir)
      ((generateFiles settings).run World.serve world).state.files := by
  have hwrites := generateFixtures_onlyWrites settings.templateDir settings.outputDir
    settings.options world.files
  rw [state_generateFiles]
  dsimp only
  exact hwrites

theorem cloud_generateFiles :
    ((generateFiles settings).run World.serve world).state.cloud = world.cloud := by
  rw [state_generateFiles]

/-- A part that shows nothing afterwards is all that happens. -/
theorem state_of_silent (part : Run Unit) :
    ((part.bind fun _ => .succeed "").run World.serve world).state =
      (part.run World.serve world).state := by
  rcases part.run_bind_cases (fun _ => .succeed "") World.serve world with
    ⟨value, -, hstate⟩ | ⟨failure, -, hstate⟩
  · exact hstate
  · exact hstate

end

/-! ## What is left behind -/

section
variable {settings : Settings} (world : World)

theorem world_executeSettings (settings : Settings) :
    (executeSettings settings world).world = ((run settings).run World.serve world).state := rfl

theorem world_of_default (h : settings.command = .default) :
    let created := ((manageSecrets settings .create).run World.serve world).state
    (executeSettings settings world).world =
        ((generateFiles settings).run World.serve created).state ∨
      (executeSettings settings world).world = created := by
  have hrun : run settings =
      (manageSecrets settings .create).bind fun _ => generateFiles settings := by
    rw [run, h]
  rw [world_executeSettings, hrun]
  rcases (manageSecrets settings .create).run_bind_cases (fun _ => generateFiles settings)
    World.serve world with ⟨value, -, hstate⟩ | ⟨failure, -, hstate⟩
  · exact .inl hstate
  · exact .inr hstate

theorem world_of_createSecrets (h : settings.command = .createSecrets) :
    (executeSettings settings world).world =
      ((manageSecrets settings .create).run World.serve world).state := by
  rw [world_executeSettings, run, h]
  exact state_of_silent world _

theorem world_of_cleanupSecrets (h : settings.command = .cleanupSecrets) :
    (executeSettings settings world).world =
      ((manageSecrets settings .cleanup).run World.serve world).state := by
  rw [world_executeSettings, run, h]
  exact state_of_silent world _

theorem world_of_generateFiles (h : settings.command = .generateFiles) :
    (executeSettings settings world).world =
      ((generateFiles settings).run World.serve world).state := by
  rw [world_executeSettings, run, h]

theorem world_of_cleanupFiles (h : settings.command = .cleanupFiles) :
    (executeSettings settings world).world =
      { world with
        files := ((cleanUpFixtures settings.outputDir).run FileTree.serve world.files).state } := by
  rw [world_executeSettings, run, h]
  dsimp only
  rw [run_cleanupFiles]

theorem world_of_validateImage (h : settings.command = .validateImage) :
    (executeSettings settings world).world =
      { world with
        cloud := ((validateUri settings.privrepo).run Cloud.registry world.cloud).state } := by
  rw [world_executeSettings, run, h]
  dsimp only
  rw [run_validateImage]

end

section
variable (settings : Settings) (world : World)

theorem exists_sent :
    ∃ sent, (executeSettings settings world).world.cloud.requests =
        world.cloud.requests ++ sent ∧
      (∀ request ∈ sent, request.operation.name ∈ settings.command.operations) ∧
      (settings.command ≠ .validateImage → sent.length ≤ 72 ∧
        ∀ request ∈ sent,
          request.region ∈ [settings.regions.primary, settings.regions.failover]) := by
  cases hcommand : settings.command with
  | default =>
    obtain ⟨sent, hrequests, hnames, hlimits⟩ := exists_sent_manageSecrets settings world .create
    refine ⟨sent, ?_, hnames, fun _ => hlimits⟩
    rcases world_of_default world hcommand with hworld | hworld
    · rw [hworld, cloud_generateFiles]
      exact hrequests
    · rw [hworld]
      exact hrequests
  | createSecrets =>
    obtain ⟨sent, hrequests, hnames, hlimits⟩ := exists_sent_manageSecrets settings world .create
    rw [world_of_createSecrets world hcommand]
    exact ⟨sent, hrequests, hnames, fun _ => hlimits⟩
  | cleanupSecrets =>
    obtain ⟨sent, hrequests, hnames, hlimits⟩ := exists_sent_manageSecrets settings world .cleanup
    rw [world_of_cleanupSecrets world hcommand]
    exact ⟨sent, hrequests, hnames, fun _ => hlimits⟩
  | generateFiles =>
    rw [world_of_generateFiles world hcommand, cloud_generateFiles]
    exact ⟨[], (List.append_nil _).symm, List.forall_mem_nil _,
      fun _ => ⟨Nat.zero_le _, List.forall_mem_nil _⟩⟩
  | cleanupFiles =>
    rw [world_of_cleanupFiles world hcommand]
    exact ⟨[], (List.append_nil _).symm, List.forall_mem_nil _,
      fun _ => ⟨Nat.zero_le _, List.forall_mem_nil _⟩⟩
  | validateImage =>
    obtain ⟨sent, hnames, hrequests⟩ := Cloud.exists_sent_validateUri settings.privrepo world.cloud
    rw [world_of_validateImage world hcommand]
    exact ⟨sent, hrequests, fun request hrequest => List.mem_singleton.mpr (hnames request hrequest),
      fun hother => absurd rfl hother⟩

theorem cloud_untouched (h : settings.command = .generateFiles ∨ settings.command = .cleanupFiles) :
    (executeSettings settings world).world.cloud = world.cloud := by
  rcases h with hcommand | hcommand
  · rw [world_of_generateFiles world hcommand, cloud_generateFiles]
  · rw [world_of_cleanupFiles world hcommand]

theorem files_untouched (h : settings.command = .createSecrets ∨
    settings.command = .cleanupSecrets ∨ settings.command = .validateImage) :
    (executeSettings settings world).world.files = world.files := by
  rcases h with hcommand | hcommand | hcommand
  · rw [world_of_createSecrets world hcommand, files_manageSecrets]
  · rw [world_of_cleanupSecrets world hcommand, files_manageSecrets]
  · rw [world_of_validateImage world hcommand]

theorem onlyWrites_outputs (h : settings.command = .default ∨ settings.command = .generateFiles) :
    world.files.OnlyWrites (Fixture.outputs settings.outputDir)
      (executeSettings settings world).world.files := by
  rcases h with hcommand | hcommand
  · have hfiles := files_manageSecrets settings world .create
    rcases world_of_default world hcommand with hworld | hworld
    · rw [hworld, ← hfiles]
      exact onlyWrites_generateFiles settings _
    · rw [hworld, hfiles]
      exact fun _ => .inl rfl
  · rw [world_of_generateFiles world hcommand]
    exact onlyWrites_generateFiles settings world

theorem onlyRemoves_outputs (h : settings.command = .cleanupFiles) :
    world.files.OnlyRemoves (Fixture.outputs settings.outputDir)
      (executeSettings settings world).world.files := by
  have hremoves := cleanUpFixtures_onlyRemoves settings.outputDir world.files
  rw [world_of_cleanupFiles world h]
  dsimp only
  exact hremoves

end

/-! ## What is shown -/

section
variable {settings : Settings} {world : World} {shown : String}

theorem exists_of_bind_ok {α β : Type} {part : Run α} {next : α → Run β} {value : β}
    (h : ((part.bind next).run World.serve world).result = .ok value) :
    ∃ got later, ((next got).run World.serve later).result = .ok value := by
  rcases part.run_bind_cases next World.serve world with
    ⟨got, hresult, -⟩ | ⟨failure, hresult, -⟩
  · exact ⟨got, _, hresult.symm.trans h⟩
  · rw [hresult] at h
    cases h

theorem eq_usage_of_generateFiles
    (h : ((generateFiles settings).run World.serve world).result = .ok shown) :
    shown = usage ++ "\n" := by
  obtain ⟨got, later, hlast⟩ := exists_of_bind_ok h
  exact (Except.ok.inj hlast).symm

/-- The three kinds of text that a run can show in the end. -/
theorem shown_of_run (h : ((run settings).run World.serve world).result = .ok shown) :
    ((settings.command = .default ∨ settings.command = .generateFiles) ∧ shown = usage ++ "\n") ∨
    (settings.command ≠ .default ∧ settings.command ≠ .generateFiles ∧
      (shown = "" ∨ ∃ image : ValidatedImage, shown = image.text ++ "\n")) := by
  cases hcommand : settings.command with
  | default =>
    rw [run, hcommand] at h
    obtain ⟨got, later, hlast⟩ := exists_of_bind_ok h
    exact .inl ⟨.inl rfl, eq_usage_of_generateFiles hlast⟩
  | generateFiles =>
    rw [run, hcommand] at h
    exact .inl ⟨.inr rfl, eq_usage_of_generateFiles h⟩
  | createSecrets | cleanupSecrets | cleanupFiles =>
    rw [run, hcommand] at h
    obtain ⟨got, later, hlast⟩ := exists_of_bind_ok h
    exact .inr ⟨by decide, by decide, .inl (Except.ok.inj hlast).symm⟩
  | validateImage =>
    rw [run, hcommand] at h
    obtain ⟨image, later, hlast⟩ := exists_of_bind_ok h
    exact .inr ⟨by decide, by decide, .inr ⟨image, (Except.ok.inj hlast).symm⟩⟩

theorem head?_banner : (usage ++ "\n").toList.head? = some '\x1b' := by
  unfold usage
  rw [String.toList_append, String.toList_intercalate, List.map_cons, List.map_cons,
    List.intercalate_cons_cons]
  rfl

theorem banner_ne_empty : usage ++ "\n" ≠ "" := by
  intro heq
  have hhead := head?_banner
  rw [heq] at hhead
  cases hhead

/-- What a validation shows does not begin as the usage does. -/
theorem text_ne_banner (image : ValidatedImage) : image.text ++ "\n" ≠ usage ++ "\n" := by
  intro heq
  have hhead := head?_banner
  rw [← heq] at hhead
  unfold ValidatedImage.text at hhead
  simp at hhead

theorem stdout_eq_banner_iff :
    (executeSettings settings world).ending.stdout = usage ++ "\n" ↔
      (executeSettings settings world).ending.exitCode = 0 ∧
        (settings.command = .default ∨ settings.command = .generateFiles) := by
  have hending : (executeSettings settings world).ending =
      .ofResult ((run settings).run World.serve world).result := rfl
  have hshown := fun shown => @shown_of_run settings world shown
  rw [hending]
  revert hshown
  generalize ((run settings).run World.serve world).result = result
  intro hshown
  cases result with
  | error failure =>
    exact ⟨fun heq => absurd heq.symm banner_ne_empty, fun h => absurd h.1 Nat.one_ne_zero⟩
  | ok shown =>
    rcases hshown shown rfl with ⟨hcommand, hbanner⟩ | ⟨hdefault, hgenerate, hother⟩
    · exact ⟨fun _ => ⟨rfl, hcommand⟩, fun _ => hbanner⟩
    · refine ⟨fun heq => ?_, fun h => ?_⟩
      · obtain rfl : shown = usage ++ "\n" := heq
        rcases hother with hempty | ⟨image, htext⟩
        · exact absurd hempty banner_ne_empty
        · exact absurd htext.symm (text_ne_banner image)
      · exact (h.2.elim hdefault hgenerate).elim

end

/-! ## Whole runs -/

theorem exitCode_executeSettings_ne_two (settings : Settings) (world : World) :
    (executeSettings settings world).ending.exitCode ≠ 2 := by
  have hending : (executeSettings settings world).ending =
      .ofResult ((run settings).run World.serve world).result := rfl
  rw [hending]
  cases ((run settings).run World.serve world).result with
  | ok shown => exact Nat.zero_ne_add_one 1
  | error failure => exact Nat.succ_ne_succ_iff.mpr Nat.zero_ne_one

/-- Refused arguments change nothing. With any others a command sends its own operations only, and
those that manage secrets at most 72 of them, each for one of the two regions; the commands for files
send none. The commands for secrets and images change no file; those that generate write only places
that the twelve paths reach; and a clean-up of files removes files there and does nothing else. A
run that fails shows nothing, and the usage is shown exactly where a generation has come to its end.
The other word for the generation does the same as the first, wherever a command can stand. -/
theorem execute_confined (arguments : List String) (environment : Environment) (world : World) :
    let execution := execute arguments environment world
    let ending := execution.ending
    (ending.exitCode = 2 ↔ Choices.parse arguments = none) ∧
    (ending.exitCode = 2 → execution.world = world) ∧
    (∀ choices, Choices.parse arguments = some choices →
      let settings := choices.settings environment
      let command := settings.command
      let outputs := Fixture.outputs settings.outputDir
      (∃ sent, execution.world.cloud.requests = world.cloud.requests ++ sent ∧
        (∀ request ∈ sent, request.operation.name ∈ command.operations) ∧
        (command ≠ .validateImage → sent.length ≤ 72 ∧
          ∀ request ∈ sent,
            request.region ∈ [settings.regions.primary, settings.regions.failover])) ∧
      (command = .generateFiles ∨ command = .cleanupFiles →
        execution.world.cloud = world.cloud) ∧
      (command = .createSecrets ∨ command = .cleanupSecrets ∨ command = .validateImage →
        execution.world.files = world.files) ∧
      (command = .default ∨ command = .generateFiles →
        world.files.OnlyWrites outputs execution.world.files) ∧
      (command = .cleanupFiles → world.files.OnlyRemoves outputs execution.world.files)) ∧
    (ending.exitCode = 1 → ending.stdout = "") ∧
    (ending.stdout = usage ++ "\n" ↔ ending.exitCode = 0 ∧
      ∃ choices, Choices.parse arguments = some choices ∧
        (choices.command.getD .default = .default ∨
          choices.command.getD .default = .generateFiles)) ∧
    ∀ before after, arguments = before ++ "generate-only" :: after →
      (∀ text ∈ before.getLast?, ¬ Argument.AwaitsValue text) →
      execution = execute (before ++ "generate-files" :: after) environment world := by
  intro execution ending
  have hexecution : execution = execute arguments environment world := rfl
  have hending : ending = execution.ending := rfl
  clear_value ending execution
  have hsilent : ending.exitCode = 1 → ending.stdout = "" := by
    intro hfailed
    obtain ⟨failure, hfailure⟩ := Ending.exitCode_eq_one_iff.mp hfailed
    rw [hfailure]
    rfl
  have halias : ∀ before after, arguments = before ++ "generate-only" :: after →
      (∀ text ∈ before.getLast?, ¬ Argument.AwaitsValue text) →
      execution = execute (before ++ "generate-files" :: after) environment world := by
    rintro before after rfl hlast
    have hparse : Choices.parse (before ++ "generate-only" :: after) =
        Choices.parse (before ++ "generate-files" :: after) :=
      Choices.parseFrom_congr (by decide) (by decide) (by decide) {} hlast after
    rw [hexecution, execute, execute, hparse]
  cases hparse : Choices.parse arguments with
  | none =>
    rw [execute, hparse] at hexecution
    subst hexecution hending
    refine ⟨iff_of_true rfl rfl, fun _ => rfl, ?_, hsilent, ?_, halias⟩
    · rintro choices ⟨⟩
    · exact ⟨fun heq => absurd heq.symm banner_ne_empty, fun h => absurd h.1 (Nat.succ_ne_zero 1)⟩
  | some choices =>
    rw [execute_of_parse hparse] at hexecution
    subst hexecution hending
    have htwo := exitCode_executeSettings_ne_two (choices.settings environment) world
    refine ⟨iff_of_false htwo (Option.some_ne_none choices), fun h => absurd h htwo, ?_, hsilent, ?_,
      halias⟩
    · rintro accepted ⟨⟩
      intro settings command outputs
      exact ⟨exists_sent settings world, cloud_untouched settings world,
        files_untouched settings world, onlyWrites_outputs settings world,
        onlyRemoves_outputs settings world⟩
    · rw [stdout_eq_banner_iff]
      simp only [Option.some.injEq, exists_eq_left']
      rfl

/-- A generation by the other word, and a command that is given twice. -/
theorem execute_confined_of_alias :
    let world : World := ⟨{}, templatesOnly "{{ARCH}}"⟩
    let execution := execute ["--addon", "generate-only"] {} world
    execution = execute ["--addon", "generate-files"] {} world ∧
      execution.world.cloud = world.cloud ∧
      world.files.OnlyWrites (Fixture.outputs ".") execution.world.files ∧
      (execute ["validate-image", "validate-image"] {} world).world = world := by
  intro world
  have hparse : Choices.parse ["--addon", "generate-only"] =
      some { command := some .generateFiles, addon := true } := by decide +kernel
  have hrefused : Choices.parse ["validate-image", "validate-image"] = none := by decide +kernel
  obtain ⟨-, -, hconfined, -, -, halias⟩ := execute_confined ["--addon", "generate-only"] {} world
  generalize execute ["--addon", "generate-only"] {} world = execution at hconfined halias ⊢
  obtain ⟨-, hcloud, -, hwrites, -⟩ := hconfined _ hparse
  obtain ⟨htwo, hsame, -⟩ := execute_confined ["validate-image", "validate-image"] {} world
  refine ⟨?_, ?_, ?_, ?_⟩
  · refine halias ["--addon"] [] rfl ?_
    rintro text ⟨⟩ ⟨option, hoption⟩
    cases option <;> revert hoption <;> decide
  · exact hcloud (.inl rfl)
  · exact hwrites (.inr rfl)
  · exact hsame (htwo.mpr hrefused)

end Program

end MountMatrix
