import MountMatrix.CommandLine.Program

/-! # The parts of a world

The program's surroundings are a cloud and a file tree, and a part of the program asks only one of
them. It takes the course that it takes with this one alone, and leaves the other as it is.

* `Responder.ActsOn`: surroundings that change one part of their state and answer from it.
* `Dialogue.run_of_actsOn`: a dialogue in such surroundings.
* `Program.run_manageSecrets`, `Program.run_generateFiles`, `Program.run_cleanupFiles`,
  `Program.run_validateImage`: the parts of the program.
-/

set_option autoImplicit false

namespace MountMatrix

/-! ## Surroundings with a part -/

section
variable {I : Interface} {σ τ ε α : Type}

/-- Surroundings that answer as `inner` does, from a part of their state, and change nothing but
this part. -/
structure Responder.ActsOn (part : τ → σ) (replace : τ → σ → τ) (outer : Responder I τ)
    (inner : Responder I σ) : Prop where
  serve : ∀ question state, outer question state =
    ((inner question (part state)).1, replace state (inner question (part state)).2)
  part_replace : ∀ state new, part (replace state new) = new
  replace_part : ∀ state, replace state (part state) = state
  replace_replace : ∀ state old new, replace (replace state old) new = replace state new

theorem Dialogue.run_of_actsOn {part : τ → σ} {replace : τ → σ → τ} {outer : Responder I τ}
    {inner : Responder I σ} (h : outer.ActsOn part replace inner) (d : Dialogue I ε α) (state : τ) :
    d.run outer state =
      let outcome := d.run inner (part state)
      ⟨outcome.result, replace state outcome.state, outcome.log⟩ := by
  induction d generalizing state with
  | finished result => simp only [run_finished, h.replace_part]
  | note notice rest ih => rw [run_note, run_note, ih]
  | ask question rest ih =>
    rw [run_ask, run_ask, ih, h.serve]
    simp only [h.part_replace, h.replace_replace]

end

/-! ## The cloud and the files -/

namespace World

theorem actsOn_cloud (clients : Regions) :
    Responder.ActsOn (I := ResourceCalls) World.cloud (fun world cloud => { world with cloud })
      (fun call world => World.serve (.call clients call) world) (Cloud.backend clients) where
  serve _ _ := rfl
  part_replace _ _ := rfl
  replace_part _ := rfl
  replace_replace _ _ _ := rfl

theorem actsOn_images :
    Responder.ActsOn (I := ImageLookups) World.cloud (fun world cloud => { world with cloud })
      (fun query world => World.serve (.image query) world) Cloud.registry where
  serve _ _ := rfl
  part_replace _ _ := rfl
  replace_part _ := rfl
  replace_replace _ _ _ := rfl

theorem actsOn_files :
    Responder.ActsOn (I := FileAccess) World.files (fun world files => { world with files })
      (fun request world => World.serve (.file request) world) FileTree.serve where
  serve _ _ := rfl
  part_replace _ _ := rfl
  replace_part _ := rfl
  replace_replace _ _ _ := rfl

end World

namespace Program

theorem run_manageSecrets (settings : Settings) (action : Action) (world : World) :
    (manageSecrets settings action).run World.serve world =
      let outcome := (Manager.manageMatrix settings.regions action).run
        (Cloud.backend settings.regions) world.cloud
      ⟨outcome.result.mapError .call, { world with cloud := outcome.state }, outcome.log⟩ := by
  rw [manageSecrets, Dialogue.run_mapError, Dialogue.run_within,
    Dialogue.run_of_actsOn (World.actsOn_cloud settings.regions)]

theorem run_generateFiles (settings : Settings) (world : World) :
    (generateFiles settings).run World.serve world =
      let outcome := (generateFixtures settings.templateDir settings.outputDir settings.options).run
        FileTree.serve world.files
      match outcome.result with
      | .ok _ => ⟨.ok (usage ++ "\n"), { world with files := outcome.state },
          outcome.log ++ [.generatedEverything]⟩
      | .error failure => ⟨.error (.generation failure), { world with files := outcome.state },
          outcome.log⟩ := by
  rw [generateFiles, Dialogue.run_bind, Dialogue.run_mapError, Dialogue.run_within,
    Dialogue.run_of_actsOn World.actsOn_files]
  obtain ⟨result, files, log⟩ :=
    (generateFixtures settings.templateDir settings.outputDir settings.options).run
      FileTree.serve world.files
  cases result <;> rfl

theorem run_cleanupFiles (settings : Settings) (world : World) :
    (cleanupFiles settings).run World.serve world =
      let outcome := (cleanUpFixtures settings.outputDir).run FileTree.serve world.files
      ⟨(outcome.result.map fun _ => "").mapError .cleanup, { world with files := outcome.state },
        outcome.log⟩ := by
  rw [cleanupFiles, Dialogue.run_bind, Dialogue.run_mapError, Dialogue.run_within,
    Dialogue.run_of_actsOn World.actsOn_files]
  obtain ⟨result, files, log⟩ :=
    (cleanUpFixtures settings.outputDir).run FileTree.serve world.files
  cases result with
  | ok removed => exact congrArg (Outcome.mk _ _) (List.append_nil log)
  | error failure => rfl

theorem run_validateImage (settings : Settings) (world : World) :
    (validateImage settings).run World.serve world =
      let outcome := (validateUri settings.privrepo).run Cloud.registry world.cloud
      ⟨(outcome.result.map fun image => image.text ++ "\n").mapError .validation,
        { world with cloud := outcome.state }, outcome.log⟩ := by
  rw [validateImage, Dialogue.run_bind, Dialogue.run_mapError, Dialogue.run_within,
    Dialogue.run_of_actsOn World.actsOn_images]
  obtain ⟨result, cloud, log⟩ := (validateUri settings.privrepo).run Cloud.registry world.cloud
  cases result with
  | ok image => exact congrArg (Outcome.mk _ _) (List.append_nil log)
  | error failure => rfl

end Program

end MountMatrix
