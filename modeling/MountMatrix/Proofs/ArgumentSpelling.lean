import Mathlib.Data.List.TakeWhile
import MountMatrix.CommandLine.Program
import MountMatrix.Proofs.ItemOrder

/-! # Arguments in any order and spelling

Whatever the user wants can be said in arguments, with the items in any order and each option in
either of its spellings, and is read back from them. One more argument for an option that they
contain spoils them, wherever it is put.

* `Item.Spelled`, `Items.Spelled`: the texts in which items are said.
* `Items.Spelled.cut`: where such texts can be cut in two.
* `Choices.parse_of_repeated`: arguments with an option put in a second time.
* `Settings.Complete`: what the choices, the environment and the defaults come to.
* `Program.execute_of_spelled`: the run that follows.
-/

set_option autoImplicit false

namespace MountMatrix

/-! ## Texts -/

namespace Argument

theorem ofText_of_no_hyphen {text : String} (h : text.toList.head? ≠ some '-') :
    ofText text = .word text := by
  unfold ofText
  split
  next htext => simp [htext] at h
  next htext => simp [htext] at h
  next htext => simp [htext] at h
  · rfl

theorem splitAtEquals_of_no_equals {name : List Char} (h : ∀ c ∈ name, (c != '=') = true) :
    splitAtEquals name = .option (.ofList name) none := by
  have htake : name.takeWhile (· != '=') = name := List.takeWhile_eq_self_iff.mpr h
  have hdrop : name.dropWhile (· != '=') = [] := List.dropWhile_eq_nil_iff.mpr h
  rw [splitAtEquals, htake, hdrop]

/-- The first equals sign ends the name; the value may hold others. -/
theorem splitAtEquals_append {name : List Char} (h : ∀ c ∈ name, (c != '=') = true)
    (value : List Char) :
    splitAtEquals (name ++ '=' :: value) = .option (.ofList name) (some (.ofList value)) := by
  have htake : (name ++ '=' :: value).takeWhile (· != '=') = name := by
    rw [List.takeWhile_append_of_pos h]
    simp
  have hdrop : (name ++ '=' :: value).dropWhile (· != '=') = '=' :: value := by
    rw [List.dropWhile_append_of_pos h]
    simp
  rw [splitAtEquals, htake, hdrop]

theorem ofText_hyphens {text : String} {rest : List Char} (h : text.toList = '-' :: '-' :: rest)
    (hrest : rest ≠ []) : ofText text = splitAtEquals rest := by
  obtain ⟨c, rest, rfl⟩ := List.exists_cons_of_ne_nil hrest
  rw [ofText, h]
  rfl

theorem ofText_addon : ofText "--addon" = .option "addon" none := by
  decide

end Argument

namespace ValueOption

theorem name_no_equals (option : ValueOption) : ∀ c ∈ option.name.toList, (c != '=') = true := by
  have hall : option.name.toList.all (· != '=') = true := by cases option <;> rfl
  exact List.all_eq_true.mp hall

theorem name_ne_nil (option : ValueOption) : option.name.toList ≠ [] := by
  cases option <;> decide

theorem ofText_name (option : ValueOption) :
    Argument.ofText ("--" ++ option.name) = .option option.name none := by
  have htext : ("--" ++ option.name).toList = '-' :: '-' :: option.name.toList := by simp
  rw [Argument.ofText_hyphens htext option.name_ne_nil,
    Argument.splitAtEquals_of_no_equals option.name_no_equals, String.ofList_toList]

theorem ofText_name_value (option : ValueOption) (value : String) :
    Argument.ofText ("--" ++ option.name ++ "=" ++ value) = .option option.name (some value) := by
  have htext : ("--" ++ option.name ++ "=" ++ value).toList =
      '-' :: '-' :: (option.name.toList ++ '=' :: value.toList) := by simp
  rw [Argument.ofText_hyphens htext (List.append_ne_nil_of_left_ne_nil option.name_ne_nil _),
    Argument.splitAtEquals_append option.name_no_equals, String.ofList_toList,
    String.ofList_toList]

end ValueOption

theorem Command.ofText_word {word : String} (h : (ofWord? word).isSome = true) :
    Argument.ofText word = .word word := by
  have hwords : ∀ pair ∈ words, Argument.ofText pair.1 = .word pair.1 := by decide
  obtain ⟨command, hcommand⟩ := Option.isSome_iff_exists.mp h
  obtain ⟨front, back, hsplit, -⟩ := List.lookup_eq_some_iff.mp hcommand
  have hmem : (word, command) ∈ words := by
    rw [hsplit]
    exact List.mem_append_right front List.mem_cons_self
  exact hwords (word, command) hmem

/-! ## Spelling -/

/-- The texts in which an item is said. An option's value is attached to its name, or it stands
apart if it does not look like an option itself. -/
inductive Item.Spelled : Item → List String → Prop where
  | command {word : String} : (Command.ofWord? word).isSome = true → Spelled (command word) [word]
  | addon : Spelled addon ["--addon"]
  | attached (option : ValueOption) (value : String) :
      Spelled (setting option value) ["--" ++ option.name ++ "=" ++ value]
  | apart (option : ValueOption) {value : String} :
      value.toList.head? ≠ some '-' → Spelled (setting option value) ["--" ++ option.name, value]

inductive Items.Spelled : List Item → List String → Prop where
  | nil : Spelled [] []
  | cons {item : Item} {items : List Item} {texts arguments : List String} :
      item.Spelled texts → Spelled items arguments → Spelled (item :: items) (texts ++ arguments)

namespace Item.Spelled

variable {item : Item} {texts before rest : List String}

theorem written (h : item.Spelled texts) : item.Written texts := by
  cases h with
  | command hword => exact .command (Command.ofText_word hword)
  | addon => exact .addon Argument.ofText_addon
  | attached option value => exact .attached (option.ofText_name_value value)
  | apart option hvalue => exact .apart option.ofText_name (Argument.ofText_of_no_hyphen hvalue)

/-- Only an option whose value stands apart has a text to either side of a cut. -/
theorem cut (h : item.Spelled (before ++ rest)) :
    before = [] ∨ rest = [] ∨ ∃ option : ValueOption, before = ["--" ++ option.name] := by
  generalize htexts : before ++ rest = texts at h
  have hsingle : ∀ {text : String}, before ++ rest = [text] → before = [] ∨ rest = [] :=
    fun htext => (List.append_eq_singleton_iff.mp htext).imp And.left And.right
  cases h with
  | command _ | addon | attached option value => exact (hsingle htexts).imp_right .inl
  | apart option _ =>
    rcases List.append_eq_cons_iff.mp htexts with ⟨hbefore, -⟩ | ⟨before, rfl, hrest⟩
    · exact .inl hbefore
    rcases List.append_eq_singleton_iff.mp hrest.symm with ⟨rfl, -⟩ | ⟨-, hnone⟩
    · exact .inr (.inr ⟨option, rfl⟩)
    · exact .inr (.inl hnone)

/-- An option is never taken for the value of the option in front of it. -/
theorem exists_head (h : item.Spelled texts) (hoption : item.isOption = true) :
    ∃ text rest, texts = text :: rest ∧ ∀ word, Argument.ofText text ≠ .word word := by
  cases h with
  | command _ => cases hoption
  | addon => exact ⟨_, _, rfl, by rw [Argument.ofText_addon]; nofun⟩
  | attached option value => exact ⟨_, _, rfl, by rw [option.ofText_name_value]; nofun⟩
  | apart option _ => exact ⟨_, _, rfl, by rw [option.ofText_name]; nofun⟩

end Item.Spelled

namespace Items.Spelled

variable {items : List Item} {arguments before after : List String}

theorem parseFrom_append (h : Spelled items arguments) (start : Choices) (rest : List String) :
    start.parseFrom (arguments ++ rest) =
      (items.foldlM Item.choose start).bind fun next => next.parseFrom rest := by
  induction h generalizing start with
  | nil => rfl
  | cons hitem _ ih =>
    rw [List.append_assoc, Choices.parseFrom_append hitem.written, List.foldlM_cons]
    simp only [ih]
    exact (Option.bind_assoc _ _ _).symm

theorem append {others : List Item} {more : List String} (h : Spelled items arguments)
    (hmore : Spelled others more) : Spelled (items ++ others) (arguments ++ more) := by
  induction h with
  | nil => exact hmore
  | cons hitem _ ih =>
    rw [List.append_assoc]
    exact .cons hitem ih

/-- A cut falls between two items, or it takes an option's value off its name. -/
theorem cut (h : Spelled items (before ++ after)) :
    (∃ front back, items = front ++ back ∧ Spelled front before ∧ Spelled back after) ∨
      ∃ front texts, Spelled front texts ∧
        ∃ option : ValueOption, before = texts ++ ["--" ++ option.name] := by
  generalize harguments : before ++ after = arguments at h
  induction h generalizing before with
  | nil =>
    obtain ⟨rfl, rfl⟩ := List.append_eq_nil_iff.mp harguments
    exact .inl ⟨[], [], rfl, .nil, .nil⟩
  | @cons item items texts arguments hitem hrest ih =>
    rcases List.append_eq_append_iff.mp harguments with ⟨rest, rfl, rfl⟩ | ⟨rest, rfl, hrest'⟩
    · rcases hitem.cut with rfl | rfl | ⟨option, rfl⟩
      · exact .inl ⟨[], item :: items, rfl, .nil, .cons hitem hrest⟩
      · rw [List.append_nil] at hitem
        exact .inl ⟨[item], items, rfl, List.append_nil before ▸ .cons hitem .nil, hrest⟩
      · exact .inr ⟨[], [], .nil, option, rfl⟩
    · rcases ih hrest'.symm with ⟨front, back, rfl, hfront, hback⟩ |
        ⟨front, texts', hfront, option, rfl⟩
      · exact .inl ⟨item :: front, back, rfl, .cons hitem hfront, hback⟩
      · exact .inr ⟨item :: front, texts ++ texts', .cons hitem hfront, option,
          (List.append_assoc texts texts' _).symm⟩

end Items.Spelled

/-! ## Reading -/

namespace Choices

variable {items : List Item} {arguments before after added : List String} {extra : Item}

theorem parse_of_spelled (h : Items.Spelled items arguments) :
    parse arguments = items.foldlM Item.choose {} := by
  have hread := h.parseFrom_append {} []
  rw [List.append_nil] at hread
  simpa [parse, parseFrom] using hread

/-- What looks like an option itself does not serve as the value of the option in front of it. -/
theorem parseFrom_of_no_value {text : String} (h : ∀ word, Argument.ofText text ≠ .word word)
    (start : Choices) (option : ValueOption) (rest : List String) :
    start.parseFrom (("--" ++ option.name) :: text :: rest) = none := by
  -- the hypothesis leaves only the last case of the reading of the next argument
  simp only [parseFrom, option.ofText_name, option.name_ne_addon, ValueOption.find?_name, if_false]

theorem parse_of_repeated (h : Items.Spelled items (before ++ after)) (hadded : extra.Spelled added)
    (hoption : extra.isOption = true) (hrepeated : extra.topic ∈ items.map Item.topic) :
    parse (before ++ added ++ after) = none := by
  rcases h.cut with ⟨front, back, rfl, hfront, hback⟩ | ⟨front, texts, hfront, option, rfl⟩
  · have hspelled : Items.Spelled (front ++ (extra :: back)) (before ++ (added ++ after)) :=
      hfront.append (.cons hadded hback)
    rw [List.append_assoc, parse_of_spelled hspelled, Option.eq_none_iff_forall_ne_some]
    intro result hresult
    obtain ⟨hnodup, -⟩ := Item.foldlM_choose_eq_some_iff.mp hresult
    rw [(List.perm_middle.map Item.topic).nodup_iff, List.map_cons, List.nodup_cons] at hnodup
    exact hnodup.1 hrepeated
  -- the option in front, which has lost its value, takes the added one for it
  · obtain ⟨text, rest, rfl, hword⟩ := hadded.exists_head hoption
    have hread := hfront.parseFrom_append {} (("--" ++ option.name) :: text :: (rest ++ after))
    simp only [parseFrom_of_no_value hword, Option.bind_fun_none] at hread
    simpa [parse] using hread

end Choices

/-! ## Settings -/

/-- The value that is given, else the one that the environment has, else the usual one. -/
structure Prevails {α : Type} (given ambient : Option α) (usual value : α) : Prop where
  of_given : ∀ x, given = some x → value = x
  of_ambient : given = none → ∀ x, ambient = some x → value = x
  of_neither : given = none → ambient = none → value = usual

theorem prevails_orElse {α : Type} (given ambient : Option α) (usual : α) :
    Prevails given ambient usual ((given <|> ambient).getD usual) := by
  cases given with
  | some x => exact ⟨fun _ h => Option.some.inj h, nofun, nofun⟩
  | none =>
    cases ambient with
    | some x => exact ⟨nofun, fun _ _ h => Option.some.inj h, nofun⟩
    | none => exact ⟨nofun, fun _ => nofun, fun _ _ => rfl⟩

theorem prevails_getD {α : Type} (given : Option α) (usual : α) :
    Prevails given none usual (given.getD usual) := by
  have h := prevails_orElse given none usual
  have hgiven : (given <|> none) = given := by cases given <;> rfl
  rwa [hgiven] at h

/-- The settings are the choices, completed by the environment and by what is usual. -/
structure Settings.Complete (settings : Settings) (chosen : Choices) (environment : Environment) :
    Prop where
  command : Prevails chosen.command none .default settings.command
  addon : settings.options.addon = chosen.addon
  version : settings.options.addonVersion = chosen.version
  templateDir : Prevails chosen.templateDir none "." settings.templateDir
  outputDir : Prevails chosen.outputDir none "." settings.outputDir
  primary : Prevails chosen.region environment.region "us-west-2" settings.regions.primary
  failover :
    Prevails chosen.failoverRegion environment.failoverRegion "us-east-2" settings.regions.failover
  privrepo :
    Prevails (chosen.privrepo.map some) (environment.privrepo.map some) none settings.privrepo

theorem Choices.complete_settings (chosen : Choices) (environment : Environment) :
    (chosen.settings environment).Complete chosen environment where
  command := prevails_getD _ _
  addon := rfl
  version := rfl
  templateDir := prevails_getD _ _
  outputDir := prevails_getD _ _
  primary := prevails_orElse _ _ _
  failover := prevails_orElse _ _ _
  privrepo := by
    have h := prevails_orElse (chosen.privrepo.map some) (environment.privrepo.map some) none
    have hvalue : (chosen.privrepo.map some <|> environment.privrepo.map some).getD none =
        (chosen.settings environment).privrepo := by
      rw [settings]
      cases chosen.privrepo with
      | some value => rfl
      | none => cases environment.privrepo <;> rfl
    rwa [hvalue] at h

namespace Program

/-- Any choices, with any word for the command, can be said in any order and spelling: they are read
back, and the run is that of the choices completed by the environment. With an option that is put in
a second time, anywhere among the arguments, they are refused. -/
theorem execute_of_spelled (chosen : Choices) (word : Option String)
    (accepted : word.map Command.ofWord? = chosen.command.map some)
    (template : chosen.templateDir ≠ some "") (output : chosen.outputDir ≠ some "")
    (items : List Item) (order : items.Perm (chosen.items word)) (arguments : List String)
    (spelled : Items.Spelled items arguments) (environment : Environment) (world : World) :
    Choices.parse arguments = some chosen ∧
      (∃ settings : Settings, settings.Complete chosen environment ∧
        execute arguments environment world = executeSettings settings world) ∧
      ∀ (before after added : List String) (extra : Item), arguments = before ++ after →
        extra.isOption = true → (∃ item ∈ items, item.topic = extra.topic) → extra.Spelled added →
        execute (before ++ added ++ after) environment world = ⟨.refused, [], world⟩ := by
  have hparse : Choices.parse arguments = some chosen := by
    rw [Choices.parse_of_spelled spelled]
    exact Choices.foldlM_choose_items accepted template output order
  refine ⟨hparse, ⟨chosen.settings environment, chosen.complete_settings environment, ?_⟩, ?_⟩
  · rw [execute, hparse]
  · intro before after added extra hcut hoption hrepeated hadded
    rw [hcut] at spelled
    rw [execute, Choices.parse_of_repeated spelled hadded hoption (List.mem_map.mpr hrepeated)]

/-- The addon version looks like a command, the region like an option. The version is given again
between the option and its value. -/
theorem execute_of_spelled_of_scattered :
    let chosen : Choices :=
      { command := some .generateFiles, addon := true, version := some "default"
        outputDir := some "a=b", region := some "-x" }
    let items : List Item :=
      [.setting .version "default", .addon, .setting .region "-x", .command "generate-only",
        .setting .outputDir "a=b"]
    let rest := ["default", "--addon", "--region=-x", "generate-only", "--output-dir", "a=b"]
    let environment : Environment := ⟨some "eu-west-1", some "", none⟩
    let world : World := ⟨{}, .empty⟩
    (some "generate-only").map Command.ofWord? = chosen.command.map some ∧
      chosen.templateDir ≠ some "" ∧ chosen.outputDir ≠ some "" ∧
      items.Perm (chosen.items (some "generate-only")) ∧
      Items.Spelled items ("--version" :: rest) ∧
      Choices.parse ("--version" :: rest) = some chosen ∧
      (∃ settings : Settings, settings.regions = ⟨"-x", ""⟩ ∧
        execute ("--version" :: rest) environment world = executeSettings settings world) ∧
      execute ("--version" :: "--version=v2" :: rest) environment world = ⟨.refused, [], world⟩ := by
  intro chosen items rest environment world
  have accepted : (some "generate-only").map Command.ofWord? = chosen.command.map some := by
    decide
  have template : chosen.templateDir ≠ some "" := by decide
  have output : chosen.outputDir ≠ some "" := by decide
  have order : items.Perm (chosen.items (some "generate-only")) := by decide
  have spelled : Items.Spelled items ("--version" :: rest) :=
    .cons (.apart .version (by decide)) <| .cons .addon <| .cons (.attached .region "-x") <|
      .cons (.command (by decide)) <| .cons (.apart .outputDir (by decide)) .nil
  obtain ⟨hparse, ⟨settings, hcomplete, hrun⟩, hrepeated⟩ := execute_of_spelled chosen
    (some "generate-only") accepted template output items order _ spelled environment world
  have hregions : settings.regions = ⟨"-x", ""⟩ :=
    congrArg₂ Regions.mk (hcomplete.primary.of_given "-x" rfl)
      (hcomplete.failover.of_ambient rfl "" rfl)
  exact ⟨accepted, template, output, order, spelled, hparse, ⟨settings, hregions, hrun⟩,
    hrepeated ["--version"] rest ["--version=v2"] (.setting .version "v2") rfl rfl
      ⟨.setting .version "default", List.mem_cons_self, rfl⟩ (.attached .version "v2")⟩

end Program

end MountMatrix
