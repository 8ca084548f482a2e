import MountMatrix.Proofs.ArgumentItems

/-! # Items in any order

An item decides one thing: the command, the flag, or the value of one option. Items that decide
different things can be chosen in any order, and the choices that they come to can be read off
them. Of two items that decide the same thing the second is refused, wherever the two stand.

* `Topic`: the things that are decided.
* `Item.foldlM_choose_eq_some_iff`: which items can be chosen, and what they come to.
* `Item.saidIn_foldl_put`: in the end, what each of them says is so.
* `Choices.items`: what has to be said for some choices.
* `Choices.foldlM_choose_items`: said in any order, they come to these choices.
-/

set_option autoImplicit false

namespace MountMatrix

inductive Topic where
  | command
  | addon
  | value (option : ValueOption)
  deriving DecidableEq

namespace Item

def topic : Item → Topic
  | command _ => .command
  | addon => .addon
  | setting option _ => .value option

def isValid : Item → Bool
  | command word => (Command.ofWord? word).isSome
  | addon => true
  | setting option value => option.accepts value

/-- The choices after the item, which decides anew what may have been decided before. -/
def put (choices : Choices) : Item → Choices
  | command word => { choices with command := Command.ofWord? word }
  | addon => { choices with addon := true }
  | setting option value => choices.withValue option value

/-- What the item says is so. -/
def SaidIn (choices : Choices) : Item → Prop
  | command word => choices.command = Command.ofWord? word
  | addon => choices.addon = true
  | setting option value => choices.value? option = some value

end Item

namespace Choices

/-- Nothing has been decided. -/
def isOpen (choices : Choices) : Topic → Bool
  | .command => choices.command.isNone
  | .addon => !choices.addon
  | .value option => (choices.value? option).isNone

theorem isOpen_empty (topic : Topic) : ({} : Choices).isOpen topic = true := by
  cases topic with
  | command | addon => rfl
  | value option => cases option <;> rfl

@[simp]
theorem command_withValue (choices : Choices) (option : ValueOption) (value : String) :
    (choices.withValue option value).command = choices.command := by
  cases option <;> rfl

@[simp]
theorem addon_withValue (choices : Choices) (option : ValueOption) (value : String) :
    (choices.withValue option value).addon = choices.addon := by
  cases option <;> rfl

theorem ext_value? {a b : Choices} (hcommand : a.command = b.command) (haddon : a.addon = b.addon)
    (hvalue : ∀ option, a.value? option = b.value? option) : a = b := by
  obtain ⟨_, _, _, _, _, _, _, _⟩ := a
  obtain ⟨_, _, _, _, _, _, _, _⟩ := b
  simp only [mk.injEq]
  exact ⟨hcommand, haddon, hvalue .version, hvalue .templateDir, hvalue .outputDir,
    hvalue .region, hvalue .failoverRegion, hvalue .privrepo⟩

end Choices

/-! ## Choosing items -/

namespace Item

variable {item other : Item} {items : List Item} {choices start result : Choices} {topic : Topic}

theorem choose_eq (choices : Choices) (item : Item) :
    item.choose choices =
      if choices.isOpen item.topic && item.isValid then some (item.put choices) else none := by
  cases item with
  | command word =>
    obtain ⟨command, _⟩ := choices
    cases command with
    | some command => rfl
    | none => cases hword : Command.ofWord? word <;>
        simp [choose, Choices.chooseCommand, Choices.isOpen, topic, isValid, put, hword]
  | addon =>
    obtain ⟨_, addon, _⟩ := choices
    cases addon <;> rfl
  | setting option value => rfl

@[simp]
theorem value?_put_command (word : String) (choices : Choices) (option : ValueOption) :
    ((command word).put choices).value? option = choices.value? option := by
  cases option <;> rfl

@[simp]
theorem value?_put_addon (choices : Choices) (option : ValueOption) :
    (addon.put choices).value? option = choices.value? option := by
  cases option <;> rfl

@[simp]
theorem value?_put_setting (option other : ValueOption) (value : String) (choices : Choices) :
    ((setting option value).put choices).value? other =
      if other = option then some value else choices.value? other :=
  Choices.value?_withValue choices option other value

theorem isOpen_put (hvalid : item.isValid = true) (choices : Choices) (topic : Topic) :
    (item.put choices).isOpen topic = (choices.isOpen topic && topic != item.topic) := by
  cases item with
  | command word =>
    cases topic with
    | command =>
      have hword : (Command.ofWord? word).isSome = true := hvalid
      simp [Choices.isOpen, put, Item.topic, hword]
    | addon => simp [Choices.isOpen, put, Item.topic]
    | value option => simp [Choices.isOpen, Item.topic]
  | addon =>
    cases topic with
    | command | addon => simp [Choices.isOpen, put, Item.topic]
    | value option => simp [Choices.isOpen, Item.topic]
  | setting option value =>
    cases topic with
    | command | addon => simp [Choices.isOpen, put, Item.topic]
    | value other => by_cases h : other = option <;> simp [Choices.isOpen, Item.topic, h]

theorem saidIn_put (item : Item) (choices : Choices) : item.SaidIn (item.put choices) := by
  cases item with
  | command word => rfl
  | addon => rfl
  | setting option value => simp [SaidIn]

theorem SaidIn.put (h : item.SaidIn choices) (hne : other.topic ≠ item.topic) :
    item.SaidIn (other.put choices) := by
  cases item with
  | command word =>
    cases other with
    | command _ => exact absurd rfl hne
    | addon => exact h
    | setting _ _ => simpa [SaidIn, Item.put] using h
  | addon =>
    cases other with
    | command _ => exact h
    | addon => exact absurd rfl hne
    | setting _ _ => simpa [SaidIn, Item.put] using h
  | setting option value =>
    cases other with
    | command | addon => simpa [SaidIn] using h
    | setting other _ =>
      have hother : option ≠ other := fun heq => hne (congrArg Topic.value heq.symm)
      simpa [SaidIn, hother] using h

/-! ## Choosing items one after the other -/

theorem isOpen_foldl_put (hvalid : ∀ item ∈ items, item.isValid = true)
    (hne : ∀ item ∈ items, item.topic ≠ topic) :
    (items.foldl put choices).isOpen topic = choices.isOpen topic := by
  induction items generalizing choices with
  | nil => rfl
  | cons item items ih =>
    obtain ⟨hitem, hrest⟩ := List.forall_mem_cons.mp hvalid
    obtain ⟨hfirst, hlater⟩ := List.forall_mem_cons.mp hne
    rw [List.foldl_cons, ih hrest hlater, isOpen_put hitem]
    simp [hfirst.symm]

theorem SaidIn.foldl_put (h : item.SaidIn choices)
    (hne : ∀ other ∈ items, other.topic ≠ item.topic) :
    item.SaidIn (items.foldl Item.put choices) := by
  induction items generalizing choices with
  | nil => exact h
  | cons other items ih =>
    obtain ⟨hfirst, hlater⟩ := List.forall_mem_cons.mp hne
    exact ih (h.put hfirst) hlater

/-- No item unsays what another one says. -/
theorem saidIn_foldl_put (hnodup : (items.map Item.topic).Nodup) (hmem : item ∈ items) :
    item.SaidIn (items.foldl put choices) := by
  obtain ⟨front, back, rfl⟩ := List.append_of_mem hmem
  rw [List.map_append, List.map_cons, List.nodup_append] at hnodup
  obtain ⟨hitem, -⟩ := List.nodup_cons.mp hnodup.2.1
  rw [List.foldl_append, List.foldl_cons]
  refine (saidIn_put item _).foldl_put fun other hother heq => hitem ?_
  exact heq ▸ List.mem_map_of_mem hother

/-- Items can be chosen when they are valid and each decides something that is open still, so that
no two of them decide the same thing. -/
theorem foldlM_choose_eq_some_iff :
    items.foldlM choose start = some result ↔
      (items.map Item.topic).Nodup ∧
        (∀ item ∈ items, item.isValid = true ∧ start.isOpen item.topic = true) ∧
        items.foldl put start = result := by
  induction items generalizing start with
  | nil => simp
  | cons item items ih =>
    rw [List.foldlM_cons, choose_eq, List.map_cons, List.nodup_cons, List.forall_mem_cons,
      List.foldl_cons]
    by_cases hitem : (start.isOpen item.topic && item.isValid) = true
    · rw [if_pos hitem]
      obtain ⟨hopen, hvalid⟩ := Bool.and_eq_true_iff.mp hitem
      refine ih.trans ?_
      simp only [isOpen_put hvalid, Bool.and_eq_true, bne_iff_ne, List.mem_map, not_exists, not_and]
      constructor
      · rintro ⟨hnodup, hall, hresult⟩
        exact ⟨⟨fun other hother => (hall other hother).2.2, hnodup⟩,
          ⟨⟨hvalid, hopen⟩, fun other hother => ⟨(hall other hother).1, (hall other hother).2.1⟩⟩,
          hresult⟩
      · rintro ⟨⟨hne, hnodup⟩, ⟨-, hall⟩, hresult⟩
        exact ⟨hnodup, fun other hother =>
          ⟨(hall other hother).1, (hall other hother).2, hne other hother⟩, hresult⟩
    · rw [if_neg hitem]
      constructor
      · intro h
        cases h
      · rintro ⟨-, ⟨⟨hvalid, hopen⟩, -⟩, -⟩
        exact absurd (Bool.and_eq_true_iff.mpr ⟨hopen, hvalid⟩) hitem

end Item

/-! ## The items of some choices -/

namespace Choices

variable {choices : Choices} {word : Option String} {item : Item} {topic : Topic}

/-- The items that say the choices, with a word for the command. -/
def items (choices : Choices) (word : Option String) : List Item :=
  (word.map Item.command).toList ++ (if choices.addon then [.addon] else []) ++
    ValueOption.all.filterMap fun option => (choices.value? option).map (.setting option)

theorem command_mem_items {text : String} :
    Item.command text ∈ choices.items word ↔ word = some text := by
  simp [items]

theorem addon_mem_items : Item.addon ∈ choices.items word ↔ choices.addon = true := by
  simp [items]

theorem setting_mem_items {option : ValueOption} {value : String} :
    Item.setting option value ∈ choices.items word ↔ choices.value? option = some value := by
  have hall : option ∈ ValueOption.all := by cases option <;> decide
  simp [items, hall]

theorem topics_settings_sublist (choices : Choices) (options : List ValueOption) :
    ((options.filterMap fun option => (choices.value? option).map (.setting option)).map
      Item.topic).Sublist (options.map .value) := by
  induction options with
  | nil => exact List.Sublist.slnil
  | cons option options ih =>
    cases hvalue : choices.value? option with
    | none =>
      rw [List.filterMap_cons_none (by rw [hvalue]; rfl)]
      exact ih.cons (.value option)
    | some value =>
      rw [List.filterMap_cons_some (b := .setting option value) (by rw [hvalue]; rfl)]
      exact ih.cons_cons (.value option)

theorem nodup_topics_items (choices : Choices) (word : Option String) :
    ((choices.items word).map Item.topic).Nodup := by
  have hword : ((word.map Item.command).toList.map Item.topic).Sublist [.command] := by
    cases word <;> simp [Item.topic]
  have haddon : ((if choices.addon then [Item.addon] else []).map Item.topic).Sublist [.addon] := by
    split <;> simp [Item.topic]
  have hall : ([Topic.command] ++ [Topic.addon] ++ ValueOption.all.map Topic.value).Nodup := by
    decide
  refine hall.sublist ?_
  rw [items, List.map_append, List.map_append]
  exact (hword.append haddon).append (topics_settings_sublist choices ValueOption.all)

section
variable (accepted : word.map Command.ofWord? = choices.command.map some)
include accepted

theorem exists_command_of_mem_items {text : String} (h : .command text ∈ choices.items word) :
    ∃ command, Command.ofWord? text = some command ∧ choices.command = some command := by
  rw [command_mem_items.mp h, Option.map_some] at accepted
  obtain ⟨command, hcommand, hword⟩ := Option.map_eq_some_iff.mp accepted.symm
  exact ⟨command, hword.symm, hcommand⟩

theorem saidIn_of_mem_items (h : item ∈ choices.items word) : item.SaidIn choices := by
  cases item with
  | command text =>
    obtain ⟨command, hword, hcommand⟩ := exists_command_of_mem_items accepted h
    exact hcommand.trans hword.symm
  | addon => exact addon_mem_items.mp h
  | setting option value => exact setting_mem_items.mp h

/-- What is decided is said by one of the items, and nothing else is said. -/
theorem exists_topic_iff :
    (∃ item ∈ choices.items word, item.topic = topic) ↔ choices.isOpen topic = false := by
  constructor
  · rintro ⟨item, hitem, rfl⟩
    cases item with
    | command text =>
      obtain ⟨command, -, hcommand⟩ := exists_command_of_mem_items accepted hitem
      simp [isOpen, Item.topic, hcommand]
    | addon => simpa [isOpen, Item.topic] using addon_mem_items.mp hitem
    | setting option value => simp [isOpen, Item.topic, setting_mem_items.mp hitem]
  · intro hdecided
    cases topic with
    | command =>
      obtain ⟨command, hcommand⟩ := Option.isSome_iff_exists.mp (by simpa [isOpen] using hdecided)
      rw [hcommand, Option.map_some] at accepted
      obtain ⟨text, hword, -⟩ := Option.map_eq_some_iff.mp accepted
      exact ⟨.command text, command_mem_items.mpr hword, rfl⟩
    | addon => exact ⟨.addon, addon_mem_items.mpr (by simpa [isOpen] using hdecided), rfl⟩
    | value option =>
      obtain ⟨value, hvalue⟩ := Option.isSome_iff_exists.mp (by simpa [isOpen] using hdecided)
      exact ⟨.setting option value, setting_mem_items.mpr hvalue, rfl⟩

theorem isValid_of_mem_items (htemplate : choices.templateDir ≠ some "")
    (houtput : choices.outputDir ≠ some "") (h : item ∈ choices.items word) :
    item.isValid = true := by
  cases item with
  | command text =>
    obtain ⟨command, hword, -⟩ := exists_command_of_mem_items accepted h
    rw [Item.isValid, hword]
    rfl
  | addon => rfl
  | setting option value =>
    have hvalue := setting_mem_items.mp h
    cases option with
    | templateDir => exact bne_iff_ne.mpr fun hempty => htemplate (hempty ▸ hvalue)
    | outputDir => exact bne_iff_ne.mpr fun hempty => houtput (hempty ▸ hvalue)
    | version | region | failoverRegion | privrepo => rfl

end

/-- Choices in which each thing is open in both, or said by one item in both, are the same. -/
theorem eq_of_said {a b : Choices}
    (h : ∀ topic, (a.isOpen topic = true ∧ b.isOpen topic = true) ∨
      ∃ item : Item, item.topic = topic ∧ item.SaidIn a ∧ item.SaidIn b) : a = b := by
  refine ext_value? ?_ ?_ fun option => ?_
  · rcases h .command with ⟨ha, hb⟩ | ⟨item, htopic, ha, hb⟩
    · exact (Option.isNone_iff_eq_none.mp ha).trans (Option.isNone_iff_eq_none.mp hb).symm
    · cases item with
      | command word => exact Eq.trans ha hb.symm
      | addon | setting option value => cases htopic
  · rcases h .addon with ⟨ha, hb⟩ | ⟨item, htopic, ha, hb⟩
    · exact Bool.not_inj (Eq.trans ha hb.symm)
    · cases item with
      | addon => exact Eq.trans ha hb.symm
      | command word | setting option value => cases htopic
  · rcases h (.value option) with ⟨ha, hb⟩ | ⟨item, htopic, ha, hb⟩
    · exact (Option.isNone_iff_eq_none.mp ha).trans (Option.isNone_iff_eq_none.mp hb).symm
    · cases item with
      | setting option value =>
        cases htopic
        exact Eq.trans ha hb.symm
      | command word | addon => cases htopic

/-- In any order the items come to the choices that they say. -/
theorem foldlM_choose_items (accepted : word.map Command.ofWord? = choices.command.map some)
    (htemplate : choices.templateDir ≠ some "") (houtput : choices.outputDir ≠ some "")
    {items : List Item} (order : items.Perm (choices.items word)) :
    items.foldlM Item.choose {} = some choices := by
  have hnodup : (items.map Item.topic).Nodup :=
    (order.map Item.topic).nodup_iff.mpr (nodup_topics_items choices word)
  have hvalid : ∀ item ∈ items, item.isValid = true := fun item hitem =>
    isValid_of_mem_items accepted htemplate houtput (order.mem_iff.mp hitem)
  refine Item.foldlM_choose_eq_some_iff.mpr ⟨hnodup, fun item hitem => ⟨hvalid item hitem, ?_⟩, ?_⟩
  · exact isOpen_empty item.topic
  refine eq_of_said fun topic => ?_
  cases hopen : choices.isOpen topic with
  | true =>
    left
    have hne : ∀ item ∈ items, item.topic ≠ topic := by
      intro item hitem htopic
      have hdecided := (exists_topic_iff accepted).mp ⟨item, order.mem_iff.mp hitem, htopic⟩
      rw [hopen] at hdecided
      cases hdecided
    exact ⟨(Item.isOpen_foldl_put hvalid hne).trans (isOpen_empty topic), rfl⟩
  | false =>
    right
    obtain ⟨item, hitem, htopic⟩ := (exists_topic_iff accepted).mpr hopen
    exact ⟨item, htopic, Item.saidIn_foldl_put hnodup (order.mem_iff.mpr hitem),
      saidIn_of_mem_items accepted hitem⟩

end Choices

end MountMatrix
