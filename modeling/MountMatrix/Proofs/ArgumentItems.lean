import MountMatrix.CommandLine.Arguments

/-! # The items of a command line

An accepted command line is a list of items, each of them written in one or two arguments. What it
says is what the items choose, one after the other.

* `Item`: a command, the flag, or an option with its value.
* `Items.Written`: the ways to write a list of items.
* `Choices.parseFrom_eq_some_iff`: arguments are read as the items that they are written for.
* `Choices.under`: the same choices under another command.
* `Choices.exists_parse_under`: whatever can be chosen under one command can be under any other.
* `Choices.parseFrom_congr`: two words for one command.
-/

set_option autoImplicit false

namespace MountMatrix

inductive Item where
  | command (word : String)
  | addon
  | setting (option : ValueOption) (value : String)
  deriving DecidableEq

namespace Item

def choose (choices : Choices) : Item → Option Choices
  | command word => choices.chooseCommand word
  | addon => choices.chooseAddon
  | setting option value => choices.choose option value

def isOption : Item → Bool
  | command _ => false
  | addon => true
  | setting _ _ => true

/-- The ways to write an item where options can stand. -/
inductive Written : Item → List String → Prop where
  | command {text word : String} :
      Argument.ofText text = .word word → Written (command word) [text]
  | addon {text : String} :
      Argument.ofText text = .option "addon" none → Written addon [text]
  | attached {text value : String} {option : ValueOption} :
      Argument.ofText text = .option option.name (some value) →
      Written (setting option value) [text]
  | apart {text next value : String} {option : ValueOption} :
      Argument.ofText text = .option option.name none → Argument.ofText next = .word value →
      Written (setting option value) [text, next]

end Item

/-- The ways to write items one after the other. Behind a separator there are only commands. -/
inductive Items.Written : List Item → List String → Prop where
  | nil : Written [] []
  | cons {item : Item} {items : List Item} {texts arguments : List String} :
      item.Written texts → Written items arguments → Written (item :: items) (texts ++ arguments)
  | separator {text : String} {words : List String} :
      Argument.ofText text = .separator → Written (words.map Item.command) (text :: words)

namespace ValueOption

theorem name_of_find? {name : String} {option : ValueOption} (h : find? name = some option) :
    option.name = name := by
  have hname := List.find?_some h
  exact eq_of_beq hname

theorem name_ne_addon (option : ValueOption) : option.name ≠ "addon" := by
  cases option <;> decide

end ValueOption

/-! ## Reading items -/

namespace Choices

variable {start result : Choices} {arguments : List String}

theorem parseFrom_append {item : Item} {texts : List String} (h : item.Written texts)
    (start : Choices) (rest : List String) :
    start.parseFrom (texts ++ rest) = (item.choose start).bind fun next => next.parseFrom rest := by
  cases h with
  | command htext => simp [parseFrom, htext, Item.choose]
  | addon htext => simp [parseFrom, htext, Item.choose]
  | @attached _ _ option htext => simp [parseFrom, htext, option.name_ne_addon, Item.choose]
  | @apart _ _ _ option htext hnext =>
    simp [parseFrom, htext, hnext, option.name_ne_addon, Item.choose]

theorem parseFrom_of_written {items : List Item} (h : Items.Written items arguments)
    (start : Choices) : start.parseFrom arguments = items.foldlM Item.choose start := by
  induction h generalizing start with
  | nil => rfl
  | cons hitem _ ih =>
    rw [parseFrom_append hitem, List.foldlM_cons]
    exact congrArg (Option.bind _) (funext ih)
  | separator htext =>
    rw [parseFrom, htext, List.foldlM_map]
    rfl

theorem exists_items_of_next {item : Item} {texts : List String} (hitem : item.Written texts)
    (hrest : ∀ next : Choices, next.parseFrom arguments = some result →
      ∃ items, Items.Written items arguments ∧ items.foldlM Item.choose next = some result)
    (h : ((item.choose start).bind fun next => next.parseFrom arguments) = some result) :
    ∃ items, Items.Written items (texts ++ arguments) ∧
      items.foldlM Item.choose start = some result := by
  obtain ⟨next, hnext, hparse⟩ := Option.bind_eq_some_iff.mp h
  obtain ⟨items, hwritten, hitems⟩ := hrest next hparse
  refine ⟨item :: items, .cons hitem hwritten, ?_⟩
  rw [List.foldlM_cons, hnext]
  exact hitems

theorem exists_items_of_parseFrom (h : start.parseFrom arguments = some result) :
    ∃ items, Items.Written items arguments ∧ items.foldlM Item.choose start = some result := by
  fun_induction parseFrom start arguments with
  | case1 start => exact ⟨[], .nil, h⟩
  | case2 start text words htext =>
    exact ⟨words.map Item.command, .separator htext, by rw [List.foldlM_map]; exact h⟩
  | case4 start text rest word htext ih =>
    exact exists_items_of_next (.command htext) ih h
  | case6 start text rest attached hattached htext ih =>
    rw [Option.not_isSome_iff_eq_none.mp hattached] at htext
    exact exists_items_of_next (.addon htext) ih h
  | case8 start text name _ option value rest hname htext ih =>
    rw [← ValueOption.name_of_find? hname] at htext
    exact exists_items_of_next (.attached htext) ih h
  | case10 start text name _ option next rest hname value hnext htext ih =>
    rw [← ValueOption.name_of_find? hname] at htext
    exact exists_items_of_next (.apart htext hnext) ih h
  | case3 | case5 | case7 | case9 | case11 => cases h

theorem parseFrom_eq_some_iff :
    start.parseFrom arguments = some result ↔
      ∃ items, Items.Written items arguments ∧ items.foldlM Item.choose start = some result := by
  refine ⟨exists_items_of_parseFrom, ?_⟩
  rintro ⟨items, hwritten, hitems⟩
  rw [parseFrom_of_written hwritten]
  exact hitems

/-! ## Another command -/

/-- The same choices, but for the command. -/
def under (choices : Choices) (command : Command) : Choices :=
  { choices with command := some command }

@[simp]
theorem value?_under (choices : Choices) (command : Command) (option : ValueOption) :
    (choices.under command).value? option = choices.value? option := by
  cases option <;> rfl

@[simp]
theorem withValue_under (choices : Choices) (command : Command) (option : ValueOption)
    (value : String) :
    (choices.under command).withValue option value =
      (choices.withValue option value).under command := by
  cases option <;> rfl

end Choices

namespace Item

variable {choices next : Choices}

theorem choose_under {item : Item} (h : item.isOption = true) (choices : Choices)
    (command : Command) :
    item.choose (choices.under command) = (item.choose choices).map (·.under command) := by
  cases item with
  | command word => cases h
  | addon =>
    obtain ⟨_, addon, _⟩ := choices
    cases addon <;> rfl
  | setting option value =>
    simp only [choose, Choices.choose, Choices.value?_under, Choices.withValue_under]
    split <;> rfl

theorem under_of_choose_command {word : String} (h : (command word).choose choices = some next)
    (other : Command) : next.under other = choices.under other := by
  simp only [choose, Choices.chooseCommand] at h
  split at h
  · obtain rfl := Option.some.inj h
    rfl
  · cases h

/-- Without the commands among them, items choose the same under a command chosen before. -/
theorem foldlM_under {items : List Item} {start result : Choices}
    (h : items.foldlM choose start = some result) (command : Command) :
    (items.filter isOption).foldlM choose (start.under command) = some (result.under command) := by
  induction items generalizing start with
  | nil =>
    obtain rfl := Option.some.inj h
    rfl
  | cons item items ih =>
    rw [List.foldlM_cons] at h
    obtain ⟨next, hnext, hrest⟩ := Option.bind_eq_some_iff.mp h
    have hlater := ih hrest
    cases hitem : item.isOption with
    | true =>
      rw [List.filter_cons_of_pos hitem, List.foldlM_cons, choose_under hitem, hnext]
      exact hlater
    | false =>
      rw [List.filter_cons_of_neg (by simp [hitem])]
      cases item with
      | command word =>
        rw [← under_of_choose_command hnext]
        exact hlater
      | addon => cases hitem
      | setting option value => cases hitem

end Item

theorem Items.Written.exists_options {items : List Item} {arguments : List String}
    (h : Written items arguments) : ∃ others, Written (items.filter Item.isOption) others := by
  induction h with
  | nil => exact ⟨[], .nil⟩
  | @cons item _ texts _ hitem _ ih =>
    obtain ⟨others, hothers⟩ := ih
    cases hoption : item.isOption with
    | true =>
      rw [List.filter_cons_of_pos hoption]
      exact ⟨texts ++ others, .cons hitem hothers⟩
    | false =>
      rw [List.filter_cons_of_neg (by simp [hoption])]
      exact ⟨others, hothers⟩
  | @separator _ words _ =>
    have hnone : (words.map Item.command).filter Item.isOption = [] := by
      simp [Item.isOption]
    exact ⟨[], hnone ▸ .nil⟩

theorem Command.exists_word (command : Command) :
    ∃ word, ofWord? word = some command ∧ Argument.ofText word = .word word := by
  cases command with
  | default => exact ⟨"default", by decide⟩
  | createSecrets => exact ⟨"create-secrets", by decide⟩
  | cleanupSecrets => exact ⟨"cleanup-secrets", by decide⟩
  | generateFiles => exact ⟨"generate-files", by decide⟩
  | cleanupFiles => exact ⟨"cleanup-files", by decide⟩
  | validateImage => exact ⟨"validate-image", by decide⟩

namespace Choices

/-- Whatever can be chosen, with a command or without, can be chosen under any command. -/
theorem exists_parse_under {arguments : List String} {choices : Choices}
    (h : parse arguments = some choices) (command : Command) :
    ∃ others, parse others = some (choices.under command) := by
  obtain ⟨items, hwritten, hitems⟩ := parseFrom_eq_some_iff.mp h
  obtain ⟨others, hothers⟩ := hwritten.exists_options
  obtain ⟨word, hword, htext⟩ := command.exists_word
  have hfirst : ({} : Choices).chooseCommand word = some (({} : Choices).under command) := by
    simp [chooseCommand, hword, under]
  refine ⟨[word] ++ others,
    parseFrom_eq_some_iff.mpr ⟨_, .cons (.command htext) hothers, ?_⟩⟩
  rw [List.foldlM_cons]
  simp only [Item.choose, hfirst]
  exact Item.foldlM_under hitems command

end Choices

/-! ## Words for the same command -/

/-- An option whose value has to follow as the next argument. -/
def Argument.AwaitsValue (text : String) : Prop :=
  ∃ option : ValueOption, ofText text = .option option.name none

namespace Choices

variable {word other : String}

theorem chooseCommand_congr (h : Command.ofWord? word = Command.ofWord? other)
    (choices : Choices) : choices.chooseCommand word = choices.chooseCommand other := by
  rw [chooseCommand, chooseCommand, h]

/-- Where a word is not the value of an option, another word for the same command does as well,
whether the arguments are accepted or not. -/
theorem parseFrom_congr (hword : Argument.ofText word = .word word)
    (hother : Argument.ofText other = .word other)
    (h : Command.ofWord? word = Command.ofWord? other) (start : Choices)
    {before : List String} (hlast : ∀ text ∈ before.getLast?, ¬ Argument.AwaitsValue text)
    (after : List String) :
    start.parseFrom (before ++ word :: after) = start.parseFrom (before ++ other :: after) := by
  have hnext : ∀ {text : String} {rest : List String},
      (∀ last ∈ (text :: rest).getLast?, ¬ Argument.AwaitsValue last) →
        ∀ last ∈ rest.getLast?, ¬ Argument.AwaitsValue last := by
    intro text rest hlast last hmem
    refine hlast last ?_
    rw [List.getLast?_cons, Option.mem_def.mp hmem]
    rfl
  fun_induction parseFrom start before with
  | case1 start =>
    simp only [List.nil_append, parseFrom, hword, hother, chooseCommand_congr h]
  | case2 start text words htext =>
    simp only [List.cons_append, parseFrom, htext, List.foldlM_append, List.foldlM_cons,
      chooseCommand_congr h]
  | case3 start text rest htext => simp only [List.cons_append, parseFrom, htext]
  | case4 start text rest word' htext ih =>
    simp only [List.cons_append, parseFrom, htext]
    exact congrArg _ (funext fun next => ih next (hnext hlast))
  | case5 start text rest attached hattached htext =>
    simp only [List.cons_append, parseFrom, htext, hattached, if_true]
  | case6 start text rest attached hattached htext ih =>
    simp only [List.cons_append, parseFrom, htext, hattached, if_true, Bool.false_eq_true, if_false]
    exact congrArg _ (funext fun next => ih next (hnext hlast))
  | case7 start text rest name attached hname hfind htext =>
    simp only [List.cons_append, parseFrom, htext, hname, hfind, if_false]
  | case8 start text name hname option value rest hfind htext ih =>
    simp only [List.cons_append, parseFrom, htext, hname, hfind, if_false]
    exact congrArg _ (funext fun next => ih next (hnext hlast))
  | case9 start text name hname option hfind htext =>
    rw [← ValueOption.name_of_find? hfind] at htext
    exact absurd ⟨option, htext⟩ (hlast text rfl)
  | case10 start text name hname option next rest hfind value hvalue htext ih =>
    simp only [List.cons_append, parseFrom, htext, hname, hfind, hvalue, if_false]
    exact congrArg _ (funext fun next => ih next (hnext (hnext hlast)))
  | case11 start text name hname option next rest hfind hvalue htext =>
    simp only [List.cons_append, parseFrom, htext, hname, hfind, if_false]

end Choices

end MountMatrix
