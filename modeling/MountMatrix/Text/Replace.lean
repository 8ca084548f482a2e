/-! # Literal replacement

Replacing every occurrence of one text by another: the text is read from left to right, an
occurrence that is found is passed over whole, and what is put in its place is not read again.

* `replaceFrom`: the reading itself, on characters.
* `replaceAll`: the same on strings.
* `Occurs`: a text stands somewhere inside another.
-/

set_option autoImplicit false

namespace MountMatrix.Text

/-- Replaces `old` by `new`, after passing over the first `skip` characters, which belong to an
occurrence that has been replaced already. -/
def replaceFrom (old new : List Char) : Nat → List Char → List Char
  | _, [] => []
  | skip + 1, _ :: rest => replaceFrom old new skip rest
  | 0, c :: rest =>
    if old.isPrefixOf (c :: rest) then
      new ++ replaceFrom old new (old.length - 1) rest
    else
      c :: replaceFrom old new 0 rest

/-- The text with every occurrence of `old`, which is not empty, replaced by `new`. -/
def replaceAll (text old new : String) : String :=
  String.ofList (replaceFrom old.toList new.toList 0 text.toList)

def Occurs (part whole : List Char) : Prop :=
  part <:+: whole

instance (part whole : List Char) : Decidable (Occurs part whole) :=
  inferInstanceAs (Decidable (part <:+: whole))

/-! ## Reading step by step -/

section Steps

variable (old new : List Char)

@[simp]
theorem replaceFrom_nil (skip : Nat) : replaceFrom old new skip [] = [] := by
  cases skip <;> rfl

@[simp]
theorem replaceFrom_skip (passed rest : List Char) :
    replaceFrom old new passed.length (passed ++ rest) = replaceFrom old new 0 rest := by
  induction passed with
  | nil => rfl
  | cons c passed ih => simpa [replaceFrom] using ih

theorem replaceFrom_keep {c : Char} {rest : List Char} (h : ¬ old <+: c :: rest) :
    replaceFrom old new 0 (c :: rest) = c :: replaceFrom old new 0 rest := by
  simp [replaceFrom, h]

theorem replaceFrom_old (hold : old ≠ []) (rest : List Char) :
    replaceFrom old new 0 (old ++ rest) = new ++ replaceFrom old new 0 rest := by
  obtain ⟨c, tail, rfl⟩ := List.exists_cons_of_ne_nil hold
  have step := replaceFrom_skip (c :: tail) new tail rest
  simp [replaceFrom, step]

end Steps

theorem replaceFrom_of_not_occurs {old new text : List Char} (h : ¬ Occurs old text) :
    replaceFrom old new 0 text = text := by
  induction text with
  | nil => simp
  | cons c rest ih =>
    have keep : ¬ old <+: c :: rest := fun start => h start.isInfix
    have later : ¬ Occurs old rest := fun found =>
      h (found.trans (List.suffix_cons c rest).isInfix)
    rw [replaceFrom_keep old new keep, ih later]

end MountMatrix.Text
