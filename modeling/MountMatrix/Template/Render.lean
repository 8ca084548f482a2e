import MountMatrix.Template.Placeholder
import MountMatrix.Text.Replace

/-! # Rendering

A template is rendered by thirteen literal replacements of the whole text, one placeholder after
the other. A text that an earlier replacement put in is seen by the later ones, and a token that
names no placeholder stays.

* `render`: the replacements, in the order of `Placeholder.all`.
* `substitute`: one reading of the template, in which a value is never read again.
-/

set_option autoImplicit false

namespace MountMatrix.Template

def replaceEach (placeholders : List Placeholder) (v : Variant) (options : InstallOptions)
    (template : String) : String :=
  placeholders.foldl (fun text p => Text.replaceAll text p.token (p.value v options)) template

def render (template : String) (v : Variant) (options : InstallOptions) : String :=
  replaceEach Placeholder.all v options template

/-! ## Substitution in one reading -/

def leading? (text : List Char) : Option Placeholder :=
  Placeholder.all.find? fun p => p.token.toList.isPrefixOf text

/-- Puts the values in place while the text is read once, after passing over the first `skip`
characters. -/
def substituteFrom (v : Variant) (options : InstallOptions) : Nat → List Char → List Char
  | _, [] => []
  | skip + 1, _ :: rest => substituteFrom v options skip rest
  | 0, c :: rest =>
    match leading? (c :: rest) with
    | some p =>
      (p.value v options).toList ++ substituteFrom v options (p.token.toList.length - 1) rest
    | none => c :: substituteFrom v options 0 rest

/-- The template with the value of each token in its place, every other character being kept and no
value being read again. -/
def substitute (template : String) (v : Variant) (options : InstallOptions) : String :=
  String.ofList (substituteFrom v options 0 template.toList)

end MountMatrix.Template
