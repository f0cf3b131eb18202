/-
  Settings of a project: read from a JSON text, changed by the command line.
-/
import HackVM.Compile.Emission
import HackVM.Text.Json

namespace HackVM.Project

open Compile Text

/-- `auto`: a bootstrap if the entry module is present. `always` and `never` as named. -/
inductive Policy where
  | auto | always | never
deriving DecidableEq

namespace Policy

def text : Policy → String
  | .auto => "auto"
  | .always => "always"
  | .never => "never"

/-- The policy with the given name. -/
def ofText? (text : String) : Option Policy :=
  [Policy.auto, .always, .never].find? (·.text == text)

/-- A string with the name, or an object whose one field has that name and is null. -/
def ofJson? : Json → Option Policy
  | .string (some text) => ofText? text
  | .object [(some text, .null)] => ofText? text
  | _ => none

end Policy

structure Settings where
  comments : Bool := false
  fuse : Bool := true
  bootstrap : Policy := .auto
  entryModule : String := ({} : Entry).moduleName
  entryFunction : String := ({} : Entry).function
deriving DecidableEq

namespace Settings

def bool? : Json → Option Bool
  | .bool value => some value
  | _ => none

def string? : Json → Option String
  | .string text => text
  | _ => none

/-- The known fields in order, each with the change that its value makes. -/
def fields : List (String × (Json → Settings → Option Settings)) :=
  [("comments", fun json s => (bool? json).map fun comments => { s with comments }),
    ("fuse", fun json s => (bool? json).map fun fuse => { s with fuse }),
    ("bootstrap", fun json s => (Policy.ofJson? json).map fun bootstrap => { s with bootstrap }),
    ("entry_module", fun json s =>
      (string? json).map fun entryModule => { s with entryModule }),
    ("entry_function", fun json s =>
      (string? json).map fun entryFunction => { s with entryFunction })]

/-- Applies the fields of an object. A known field occurs at most once, unknown ones are skipped. -/
def applyFields (seen : List String) (s : Settings) :
    List (Option String × Json) → Option Settings
  | [] => some s
  | (none, _) :: _ => none
  | (some name, json) :: rest =>
    match fields.lookup name with
    | none => applyFields seen s rest
    | some apply =>
      if seen.contains name then none
      else (apply json s).bind fun s => applyFields (name :: seen) s rest

/-- An object, or an array of the field values in order, which may be shorter. Missing values have
their defaults. -/
def ofJson? : Json → Option Settings
  | .object given => applyFields [] {} given
  | .array items =>
    if items.length ≤ fields.length then
      (items.zip fields).foldlM (fun s (json, _, apply) => apply json s) {}
    else none
  | _ => none

/-- The settings of a JSON text. -/
def parse? (text : String) : Option Settings := (Json.parse? text).bind ofJson?

/-- The settings that the command line gives. -/
structure Overrides where
  comments : Bool := false
  noFuse : Bool := false
  bootstrap : Option Policy := none
deriving DecidableEq

/-- `s` with `overrides` on top. -/
def override (s : Settings) (overrides : Overrides) : Settings :=
  { s with
    comments := s.comments || overrides.comments
    fuse := s.fuse && !overrides.noFuse
    bootstrap := overrides.bootstrap.getD s.bootstrap }

def options (s : Settings) : Options := ⟨s.comments, s.fuse⟩

def entry (s : Settings) : Entry := ⟨s.entryModule, s.entryFunction⟩

/-- The policy applied to the names of the modules. -/
def wantsBootstrap (s : Settings) (modules : List String) : Bool :=
  match s.bootstrap with
  | .always => true
  | .never => false
  | .auto => modules.contains s.entryModule

end Settings

end HackVM.Project
