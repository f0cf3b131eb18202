/-
  Building a project: find its modules and settings, compile, and write the artifact in one move.
-/
import HackVM.Compile.Program
import HackVM.Project.FileSystem
import HackVM.Project.Path
import HackVM.Project.Settings

namespace HackVM.Project

open Compile

/-- The reasons why a project is not built. -/
inductive BuildError where
  | noModules (input : String)
  | notAProject (input : String)
  | noModuleName (path : String)
  | unreadableModule (path : String) (error : FileError)
  | unreadableSettings (path : String) (error : FileError)
  | invalidSettings (path : String)
  | notCreated (path : String) (error : FileError)
  | notMoved (source target : String) (error : FileError)

/-- The text of the error. -/
def BuildError.message : BuildError → String
  | .noModules input => s!"no .vm files in {input}"
  | .notAProject input => s!"{input} is neither a .vm file nor a directory"
  | .noModuleName path => s!"cannot derive a module name from {path}"
  | .unreadableModule path error => s!"failed to read {path}: " ++ error.message
  | .unreadableSettings path error => s!"failed to read config {path}: " ++ error.message
  | .invalidSettings path => s!"invalid config {path}"
  | .notCreated path error => s!"failed to create {path}: " ++ error.message
  | .notMoved source target error => s!"failed to move {source} to {target}: " ++ error.message

/-- File operations with a `BuildError` and a log of events. -/
abbrev Build (m : Type → Type) := ExceptT BuildError (StateT (List Event) m)

variable {m : Type → Type} [Monad m]

def tell (events : List Event) : Build m Unit := modify (· ++ events)

/-- `operation`, with its `FileError` turned into a `BuildError` by `reason`. -/
def attempt {α : Type} (operation : m (Except FileError α)) (reason : FileError → BuildError) :
    Build m α := do
  match ← (operation : m (Except FileError α)) with
  | .ok value => return value
  | .error error => throw (reason error)

/-! ## Modules -/

/-- A module name and the path of its source. -/
structure ModuleFile where
  name : String
  path : String

/-- The extension of a module's source file. -/
def moduleExtension : String := "vm"

/-- The module of a path: its name is the stem of the file name. -/
def ModuleFile.ofPath (path : String) : Except BuildError ModuleFile :=
  match Path.stem? path with
  | some name => .ok ⟨name, path⟩
  | none => .error (.noModuleName path)

/-- `name` ends in `.vm`. -/
def isModuleName (name : String) : Bool := ('.' :: moduleExtension.toList).isSuffixOf name.toList

/-- One part of the listed path. Leading dots are dropped; an empty part there gives `none`. -/
def listedPart (directory : Option String) (part : String) : Option (Option String) :=
  match directory with
  | some directory => some (some (Path.join directory part))
  | none =>
    if part = "." then some none
    else if part.isEmpty then none
    else some (some part)

/-- The path in front of the listed files, `some none` for the current directory. -/
def listedDirectory (input : String) : Option (Option String) :=
  match Path.parts input with
  | "" :: rest => rest.foldlM listedPart (some "/")
  | parts => parts.foldlM listedPart none

/-- The path of a file in a listed directory. -/
def listedFile (directory : Option String) (name : String) : String :=
  match directory with
  | some directory => Path.join directory name
  | none => name

variable [FileSystem m]

/-- The paths of the `.vm` files in a directory, sorted by name. -/
def modulePaths (input : String) : m (List String) := do
  match listedDirectory input with
  | none => return []
  | some directory =>
    let names := ((← FileSystem.names input).filter isModuleName).mergeSort (· ≤ ·)
    (names.map (listedFile directory)).filterM FileSystem.isFile

/-- The modules of a directory, or the module of a single file. -/
def findModules (input : String) : Build m (List ModuleFile) := do
  if ← FileSystem.isDirectory (m := m) input then
    let paths ← (modulePaths input : m (List String))
    if paths.isEmpty then throw (.noModules input)
    tell [.foundModules paths.length input]
    paths.mapM fun path => liftExcept (ModuleFile.ofPath path)
  else if Path.extension? input = some moduleExtension then
    return [← liftExcept (ModuleFile.ofPath input)]
  else throw (.notAProject input)
where
  liftExcept {α : Type} (result : Except BuildError α) : Build m α :=
    match result with
    | .ok value => return value
    | .error error => throw error

/-! ## Settings -/

/-- The file name of the settings. -/
def settingsName : String := "vmt.json"

/-- The settings in the file at `path`. -/
def loadSettings (path : String) : Build m Settings := do
  let text ← attempt (FileSystem.read (m := m) path) (.unreadableSettings path)
  match Settings.parse? text with
  | some settings => return settings
  | none => throw (.invalidSettings path)

/-- `settingsName` inside the input directory, or beside the input file. -/
def settingsPath (input : String) : m String := do
  if ← FileSystem.isDirectory input then return Path.join input settingsName
  else match Path.parent? input with
    | some directory => return Path.join directory settingsName
    | none => return settingsName

/-- The settings at `settingsPath`, the defaults if there is no such file. -/
def findSettings (input : String) : Build m Settings := do
  let path ← (settingsPath input : m String)
  if ← FileSystem.isFile (m := m) path then
    tell [.foundSettings path]
    loadSettings path
  else return {}

/-! ## The artifact -/

/-- The `.asm` path of an input: inside a directory under its name, beside a file. -/
def defaultOutput (input : String) : m String := do
  if ← FileSystem.isDirectory input then
    let name := (← FileSystem.directoryName input).getD "out"
    return Path.join input (name ++ ".asm")
  else return Path.withExtension input "asm"

/-- Writes to a temporary file beside `path` and moves it there, so that no half-written file is
seen. -/
def writeFile (path text : String) : Build m Unit := do
  let draft := path ++ ".tmp"
  attempt (FileSystem.write (m := m) draft text) (.notCreated draft)
  attempt (FileSystem.move (m := m) draft path) (.notMoved draft path)

/-- The path of the artifact, the module names in order, whether there is a bootstrap, and the
artifact. -/
structure Built where
  outputPath : String
  modules : List String
  bootstrap : Bool
  artifact : Artifact

/-- Finds the modules, compiles them and writes the artifact, also if commands were rejected. -/
def build (settings : Settings) (input : String) (output : Option String) : Build m Built := do
  let files ← findModules input
  let sources ← files.mapM fun file => do
    return (file.name, ← attempt (FileSystem.read (m := m) file.path) (.unreadableModule file.path))
  let modules := files.map ModuleFile.name
  let bootstrap := settings.wantsBootstrap modules
  tell [.startedProject modules.length bootstrap]
  let artifact := compileSources settings.options (if bootstrap then some settings.entry else none)
    sources
  tell artifact.events
  let outputPath ← match output with
    | some path => pure path
    | none => (defaultOutput input : m String)
  writeFile outputPath artifact.text
  tell [.wroteArtifact outputPath]
  return { outputPath, modules, bootstrap, artifact }

end HackVM.Project
