/-
  Compiling a program: `opening`, then the modules in order, then `compileEnd`.
-/
import HackVM.Command.Source
import HackVM.Compile.Emission
import HackVM.Sweep

namespace HackVM.Compile

open Assembly

/-- The number of well-formed items in `steps`. -/
def commandCount (steps : List Step) : Nat := (steps.flatMap Step.items).countP Except.isOk

/-- The number of fused steps in `steps`. -/
def pairCount (steps : List Step) : Nat :=
  steps.countP fun step =>
    match step with
    | .fused _ _ => true
    | .single _ | .fault _ => false

/-- Enters `name` and runs `compileStep` along the steps of `items`. -/
def compileModule (options : Options) (s : State) (name : String) (items : List Item) :
    Emission × State :=
  let (s, entered) := s.enter name
  let steps := Step.ofItems options.fuse items
  let (emissions, s) := sweep (compileStep options) s steps
  ({ events := .startedModule name :: entered } ++ Emission.concat emissions ++
    { events := [.finishedModule name (commandCount steps) (pairCount steps)] }, s)

/-- `compileBootstrap` with its event. -/
def startProgram (options : Options) (s : State) (entry : Entry) : Emission × State :=
  let (emission, s) := compileBootstrap options s entry
  ({ events := [.startedBootstrap entry.function] } ++ emission, s)

/-- The part before the first module: the bootstrap if there is an `Entry`, and the initial
state. -/
def opening (options : Options) : Option Entry → Emission × State
  | some entry => startProgram options {} entry
  | none => ({}, {})

/-- Runs `compileModule` along `modules`, from `s`. -/
def compileModules (options : Options) (s : State) (modules : List (String × List Item)) :
    List Emission × State :=
  sweep (fun s (name, items) => compileModule options s name items) s modules

/-- The code of a program, its report and its events. -/
structure Artifact where
  code : List Inst
  report : Report
  events : List Event

namespace Artifact

def text (artifact : Artifact) : String := render artifact.code

def instructionCount (artifact : Artifact) : Nat := Assembly.instructionCount artifact.code

end Artifact

/-- Appends `compileEnd` to `work` and closes the report. -/
def finishProgram (options : Options) (s : State) (modules : Nat) (work : Emission) : Artifact :=
  let whole := work ++ compileEnd options s
  let report : Report := ⟨whole.diagnostics⟩
  { code := whole.code
    report
    events := whole.events ++
      [.finishedProgram modules (instructionCount whole.code) report.summary] }

/-- `opening`, then `compileModules`, then `compileEnd`. -/
def compileProgram (options : Options) (entry : Option Entry)
    (modules : List (String × List Item)) : Artifact :=
  let (start, s) := opening options entry
  let (emissions, s) := compileModules options s modules
  finishProgram options s modules.length (start ++ Emission.concat emissions)

/-- `compileProgram` of the items that `readModules` gives for `sources`. -/
def compileSources (options : Options) (entry : Option Entry) (sources : List (String × String)) :
    Artifact :=
  compileProgram options entry (readModules sources)

end HackVM.Compile
