/-
  Carrying out a command line: what it prints and how it ends.
-/
import HackVM.CommandLine.Arguments
import HackVM.Project.Build

namespace HackVM.CommandLine

open Project

/-- The two outputs of a run and its exit code. -/
structure Transcript where
  code : UInt32 := 0
  out : String := ""
  err : String := ""

/-- `lines`, each ended by a line feed. -/
def textOfLines (lines : List String) : String := String.join (lines.map (· ++ "\n"))

/-- `error: message` and exit code 1. -/
def fatal (message : String) : Transcript :=
  { code := 1, err := textOfLines ["error: " ++ message] }

/-- `text` padded with spaces on the left to `width`. -/
def padLeft (width : Nat) (text : String) : String :=
  String.ofList (List.replicate (width - text.length) ' ') ++ text

/-- The report of a build. -/
def buildTranscript (built : Built) : Transcript :=
  let report := built.artifact.report
  let modules := Report.tally built.modules.length "module"
  let path := built.outputPath
  let count := built.artifact.instructionCount
  let suffix := if built.bootstrap then ", bootstrapped" else ""
  { code := if report.hasErrors then 1 else 0
    out := textOfLines [s!"Translated {modules} -> {path} ({count} instructions{suffix})"]
    err := textOfLines (report.diagnostics.map Diagnostic.text ++
      if report.hasErrors then [report.summary] else []) }

/-- The name of an outcome. -/
def outcomeText : Outcome → String
  | .halted => "halted"
  | .fellThrough => "ran off the end of the program"
  | .cycleLimit => "hit the cycle limit"

/-- The report of a trial run. -/
def trialTranscript (result : TrialResult) : Transcript :=
  let outcome := outcomeText result.outcome
  let cycles := result.cycles
  let cells := result.cells.map fun (address, value) =>
    "RAM[" ++ padLeft 5 (toString address.toNat) ++ "] = " ++ padLeft 6 (toString value)
  { code := if result.outcome = .cycleLimit then 2 else 0
    out := textOfLines (s!"{outcome} after {cycles} cycles" :: cells) }

variable {m : Type → Type} [Monad m] [FileSystem m]

/-- Builds `input` under its settings with `overrides`. -/
def buildInput (input : String) (output config : Option String) (overrides : Settings.Overrides) :
    Build m Built := do
  let settings ← match config with
    | some path => loadSettings path
    | none => findSettings input
  build (settings.override overrides) input output

/-- Carries out an action; returns the transcript and the events. -/
def Action.perform : Action → m (Transcript × List Event)
  | .translate input output config overrides => do
    let (result, events) ← ((buildInput input output config overrides).run []
      : m (Except BuildError Built × List Event))
    match result with
    | .ok built => return (buildTranscript built, events)
    | .error error => return (fatal error.message, events)
  | .run input trial => do
    match ← FileSystem.read (m := m) input with
    | .error error => return (fatal (s!"failed to read {input}: " ++ error.message), [])
    | .ok source =>
      match trial.run source with
      | (.ok result, events) => return (trialTranscript result, events)
      | (.error error, events) => return (fatal error.message, events)

/-- The output of `--version`. -/
def versionText : String := "vmt 0.1.0"

end HackVM.CommandLine
