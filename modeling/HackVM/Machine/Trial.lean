/-
  Trials: assemble a text, preset cells, run it on a budget, read cells back.
-/
import HackVM.Machine.Basic
import HackVM.Rom.Assemble

namespace HackVM

open Rom

/-- The presets and the budget of a run, and the range `[first, last)` of cells to read back. -/
structure Trial where
  budget : Nat
  presets : List (Word × Int) := []
  first : Word
  last : Word

/-- A trial ends without a result: the text does not assemble, or the run meets a fault. -/
inductive TrialError where
  | assembly (errors : List AssemblyError)
  | machine (fault : AddressFault)

/-- The text of a failed trial. -/
def TrialError.message : TrialError → String
  | .assembly errors =>
    "assembly failed:\n" ++ String.intercalate "\n" (errors.map AssemblyError.message)
  | .machine fault => fault.message

/-- The outcome of the run, its cycles, and the signed values of the cells in range. -/
structure TrialResult where
  outcome : Outcome
  cycles : Nat
  cells : List (Word × Int)

/-- The addresses in `[first, last)`. -/
def addressRange (first last : Word) : List Word :=
  (List.range' first.toNat (last.toNat - first.toNat)).map UInt16.ofNat

/-- Assembles `source`, presets the cells, runs the budget; with the events of the assembler. -/
def Trial.run (trial : Trial) (source : String) : Except TrialError TrialResult × List Event :=
  match assemble source with
  | (.error errors, events) => (.error (.assembly errors), events)
  | (.ok program, events) =>
    let preset := trial.presets.foldl (fun m cell => m.poke cell.1 (Word.ofSigned cell.2))
      (Machine.boot program)
    match preset.run trial.budget with
    | (.error fault, _) => (.error (.machine fault), events)
    | (.ok outcome, m) =>
      let cells := (addressRange trial.first trial.last).map fun address =>
        (address, Word.signed (m.peek address))
      (.ok ⟨outcome, m.cycles.toNat, cells⟩, events)

end HackVM
