/-
  Values on the command line: how each option reads its text.
-/
import HackVM.Machine.Trial
import HackVM.Project.Settings

namespace HackVM.CommandLine

open Project Text

/-- The reasons why a command line is not carried out. The last three ask for the usage text or the
version. -/
inductive UsageError where
  | invalidText (message : String)
  | invalidValue
  | missingInput
  | unknownArgument
  | repeatedOption
  | surplusValue
  | unknownSubcommand
  | missingSubcommand
  | noArguments
  | help
  | version

/-- The text before and after the first `..`. -/
def splitAtDots : List Char → Option (List Char × List Char)
  | '.' :: '.' :: rest => some ([], rest)
  | c :: rest => (splitAtDots rest).map fun (before, after) => (c :: before, after)
  | [] => none

/-- A budget, up to `2 ^ 64 - 1`. -/
def readCycles (text : String) : Except String Nat :=
  (readNat 18446744073709551615 text.toList).mapError NumeralError.message

/-- A range `START..END` of cells. -/
def readRange (text : String) : Except String (Word × Word) :=
  match splitAtDots text.toList with
  | none => .error s!"expected START..END, found '{text}'"
  | some (start, stop) =>
    match readNat 65535 (trim start), readNat 65535 (trim stop) with
    | .error _, _ =>
      let start := String.ofList start
      .error s!"invalid start '{start}'"
    | .ok _, .error _ =>
      let stop := String.ofList stop
      .error s!"invalid end '{stop}'"
    | .ok first, .ok last =>
      if last < first then .error s!"range {text} is backwards"
      else .ok (UInt16.ofNat first, UInt16.ofNat last)

/-- A preset `ADDRESS=VALUE`. -/
def readPreset (text : String) : Except String (Word × Int) :=
  match splitAtFirst '=' text.toList with
  | none => .error s!"expected ADDRESS=VALUE, found '{text}'"
  | some (address, value) =>
    match readNat 65535 (trim address), readInt 32767 (trim value) with
    | .error _, _ =>
      let address := String.ofList address
      .error s!"invalid address '{address}'"
    | .ok _, .error _ =>
      let value := String.ofList value
      .error s!"invalid value '{value}'"
    | .ok address, .ok value => .ok (UInt16.ofNat address, value)

/-- A path, not empty. -/
def readPath (text : String) : Except UsageError String :=
  if text.isEmpty then .error .invalidValue else .ok text

/-- The name of a bootstrap policy. -/
def readPolicy (text : String) : Except UsageError Policy :=
  match Policy.ofText? text with
  | some policy => .ok policy
  | none => .error .invalidValue

end HackVM.CommandLine
