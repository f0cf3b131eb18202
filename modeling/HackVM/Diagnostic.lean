/-
  Diagnostics, with severity and location, and the report that collects them.
-/
import HackVM.Location

namespace HackVM

inductive Severity where
  | error
  | warning
deriving DecidableEq

def Severity.text : Severity → String
  | .error => "error"
  | .warning => "warning"

/-- A message with its severity and location, the source text of the command if there is one, and
notes. -/
structure Diagnostic where
  severity : Severity
  location : Location
  message : String
  sourceText : Option String := none
  notes : List String := []
deriving DecidableEq

/-- One line with location, severity and message, then one line per note. -/
def Diagnostic.text (diagnostic : Diagnostic) : String :=
  let source := match diagnostic.sourceText with
    | some text => s!" ({text})"
    | none => ""
  let notes := String.join (diagnostic.notes.map fun note => s!"\n  note: {note}")
  diagnostic.location.text ++ ": " ++ diagnostic.severity.text ++ ": " ++ diagnostic.message ++
    source ++ notes

/-- The diagnostics of a run, in the order of reporting. -/
structure Report where
  diagnostics : List Diagnostic := []
deriving DecidableEq

namespace Report

/-- The diagnostics of `first`, then those of `second`. -/
def append (first second : Report) : Report := ⟨first.diagnostics ++ second.diagnostics⟩

def count (report : Report) (severity : Severity) : Nat :=
  report.diagnostics.countP (·.severity = severity)

def errors (report : Report) : Nat := report.count .error

def warnings (report : Report) : Nat := report.count .warning

def hasErrors (report : Report) : Bool := 0 < report.errors

/-- `count` and `noun`, with a plural `s` unless `count = 1`. -/
def tally (count : Nat) (noun : String) : String :=
  toString count ++ " " ++ noun ++ (if count = 1 then "" else "s")

/-- The numbers of errors and warnings in words. -/
def summary (report : Report) : String :=
  match report.errors, report.warnings with
  | 0, 0 => "No errors or warnings"
  | 0, warnings => tally warnings "warning"
  | errors, 0 => tally errors "error"
  | errors, warnings => tally errors "error" ++ " and " ++ tally warnings "warning"

end Report

end HackVM
