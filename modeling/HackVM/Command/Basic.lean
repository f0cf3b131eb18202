/-
  Commands with their place in the source, and the faults that a command can have.
-/
import HackVM.Command.Opcode
import HackVM.Location

namespace HackVM

/-- An opcode with its source text and location. -/
structure Command where
  opcode : Opcode
  sourceText : String
  location : Location
deriving DecidableEq

/-- `opcode` with its canonical text, at `Location.unknown`. -/
def Command.synthetic (opcode : Opcode) : Command := ⟨opcode, opcode.text, .unknown⟩

/-- The reasons for rejecting a command. -/
inductive Fault where
  | invalidSegment (segment : String)
  | unknownArithmetic (word : String)
  | indexOutOfRange (segment : String) (index limit : Nat)
  | tooManyArguments (callee : String) (args limit : Nat)
  | invalidPopTarget (segment : String)
  | malformed (location : Location) (message : String)
deriving DecidableEq

/-- The text of a fault. -/
def Fault.message : Fault → String
  | .invalidSegment segment => s!"invalid segment '{segment}'"
  | .unknownArithmetic word => s!"unrecognized arithmetic command '{word}'"
  | .indexOutOfRange segment index limit =>
    s!"index {index} is out of range for segment '{segment}' (limit {limit})"
  | .tooManyArguments callee args limit =>
    s!"call to '{callee}' passes {args} arguments (limit {limit})"
  | .invalidPopTarget segment => s!"cannot pop into segment '{segment}'"
  | .malformed location message => "parse error at " ++ location.text ++ ": " ++ message

/-- What reading gives for one line: a command, or the fault of the line. -/
abbrev Item := Except Fault Command

end HackVM
