/-
  Statements: the content of one line of assembly text, or the problem with it.
-/
import HackVM.Rom.Op
import HackVM.Text.Numeral

namespace HackVM.Rom

open Assembly

/-- The content of a line of assembly text. -/
inductive Statement where
  | label (name : String)
  | literal (value : Word)
  | symbol (name : String)
  | compute (dest : Option Dest) (comp : Comp) (jump : Option Jump)
deriving DecidableEq

/-- The reasons why a line is rejected. -/
inductive Problem where
  | unterminatedLabel (text : String)
  | emptyLabel
  | missingOperand
  | mnemonic (error : MnemonicError)
  | literalRange (text : String)
  | duplicateLabel (name : String)
deriving DecidableEq

/-- The text of a problem. -/
def Problem.message : Problem → String
  | .unterminatedLabel text => s!"unterminated label '{text}'"
  | .emptyLabel => "empty label"
  | .missingOperand => "missing operand after '@'"
  | .mnemonic error => error.message
  | .literalRange text => s!"literal {text} does not fit in 15 bits"
  | .duplicateLabel name => s!"label '{name}' is already defined"

/-- A problem with its line number. -/
structure AssemblyError where
  line : Nat
  problem : Problem
deriving DecidableEq

def AssemblyError.message (error : AssemblyError) : String :=
  "line " ++ toString error.line ++ ": " ++ error.problem.message

/-- The greatest literal of an address instruction. -/
def maxLiteral : Nat := 32767

namespace Statement

/-- The label of `rest`, which follows `(`. -/
def ofLabel (rest : List Char) : Except Problem Statement :=
  if rest.getLast? = some ')' then
    if rest.length = 1 then .error .emptyLabel
    else .ok (.label (String.ofList rest.dropLast))
  else .error (.unterminatedLabel (String.ofList ('(' :: rest)))

/-- The operand behind `@`: a literal if all characters are digits, else a name. -/
def ofOperand (operand : List Char) : Except Problem Statement :=
  if operand.isEmpty then .error .missingOperand
  else if operand.all Text.isDigit then
    match Text.readDigits maxLiteral 0 operand with
    | .ok value => .ok (.literal (UInt16.ofNat value))
    | .error _ => .error (.literalRange (String.ofList operand))
  else .ok (.symbol (String.ofList operand))

/-- `dest=comp;jump` with optional destination and jump. The destination is read first, then the
jump, then the computation. -/
def ofCompute (text : List Char) : Except MnemonicError Statement := do
  let (dest, rest) ← match Text.splitAtFirst '=' text with
    | some (dest, rest) => do pure (some (← Dest.parse (String.ofList dest)), rest)
    | none => pure (none, text)
  let (comp, jump) ← match Text.splitAtFirst ';' rest with
    | some (comp, jump) => do pure (comp, some (← Jump.parse (String.ofList jump)))
    | none => pure (rest, none)
  return .compute dest (← Comp.parse (String.ofList comp)) jump

/-- The statement of a line without comment and blanks, not empty. -/
def ofChars (text : List Char) : Except Problem Statement :=
  match text with
  | '(' :: rest => ofLabel rest
  | '@' :: operand => ofOperand operand
  | _ => (ofCompute text).mapError .mnemonic

/-- The statement of a physical line, `none` if it is empty up to blanks and comment. -/
def ofLine? (line : List Char) : Option (Except Problem Statement) :=
  let text := Text.squeeze (Text.uncommented line)
  if text.isEmpty then none else some (ofChars text)

/-- The statement takes up a ROM word: it is no label. -/
def isInstruction : Statement → Bool
  | .label _ => false
  | .literal _ | .symbol _ | .compute _ _ _ => true

end Statement

/-- The statements of the lines of `source`, numbered from one. -/
def statements (source : String) : List (Nat × Except Problem Statement) :=
  ((Text.lines source.toList).zipIdx 1).filterMap fun line =>
    (Statement.ofLine? line.1).map fun statement => (line.2, statement)

end HackVM.Rom
