/-
  Reading source text: significant lines, their words, and the commands that they spell.
-/
import HackVM.Command.Basic
import HackVM.Text.Line
import HackVM.Text.Numeral

namespace HackVM

/-- A significant line: its `text` before the comment, trimmed, with its words and its number. -/
structure Line where
  words : List String
  text : String
  number : UInt32
deriving DecidableEq

namespace Line

/-- The line of a physical line, `none` if nothing but blanks stands before the comment. -/
def ofChars? (number : UInt32) (chars : List Char) : Option Line :=
  let text := Text.trim (Text.uncommented chars)
  if text.isEmpty then none
  else some ⟨(Text.words text).map String.ofList, String.ofList text, number⟩

/-- The significant lines of `source`. Physical lines are counted from one in 32 bits, so that line
`2 ^ 32` has number zero. -/
def scan (source : String) : List Line :=
  ((Text.lines source.toList).zipIdx 1).filterMap fun line =>
    ofChars? (UInt32.ofNat line.2) line.1

end Line

/-- The number of physical lines of `source`, in 32 bits. -/
def lastLine (source : String) : UInt32 := UInt32.ofNat (Text.lines source.toList).length

/-- The reasons why the words of a line spell no command. -/
inductive Malformed where
  | empty
  | arity (keyword : String) (wanted found : Nat)
  | number (text : String)
  | unknown (keyword : String)
deriving DecidableEq

/-- The text of the error. -/
def Malformed.message : Malformed → String
  | .empty => "empty command"
  | .arity keyword wanted found =>
    let plural := if wanted = 1 then "" else "s"
    s!"'{keyword}' takes {wanted} argument{plural}, found {found}"
  | .number text => s!"expected a non-negative integer, found '{text}'"
  | .unknown keyword => s!"unknown command '{keyword}'"

namespace Opcode

/-- `opcode`, if no words follow `keyword`. -/
def ofNoArgument (keyword : String) (opcode : Opcode) : List String → Except Malformed Opcode
  | [] => .ok opcode
  | args => .error (.arity keyword 0 args.length)

/-- `make name`, if one word follows `keyword`. -/
def ofName (keyword : String) (make : String → Opcode) : List String → Except Malformed Opcode
  | [name] => .ok (make name)
  | args => .error (.arity keyword 1 args.length)

/-- `make name number`, if two words follow `keyword` and the second is a numeral up to 65535. The
arity is checked first. -/
def ofNameAndNumber (keyword : String) (make : String → Word → Opcode) :
    List String → Except Malformed Opcode
  | [name, number] =>
    match Text.readNat 65535 number.toList with
    | .ok value => .ok (make name (UInt16.ofNat value))
    | .error _ => .error (.number number)
  | args => .error (.arity keyword 2 args.length)

/-- The command with the given words. A lone word that is no keyword is an arithmetic word. -/
def ofWords : List String → Except Malformed Opcode
  | [] => .error .empty
  | keyword :: args =>
    match keyword with
    | "push" => ofNameAndNumber keyword .push args
    | "pop" => ofNameAndNumber keyword .pop args
    | "label" => ofName keyword .label args
    | "goto" => ofName keyword .goto args
    | "if-goto" => ofName keyword .ifGoto args
    | "function" => ofNameAndNumber keyword .function args
    | "call" => ofNameAndNumber keyword .call args
    | "return" => ofNoArgument keyword .ret args
    | word => if args.isEmpty then .ok (.arithmetic word) else .error (.unknown word)

end Opcode

/-- The command of a line of `moduleName`, or the fault `malformed` at its location. -/
def Line.item (moduleName : String) (line : Line) : Item :=
  let location : Location := ⟨moduleName, line.number⟩
  match Opcode.ofWords line.words with
  | .ok opcode => .ok ⟨opcode, line.text, location⟩
  | .error problem => .error (.malformed location problem.message)

/-- The items of the lines of `source`, in order. -/
def readModule (moduleName source : String) : List Item :=
  (Line.scan source).map (Line.item moduleName)

/-- `readModule` of each source. -/
def readModules (sources : List (String × String)) : List (String × List Item) :=
  sources.map fun (name, source) => (name, readModule name source)

end HackVM
