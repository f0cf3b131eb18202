/-
  Assembly code as data, and its text: one instruction, label definition or comment a line.
-/
import HackVM.Assembly.Mnemonic

namespace HackVM.Assembly

/-- The named cells of compiled code: `SP`, the four pointers and `R13` to `R15`. -/
inductive Register where
  | sp | lcl | arg | this | that | r13 | r14 | r15
deriving DecidableEq

namespace Register

def name : Register → String
  | .sp => "SP"
  | .lcl => "LCL"
  | .arg => "ARG"
  | .this => "THIS"
  | .that => "THAT"
  | .r13 => "R13"
  | .r14 => "R14"
  | .r15 => "R15"

def address : Register → Word
  | .sp => 0
  | .lcl => 1
  | .arg => 2
  | .this => 3
  | .that => 4
  | .r13 => 13
  | .r14 => 14
  | .r15 => 15

/-- All named cells. -/
def all : List Register := [.sp, .lcl, .arg, .this, .that, .r13, .r14, .r15]

/-- The register at `address`. -/
def atAddress? (address : Word) : Option Register := all.find? (·.address == address)

end Register

/-- The operand of an address instruction: a number, a register or a symbol. -/
inductive Address where
  | const (value : Word)
  | reg (register : Register)
  | symbol (name : String)
deriving DecidableEq

def Address.text : Address → String
  | .const value => toString value.toNat
  | .reg register => register.name
  | .symbol name => name

/-- One line of assembly code. -/
inductive Inst where
  | load (address : Address)
  | assign (dest : Dest) (comp : Comp)
  | branch (comp : Comp) (jump : Jump)
  | label (name : String)
  | comment (text : String)
deriving DecidableEq

namespace Inst

/-- `@value`. -/
def const (value : Word) : Inst := .load (.const value)

/-- `@register`. -/
def reg (register : Register) : Inst := .load (.reg register)

/-- `@name`. -/
def symbol (name : String) : Inst := .load (.symbol name)

/-- `0;JMP`. -/
def jump : Inst := .branch .zero .jmp

/-- The text of a line, without its line feed. -/
def text : Inst → String
  | .load address => "@" ++ address.text
  | .assign dest comp => dest.text ++ "=" ++ comp.text
  | .branch comp jump => comp.text ++ ";" ++ jump.text
  | .label name => "(" ++ name ++ ")"
  | .comment text => "// " ++ text

/-- The line takes up a ROM word: it is neither a label nor a comment. -/
def isInstruction : Inst → Bool
  | .load _ | .assign _ _ | .branch _ _ => true
  | .label _ | .comment _ => false

end Inst

/-- The lines of `code`, each ended by a line feed. -/
def render (code : List Inst) : String := String.join (code.map fun inst => inst.text ++ "\n")

/-- The number of ROM words of `code`. -/
def instructionCount (code : List Inst) : Nat := code.countP Inst.isInstruction

end HackVM.Assembly
