/-
  ROM words and programs.
-/
import HackVM.Assembly.Mnemonic
import Std.Data.TreeMap

namespace HackVM.Rom

open Assembly

/-- One word of ROM: load a value into `A`, or compute a value, store it and perhaps jump. -/
inductive Op where
  | load (value : Word)
  | compute (dest : Option Dest) (comp : Comp) (jump : Option Jump)
deriving DecidableEq

/-- No destination and the condition `JMP`, with any computation. -/
def Op.isUnconditionalJump : Op → Bool
  | .compute none _ (some .jmp) => true
  | _ => false

/-- Names with their values, sorted by name. -/
abbrev SymbolTable := Std.TreeMap String Word

/-- The ROM of an assembled text, with the values of its labels and variables. -/
structure Program where
  ops : Array Op
  symbols : SymbolTable

/-- The predefined symbols: five pointers, `R0` to `R15`, `SCREEN` and `KBD`. -/
def predefined : List (String × Word) :=
  [("SP", 0), ("LCL", 1), ("ARG", 2), ("THIS", 3), ("THAT", 4),
    ("R0", 0), ("R1", 1), ("R2", 2), ("R3", 3), ("R4", 4), ("R5", 5), ("R6", 6), ("R7", 7),
    ("R8", 8), ("R9", 9), ("R10", 10), ("R11", 11), ("R12", 12), ("R13", 13), ("R14", 14),
    ("R15", 15), ("SCREEN", 16384), ("KBD", 24576)]

/-- The value of a predefined symbol. -/
def predefined? (name : String) : Option Word := predefined.lookup name

end HackVM.Rom
