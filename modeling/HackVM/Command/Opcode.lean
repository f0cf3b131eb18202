/-
  Commands of the stack machine and their canonical text.
-/
import HackVM.Word

namespace HackVM

/-- The commands of the stack machine. Segment names and arithmetic words are kept as texts and
checked by `Compile.lower`. -/
inductive Opcode where
  | arithmetic (word : String)
  | push (segment : String) (index : Word)
  | pop (segment : String) (index : Word)
  | label (name : String)
  | goto (name : String)
  | ifGoto (name : String)
  | function (name : String) (locals : Word)
  | call (name : String) (args : Word)
  | ret
deriving DecidableEq

namespace Opcode

/-- The canonical text: words with one space between them. -/
def text : Opcode → String
  | .arithmetic word => word
  | .push segment index => "push " ++ segment ++ " " ++ toString index.toNat
  | .pop segment index => "pop " ++ segment ++ " " ++ toString index.toNat
  | .label name => "label " ++ name
  | .goto name => "goto " ++ name
  | .ifGoto name => "if-goto " ++ name
  | .function name locals => "function " ++ name ++ " " ++ toString locals.toNat
  | .call name args => "call " ++ name ++ " " ++ toString args.toNat
  | .ret => "return"

def isPush : Opcode → Bool
  | .push _ _ => true
  | _ => false

def isPop : Opcode → Bool
  | .pop _ _ => true
  | _ => false

end Opcode

end HackVM
