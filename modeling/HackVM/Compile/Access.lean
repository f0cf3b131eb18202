/-
  Code of `push`, of `pop`, and of both as one `move`.
-/
import HackVM.Compile.Stack

namespace HackVM.Compile

open Assembly

/-- `D := source`, then `pushD`. -/
def push (source : Operand) : List Inst := operandToD source ++ pushD

/-- Pops into the cell of `target`: through `D` where the cell can be addressed without it, else by
`storeViaSum`. A constant has no cell. -/
def pop (target : Resolved) : Except Fault (List Inst) :=
  match target.operand with
  | .immediate _ => .error (.invalidPopTarget target.segment.name)
  | .direct address => .ok (popToD ++ [.load address, .assign .m .d])
  | .pointer base index =>
    if index ≤ 1 then .ok (popToD ++ targetToA base index ++ [.assign .m .d])
    else .ok (targetToD base index ++ storeViaSum true)

/-- Stores `source` in the cell of `target` and leaves `SP` alone. A far cell is stored by way of
the cell at `SP`, which is overwritten. -/
def move (source : Operand) (target : Resolved) : Except Fault (List Inst) :=
  match target.operand with
  | .immediate _ => .error (.invalidPopTarget target.segment.name)
  | .direct address => .ok (operandToD source ++ [.load address, .assign .m .d])
  | .pointer base index =>
    if index ≤ 1 then .ok (operandToD source ++ targetToA base index ++ [.assign .m .d])
    else .ok (operandToD source ++ [.reg .sp, .assign .a (.src .m), .assign .m .d] ++
      targetToD base index ++ storeViaSum false)

end HackVM.Compile
