/-
  Code for the stack and for operands. The stack grows upwards from where `SP` points, and `D`
  carries a value between the pieces.
-/
import HackVM.Assembly.Instruction
import HackVM.Segment.Operand

namespace HackVM.Compile

open Assembly

/-- `RAM[SP] := D`, `SP := SP + 1`. -/
def pushD : List Inst :=
  [.reg .sp, .assign .am (.incSrc .m), .assign .a (.decSrc .a), .assign .m .d]

/-- `SP := SP - 1`, `A := SP`, `D := RAM[A]`. -/
def popToD : List Inst :=
  [.reg .sp, .assign .am (.decSrc .m), .assign .d (.src .m)]

/-- `A := SP - 1`. -/
def topToA : List Inst := [.reg .sp, .assign .a (.decSrc .m)]

/-- `D := value`, without a load for `0` and `1`. -/
def constToD (value : Word) : List Inst :=
  if value = 0 then [.assign .d .zero]
  else if value = 1 then [.assign .d .one]
  else [.const value, .assign .d (.src .a)]

/-- `A := RAM[base] + index`, without `D` for indices `0` and `1`. -/
def targetToA (base : Register) (index : Word) : List Inst :=
  if index = 0 then [.reg base, .assign .a (.src .m)]
  else if index = 1 then [.reg base, .assign .a (.incSrc .m)]
  else [.reg base, .assign .d (.src .m), .const index, .assign .a (.add .a)]

/-- `D := RAM[base] + index`. -/
def targetToD (base : Register) (index : Word) : List Inst :=
  if index = 0 then [.reg base, .assign .d (.src .m)]
  else if index = 1 then [.reg base, .assign .d (.incSrc .m)]
  else [.reg base, .assign .d (.src .m), .const index, .assign .d (.add .a)]

/-- `D := v` for the value `v` of the operand. -/
def operandToD : Operand → List Inst
  | .immediate value => constToD value
  | .pointer base index => targetToA base index ++ [.assign .d (.src .m)]
  | .direct address => [.load address, .assign .d (.src .m)]

/-- `RAM[D] := v` for the value `v` in the cell at `SP`, or at `SP - 1` with `SP := SP - 1` if
`pops`: by `D := D + v`, `A := D - v`, `RAM[A] := D - A`, so that no scratch cell is used. -/
def storeViaSum (pops : Bool) : List Inst :=
  [.reg .sp, if pops then .assign .am (.decSrc .m) else .assign .a (.src .m),
    .assign .d (.add .m), .assign .a (.sub .m), .assign .m (.sub .a)]

end HackVM.Compile
