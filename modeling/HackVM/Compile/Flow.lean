/-
  Code for labels and jumps, for calls, functions and returns, and for the two ends of a program.

  A call pushes the return address and the four segment pointers, in the order `LCL`, `ARG`,
  `THIS`, `THAT`. Then `ARG` points at the first argument and `LCL` behind the saved pointers. A
  return puts its value in place of the first argument and restores the pointers.
-/
import HackVM.Compile.Label
import HackVM.Compile.Stack

namespace HackVM.Compile

open Assembly

/-! ## Labels and jumps -/

/-- `(name)`. -/
def label (name : String) : List Inst := [.label name]

/-- `@name`, `0;JMP`. -/
def goto (name : String) : List Inst := [.symbol name, .jump]

/-- Pops into `D` and jumps to `name` if `D ≠ 0`. -/
def ifGoto (name : String) : List Inst := popToD ++ [.symbol name, .branch .d .jne]

/-! ## Calls -/

/-- The words of a frame: the return address and four pointers. -/
def frameSize : Word := 5

/-- Argument counts are below it, so that `args + frameSize` is a literal. -/
def argumentLimit : Nat := Segment.literalCount - frameSize.toNat

/-- The label `name`, then `locals` zeros from `SP` on and `SP := SP + locals`. -/
def function (name : String) (locals : Word) : List Inst :=
  if locals = 0 then [.label name]
  else [.label name, .reg .sp, .assign .a (.src .m)] ++
    (List.replicate locals.toNat
      [Inst.assign .m .zero, Inst.assign .a (.incSrc .a)]).flatten ++
    [.assign .d (.src .a), .reg .sp, .assign .m .d]

/-- Pushes `RAM[register]`. -/
def pushRegister (register : Register) : List Inst :=
  [.reg register, .assign .d (.src .m)] ++ pushD

/-- Pushes the address of `returnLabel`, `LCL`, `ARG`, `THIS` and `THAT`, sets `LCL := SP` and
`ARG := SP - args - frameSize`, jumps to `callee`, and defines `returnLabel` behind the jump. -/
def call (callee : String) (args : Word) (returnLabel : String) : List Inst :=
  [.symbol returnLabel, .assign .d (.src .a)] ++ pushD ++
  [Register.lcl, .arg, .this, .that].flatMap pushRegister ++
  [.reg .sp, .assign .d (.src .m), .reg .lcl, .assign .m .d,
    .const (args + frameSize), .assign .d (.sub .a), .reg .arg, .assign .m .d,
    .symbol callee, .jump, .label returnLabel]

/-- `R13 := R13 - 1`, then `RAM[register] := RAM[R13]`. -/
def restore (register : Register) : List Inst :=
  [.reg .r13, .assign .am (.decSrc .m), .assign .d (.src .m), .reg register, .assign .m .d]

/-- `R13 := LCL` and `R14 := RAM[LCL - 5]`, then the top value goes to `RAM[ARG]`, `SP := ARG + 1`,
the pointers come back from below `R13`, and the jump goes to `R14`. -/
def ret : List Inst :=
  [.reg .lcl, .assign .d (.src .m), .reg .r13, .assign .m .d,
    .const frameSize, .assign .a (.sub .a), .assign .d (.src .m), .reg .r14, .assign .m .d] ++
  popToD ++ [.reg .arg, .assign .a (.src .m), .assign .m .d,
    .reg .arg, .assign .d (.incSrc .m), .reg .sp, .assign .m .d] ++
  [Register.that, .this, .arg, .lcl].flatMap restore ++
  [.reg .r14, .assign .a (.src .m), .jump]

/-! ## The ends of a program -/

/-- `SP := 256`, then a call of `entry` without arguments. -/
def bootstrap (entry returnLabel : String) : List Inst :=
  [.const Segment.stackBase, .assign .d (.src .a), .reg .sp, .assign .m .d] ++
  call entry 0 returnLabel

/-- The label `_END` and a jump to it. -/
def halt : List Inst := [.label Label.halt, .symbol Label.halt, .jump]

end HackVM.Compile
