/-
  Code for the nine arithmetic words. A comparison leaves `-1` for true and `0` for false.
-/
import HackVM.Compile.Label
import HackVM.Compile.Stack

namespace HackVM.Compile

open Assembly

/-- The nine arithmetic words. -/
inductive Arith where
  | add | sub | neg | eq | gt | lt | and | or | not
deriving DecidableEq

namespace Arith

def word : Arith → String
  | .add => "add"
  | .sub => "sub"
  | .neg => "neg"
  | .eq => "eq"
  | .gt => "gt"
  | .lt => "lt"
  | .and => "and"
  | .or => "or"
  | .not => "not"

/-- All nine. -/
def all : List Arith := [.add, .sub, .neg, .eq, .gt, .lt, .and, .or, .not]

/-- The operation with the given `word`. -/
def ofWord (word : String) : Except Fault Arith :=
  match all.find? (·.word == word) with
  | some arith => .ok arith
  | none => .error (.unknownArithmetic word)

/-- The form of the code: `comp` on the two top values, `comp` on the top value, or a branch on the
difference of the two top values. -/
inductive Shape where
  | binary (comp : Comp)
  | unary (comp : Comp)
  | comparison (jump : Jump)
deriving DecidableEq

/-- With the top value `y` in `D` and the value `x` below it in `M`, the computation is `x + y`,
`x - y`, `x & y` or `x | y`. -/
def shape : Arith → Shape
  | .add => .binary (.add .m)
  | .sub => .binary (.subFrom .m)
  | .and => .binary (.and .m)
  | .or => .binary (.or .m)
  | .neg => .unary (.negSrc .m)
  | .not => .unary (.notSrc .m)
  | .eq => .comparison .jeq
  | .gt => .comparison .jgt
  | .lt => .comparison .jlt

def isComparison (arith : Arith) : Bool :=
  match arith.shape with
  | .comparison _ => true
  | .binary _ | .unary _ => false

end Arith

/-- Pops `y` into `D` and replaces the value below by `comp`. -/
def binary (comp : Comp) : List Inst :=
  popToD ++ [.assign .a (.decSrc .a), .assign .m comp]

/-- Replaces the top value by `comp`. -/
def unary (comp : Comp) : List Inst := topToA ++ [.assign .m comp]

/-- Pops `y`, computes `x - y` modulo `2 ^ 16` with the value `x` below it, and replaces `x` by `-1`
if `jump` is taken on the difference, else by `0`. -/
def comparison (jump : Jump) (id : UInt32) : List Inst :=
  popToD ++ [.assign .a (.decSrc .a), .assign .d (.subFrom .m),
    .symbol (Label.compareTrue id), .branch .d jump] ++
  topToA ++ [.assign .m .zero, .symbol (Label.compareFinished id), .jump,
    .label (Label.compareTrue id)] ++
  topToA ++ [.assign .m .minusOne, .label (Label.compareFinished id)]

end HackVM.Compile
