/-
  Steps: the units that are compiled. A push and the pop right behind it may form one step.
-/
import HackVM.Command.Basic

namespace HackVM

/-- The unit of compilation: a command, a push fused with the pop behind it, or a malformed line. -/
inductive Step where
  | single (command : Command)
  | fused (push pop : Command)
  | fault (reason : Fault)
deriving DecidableEq

namespace Step

/-- Fuses `item` with the first step of `rest` if they are a push and a single pop, else adds it as
a step of its own. -/
def prepend (fuse : Bool) (item : Item) (rest : List Step) : List Step :=
  match item, rest with
  | .ok push, .single pop :: others =>
    if fuse && push.opcode.isPush && pop.opcode.isPop then .fused push pop :: others
    else .single push :: rest
  | .ok command, _ => .single command :: rest
  | .error reason, _ => .fault reason :: rest

/-- The steps of `items`, from the right. A pop is no push, so pairs do not overlap. -/
def ofItems (fuse : Bool) (items : List Item) : List Step := items.foldr (prepend fuse) []

/-- The items of a step, in order. -/
def items : Step → List Item
  | .single command => [.ok command]
  | .fused push pop => [.ok push, .ok pop]
  | .fault reason => [.error reason]

end Step

end HackVM
