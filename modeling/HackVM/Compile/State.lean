/-
  The compiler state between commands.
-/
import HackVM.Compile.Label
import HackVM.Segment.Operand

namespace HackVM.Compile

/-- The compiler state between commands: the current module, the next numbers of comparison and
return labels, the static cells, and whether the bootstrap is written. -/
structure State where
  current : Option String := none
  comparisons : UInt32 := 0
  calls : UInt32 := 0
  statics : Statics := {}
  bootstrapped : Bool := false
deriving DecidableEq

namespace State

/-- The current module, `""` before the first. -/
def moduleName (s : State) : String := s.current.getD ""

/-- `Statics.switch` without a change of module. -/
def switchStatics (s : State) : State := { s with statics := s.statics.switch }

/-- Makes `name` the current module. Unless it is already, the static cells are switched. -/
def enter (s : State) (name : String) : State × List Event :=
  if s.current = some name then (s, [])
  else
    let statics := s.statics.switch
    ({ s with current := some name, statics }, [.enteredModule name statics.offset])

/-- The labels of the next comparison; counts `comparisons` up. -/
def compareLabels (s : State) : (String × String) × State :=
  ((Label.compareTrue s.comparisons, Label.compareFinished s.comparisons),
    { s with comparisons := s.comparisons + 1 })

/-- The return label of the next call; counts `calls` up. -/
def returnLabel (s : State) (moduleName callee : String) : String × State :=
  (Label.callReturn moduleName callee s.calls, { s with calls := s.calls + 1 })

/-- `Segment.resolve` on the static cells of `s`. The state is returned on the error path too. -/
def resolve (s : State) (segment : String) (index : Word) : Except Fault Resolved × State :=
  let (result, statics) := Segment.resolve s.statics segment index
  (result, { s with statics })

end State

end HackVM.Compile
