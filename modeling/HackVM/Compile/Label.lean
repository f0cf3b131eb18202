/-
  The names of generated labels. Each has a number that is drawn once.
-/

namespace HackVM.Label

/-- The branch target of comparison `id`. -/
def compareTrue (id : UInt32) : String := "_COMPARE_TRUE" ++ toString id.toNat

/-- The label behind comparison `id`. -/
def compareFinished (id : UInt32) : String := "_COMPARE_FINISHED" ++ toString id.toNat

/-- The return label of call `id`: `moduleName.callee$ret.id`. -/
def callReturn (moduleName callee : String) (id : UInt32) : String :=
  moduleName ++ "." ++ callee ++ "$ret." ++ toString id.toNat

/-- The loop at the end of a program without bootstrap. -/
def halt : String := "_END"

end HackVM.Label
