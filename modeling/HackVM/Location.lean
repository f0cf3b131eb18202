/-
  Locations in source text: a module and a line number of 32 bits.
-/

namespace HackVM

/-- Line `line` of a module. Line numbers have 32 bits. -/
structure Location where
  moduleName : String
  line : UInt32
deriving DecidableEq

namespace Location

/-- The location of a command that was not read from a source text. -/
def unknown : Location := ⟨"<unknown>", 0⟩

def text (location : Location) : String :=
  location.moduleName ++ ":" ++ toString location.line.toNat

end Location

end HackVM
