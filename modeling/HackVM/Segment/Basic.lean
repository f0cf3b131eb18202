/-
  The memory segments of the stack machine: base, addressing and index limit of each.
-/
import HackVM.Assembly.Instruction

namespace HackVM

open Assembly

/-- A memory segment. The first four are reached through a pointer, the others lie at fixed cells,
and `constant` has no cells at all. -/
inductive Segment where
  | lcl | arg | this | that | temp | static | constant | pointer
deriving DecidableEq

namespace Segment

/-- All segments. -/
def all : List Segment := [.lcl, .arg, .this, .that, .temp, .static, .constant, .pointer]

def name : Segment → String
  | .lcl => "local"
  | .arg => "argument"
  | .this => "this"
  | .that => "that"
  | .temp => "temp"
  | .static => "static"
  | .constant => "constant"
  | .pointer => "pointer"

/-- The base of a segment: a named cell, a fixed cell, or none for `constant`. -/
inductive Base where
  | register (register : Register)
  | fixed (address : Word)
  | nowhere
deriving DecidableEq

/-- The cell of `temp 0`. -/
def tempBase : Word := 5

/-- The cell of the first static variable. -/
def staticBase : Word := 16

/-- The first cell of the stack. Static cells from here on give a warning. -/
def stackBase : Word := 256

def base : Segment → Base
  | .lcl => .register .lcl
  | .arg => .register .arg
  | .this => .register .this
  | .that => .register .that
  | .temp => .fixed tempBase
  | .static => .fixed staticBase
  | .constant => .nowhere
  | .pointer => .register .this

/-- Cell `index` of the segment is `RAM[base] + index`, not `base + index`. -/
def isIndirect : Segment → Bool
  | .lcl | .arg | .this | .that => true
  | .temp | .static | .constant | .pointer => false

/-- The index is the value, as in `constant`. -/
def isImmediate (segment : Segment) : Bool := segment = .constant

/-- Each module has cells of its own in the segment, as in `static`. -/
def isPerModule (segment : Segment) : Bool := segment = .static

/-- `@n` loads `n` for `n < 2 ^ 15`. -/
def literalCount : Nat := 32768

/-- Indices are below `limit`; those of `static` also below `Statics.indexLimit`. -/
def limit : Segment → Nat
  | .temp => 8
  | .pointer => 2
  | .lcl | .arg | .this | .that | .static | .constant => literalCount

/-- The segment with the given `name`, in letters of either case. -/
def ofName? (name : String) : Option Segment :=
  all.find? fun segment => segment.name.toList == name.toList.map Char.toLower

end Segment

end HackVM
