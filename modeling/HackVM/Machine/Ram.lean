/-
  Data memory: `ramSize` words. `get` and `set` take addresses modulo `ramSize`; instructions check
  `inRange` first.
-/
import HackVM.Word

namespace HackVM

/-- The number of cells, `2 ^ 15`. -/
def ramSize : Nat := 32768

/-- Data memory, `ramSize` words. -/
structure Ram where
  cells : Vector Word ramSize
deriving DecidableEq

namespace Ram

/-- All cells zero. -/
def blank : Ram := ⟨Vector.replicate ramSize 0⟩

/-- `address < ramSize`. -/
def inRange (address : Word) : Bool := address.toNat < ramSize

theorem slot_lt (address : Word) : address.toNat % ramSize < ramSize :=
  Nat.mod_lt _ (by decide)

/-- The cell `address % ramSize`. -/
def get (ram : Ram) (address : Word) : Word :=
  have := slot_lt address
  ram.cells[address.toNat % ramSize]

/-- Stores `value` in the cell `address % ramSize`. -/
def set (ram : Ram) (address value : Word) : Ram :=
  ⟨ram.cells.set (address.toNat % ramSize) value (slot_lt address)⟩

/-- `i` and `j` name one cell iff they agree modulo `ramSize`. -/
theorem get_set (ram : Ram) (i j value : Word) :
    (ram.set i value).get j =
      if i.toNat % ramSize = j.toNat % ramSize then value else ram.get j := by
  simp only [get, set, Vector.getElem_set]

/-- The cells that do not hold zero, in increasing order of address. -/
def nonzero (ram : Ram) : List (Nat × Word) :=
  (ram.cells.toList.zipIdx.filter fun cell => cell.1 != 0).map fun cell => (cell.2, cell.1)

end Ram

end HackVM
