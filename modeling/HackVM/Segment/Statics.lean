/-
  Static cells: each module numbers its own from zero, and `offset` places them behind those of the
  earlier modules.
-/
import HackVM.Segment.Basic

namespace HackVM

/-- `offset` static cells belong to earlier modules, `mark` to the current one. Both saturate at
65535. -/
structure Statics where
  offset : Nat := 0
  mark : Nat := 0
deriving DecidableEq

namespace Statics

/-- `m + n`, at most 65535. -/
def saturatingAdd (m n : Nat) : Nat := min (m + n) 65535

/-- Starts a module: `offset` moves up by `mark`, `mark` is zero. -/
def switch (statics : Statics) : Statics :=
  ⟨saturatingAdd statics.offset statics.mark, 0⟩

/-- The number `offset + index` of the current module's cell `index`, saturated. -/
def slot (statics : Statics) (index : Nat) : Nat := saturatingAdd statics.offset index

/-- Raises `mark` to `index + 1` at least. -/
def use (statics : Statics) (index : Nat) : Statics :=
  { statics with mark := max statics.mark (saturatingAdd index 1) }

/-- The `slot` of `index`, and `use` of it. -/
def allocate (statics : Statics) (index : Nat) : Nat × Statics :=
  (statics.slot index, statics.use index)

/-- Indices below it have a cell `staticBase + offset + index < literalCount`. -/
def indexLimit (statics : Statics) : Nat :=
  Segment.literalCount - Segment.staticBase.toNat - statics.offset

end Statics

end HackVM
