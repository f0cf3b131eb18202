/-
  Operands: `Segment.resolve` maps a segment name and an index to a value or a cell.
-/
import HackVM.Command.Basic
import HackVM.Event
import HackVM.Segment.Statics

namespace HackVM

open Assembly

/-- What a push reads or a pop writes: the value itself, the cell `RAM[base] + index`, or the cell
at `address`. -/
inductive Operand where
  | immediate (value : Word)
  | pointer (base : Register) (index : Word)
  | direct (address : Address)
deriving DecidableEq

/-- An operand and its segment. -/
structure Resolved where
  segment : Segment
  operand : Operand
deriving DecidableEq

namespace Segment

/-- `address` as a register name where `Register.atAddress?` has one, else as a number. -/
def cellAt (address : Word) : Address :=
  match Register.atAddress? address with
  | some register => .reg register
  | none => .const address

/-- The address of cell `slot` above a base. For a fixed base the sum saturates at 65535. -/
def Base.cell (slot : Nat) : Base → Address
  | .register base => cellAt (base.address + UInt16.ofNat slot)
  | .fixed base => .const (UInt16.ofNat (Statics.saturatingAdd base.toNat slot))
  | .nowhere => .const (UInt16.ofNat slot)

/-- `limit`, and for `static` also `indexLimit` of the cells in use. -/
def currentLimit (statics : Statics) (segment : Segment) : Nat :=
  if segment.isPerModule then min segment.limit statics.indexLimit else segment.limit

/-- The operand of `index`, with `statics.allocate index` for `static`. `none` if an indirect
segment has no register as its base. -/
def locate (statics : Statics) (index : Word) (segment : Segment) : Option Operand × Statics :=
  if segment.isImmediate then (some (.immediate index), statics)
  else if segment.isIndirect then
    match segment.base with
    | .register base => (some (.pointer base index), statics)
    | .fixed _ | .nowhere => (none, statics)
  else
    let (slot, statics) :=
      if segment.isPerModule then statics.allocate index.toNat else (index.toNat, statics)
    (some (.direct (segment.base.cell slot)), statics)

/-- The operand of `name` and `index`, and the static cells after it. An unknown name and an index
from `currentLimit` on are faults. -/
def resolve (statics : Statics) (name : String) (index : Word) :
    Except Fault Resolved × Statics :=
  match ofName? name with
  | none => (.error (.invalidSegment name), statics)
  | some segment =>
    let limit := segment.currentLimit statics
    if limit ≤ index.toNat then
      (.error (.indexOutOfRange segment.name index.toNat limit), statics)
    else
      match segment.locate statics index with
      | (some operand, statics) => (.ok ⟨segment, operand⟩, statics)
      | (none, statics) => (.error (.invalidSegment name), statics)

end Segment

/-- A static cell from `stackBase` on gives a warning. -/
def Resolved.events (resolved : Resolved) : List Event :=
  match resolved.segment, resolved.operand with
  | .static, .direct (.const address) =>
    if Segment.stackBase ≤ address then [.staticInStackArea address] else []
  | _, _ => []

end HackVM
