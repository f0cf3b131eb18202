/-
  The machine: ROM, data memory, the registers `A` and `D`, and `pc`. `compute` executes a compute
  instruction in the order read, checked store to `M`, stores to `A` and `D`, jump, and returns the
  machine as it stands at the first fault. `step` executes one instruction; `run` repeats it until a
  halt loop, the end of the ROM, a fault, or the end of its budget.
-/
import HackVM.Machine.Ram
import HackVM.Rom.Op

namespace HackVM

open Assembly Rom

/-- The instruction at `pc` reads or writes `address`, which is outside `Ram.inRange`. -/
structure AddressFault where
  pc : Word
  address : Word
deriving DecidableEq

/-- The text of the fault. -/
def AddressFault.message (fault : AddressFault) : String :=
  let pc := fault.pc.toNat
  let address := fault.address.toNat
  s!"pc {pc}: memory access at {address} is outside RAM"

/-- The state of a machine between runs: `run` sets `halted` and `failed`, `step` sets none. -/
inductive Status where
  | running
  | halted
  | failed (fault : AddressFault)
deriving DecidableEq

/-- The result of a run without a fault: at a halt loop, behind the ROM, or out of budget. -/
inductive Outcome where
  | halted
  | fellThrough
  | cycleLimit
deriving DecidableEq

structure Machine where
  rom : Array Op
  ram : Ram := .blank
  a : Word := 0
  d : Word := 0
  pc : Word := 0
  cycles : UInt64 := 0
  status : Status := .running

namespace Machine

/-- `program` in the ROM, memory, registers and counters zero. -/
def boot (program : Program) : Machine := { rom := program.ops }

/-- The instruction at `pc`, `none` outside the ROM. -/
def op? (m : Machine) : Option Op := m.rom[m.pc.toNat]?

/-- The ROM holds `@pc` at `pc` and an unconditional jump behind it. -/
def atHaltLoop (m : Machine) : Bool :=
  m.op? = some (.load m.pc) && m.rom[m.pc.toNat + 1]?.any Op.isUnconditionalJump

/-- `RAM[address]`, or the fault `⟨pc, address⟩` if `address` is outside memory. -/
def read (m : Machine) (address : Word) : Except AddressFault Word :=
  if Ram.inRange address then .ok (m.ram.get address) else .error ⟨m.pc, address⟩

/-- `RAM[address] := value`; outside memory the fault `⟨pc, address⟩` and `m` itself. -/
def write (m : Machine) (address value : Word) : Except AddressFault Unit × Machine :=
  if Ram.inRange address then (.ok (), { m with ram := m.ram.set address value })
  else (.error ⟨m.pc, address⟩, m)

/-- Stores `value` in `RAM[address]`, then in `A`, then in `D`, each if `dest` names it. The first
store may fail, and then the others are not made. -/
def writeDest (m : Machine) (address value : Word) : Option Dest →
    Except AddressFault Unit × Machine
  | none => (.ok (), m)
  | some dest =>
    match if dest.writesM then m.write address value else (.ok (), m) with
    | (.error fault, m) => (.error fault, m)
    | (.ok _, m) =>
      let m := if dest.writesA then { m with a := value } else m
      (.ok (), if dest.writesD then { m with d := value } else m)

/-- The second operand of `comp`: `RAM[A]` if `comp` reads memory, else `A`. -/
def operand (m : Machine) (comp : Comp) : Except AddressFault Word :=
  if comp.readsMemory then m.read m.a else .ok m.a

/-- Executes a compute instruction: `operand`, then `writeDest` at the `A` of `m`, then `pc` becomes
that `A` or `pc + 1`. A fault comes with the machine as it stands at that point. -/
def compute (m : Machine) (dest : Option Dest) (comp : Comp) (jump : Option Jump) :
    Except AddressFault Unit × Machine :=
  match m.operand comp with
  | .error fault => (.error fault, m)
  | .ok operand =>
    let value := comp.eval m.d operand
    let address := m.a
    match m.writeDest address value dest with
    | (.error fault, m) => (.error fault, m)
    | (.ok _, m) =>
      (.ok (), { m with pc := if jump.any (·.taken value) then address else m.pc + 1 })

/-- Executes the instruction at `pc`. `cycles` is counted up before it; outside the ROM `m` is left
alone. -/
def step (m : Machine) : Except AddressFault Unit × Machine :=
  match m.op? with
  | none => (.ok (), m)
  | some op =>
    let m := { m with cycles := m.cycles + 1 }
    match op with
    | .load value => (.ok (), { m with a := value, pc := m.pc + 1 })
    | .compute dest comp jump => m.compute dest comp jump

/-- Executes at most `budget` instructions. Before each one the halt loop is tested, then the end of
the ROM, then the budget. -/
def run : (budget : Nat) → Machine → Except AddressFault Outcome × Machine
  | budget, m =>
    if m.atHaltLoop then (.ok .halted, { m with status := .halted })
    else if m.rom.size ≤ m.pc.toNat then (.ok .fellThrough, { m with status := .halted })
    else match budget with
      | 0 => (.ok .cycleLimit, m)
      | budget + 1 =>
        match m.step with
        | (.ok _, m) => run budget m
        | (.error fault, m) => (.error fault, { m with status := .failed fault })

/-- `count` times `step`, up to the first fault. -/
def steps : (count : Nat) → Machine → Except AddressFault Unit × Machine
  | 0, m => (.ok (), m)
  | count + 1, m =>
    match m.step with
    | (.ok _, m) => steps count m
    | failed => failed

/-- `RAM[address]`, with `address` modulo `ramSize`. -/
def peek (m : Machine) (address : Word) : Word := m.ram.get address

/-- `RAM[address] := value`, with `address` modulo `ramSize`. -/
def poke (m : Machine) (address value : Word) : Machine :=
  { m with ram := m.ram.set address value }

end Machine

end HackVM
