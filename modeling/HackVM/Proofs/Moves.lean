/-
  One `move` against `push` and `pop`, from any memory with `5 ≤ SP`. Both store the source's value
  in the target cell and leave every other cell alone except the one at `SP` (`Ram.Moved`), for all
  operands and all aliasing between them (`move_agrees_push_pop`).
-/
import Mathlib
import HackVM.Proofs.Fusion

namespace HackVM

open Assembly Compile Machine

/-! ## Code from its start to its end -/

namespace Machine

variable {labels : String → Word} {code : List Inst} {m : Machine}

/-- The ROM holds `code` at `pc`, with addresses up to `2 ^ 16`. -/
def Meets (labels : String → Word) (code : List Inst) (m : Machine) : Prop :=
  HoldsAt labels m.rom m.pc.toNat code ∧ m.pc.toNat + instructionCount code ≤ 65536

/-- `instructionCount code` steps without a fault lead from `m` to `m'`, which is behind `code`. -/
def Completes (code : List Inst) (m m' : Machine) : Prop :=
  Runs (instructionCount code) m m' ∧ m'.pc = UInt16.ofNat (m.pc.toNat + instructionCount code)

theorem Meets.completes {s : Store} (h : m.Meets labels code)
    (hexec : exec labels code m.store = some s) :
    ∃ m', Completes code m m' ∧ m'.ram = s.ram := by
  obtain ⟨hcode, hfits⟩ := h
  obtain ⟨m', hruns, hstore, hpc⟩ := runs_of_exec hcode UInt16.ofNat_toNat.symm hfits hexec
  exact ⟨m', ⟨hruns, hpc⟩, congrArg Store.ram hstore⟩

end Machine

/-! ## What a move leaves -/

namespace Ram

/-- `cell` holds `v`, and of the other cells at most the one at `SP` has changed. -/
structure Moved (ram : Ram) (cell v : Word) (ram' : Ram) : Prop where
  stored : ram'.get cell = v
  other : ∀ a, inRange a = true → a ≠ cell → a ≠ ram.reg .sp → ram'.get a = ram.get a

variable {ram ram' ram'' left : Ram} {cell v : Word}

/-- A store in `cell`, with or without a store at `SP`, which may be `cell` itself. -/
theorem moved_set (hsp : inRange (ram.reg .sp) = true) (hin : inRange cell = true)
    (hleft : left = ram ∨ left = ram.set (ram.reg .sp) v) : Moved ram cell v (left.set cell v) := by
  constructor
  · exact get_set_self ..
  · intro a ha hne htop
    rw [get_set_of_ne hin ha hne.symm]
    rcases hleft with rfl | rfl
    · rfl
    · exact get_set_of_ne hsp ha htop.symm

/-- `SP` changes only if it is `cell`, since it does not point at itself. -/
theorem Moved.reg_sp (h : Moved ram cell v ram') (hsp : ram.reg .sp ≠ Register.sp.address)
    (hne : cell ≠ Register.sp.address) : ram'.reg .sp = ram.reg .sp :=
  h.other _ (inRange_address .sp) hne.symm hsp.symm

/-- Two moves of `v` into `cell` differ at most in the cell at `SP`. -/
theorem Moved.get_eq (h : Moved ram cell v ram') (h' : Moved ram cell v ram'') {a : Word}
    (ha : inRange a = true) (htop : a ≠ ram.reg .sp) : ram'.get a = ram''.get a := by
  by_cases hcell : a = cell
  · rw [hcell, h.stored, h'.stored]
  · rw [h.other a ha hcell htop, h'.other a ha hcell htop]

/-- A move of a cell into itself changes at most the cell at `SP`. -/
theorem Moved.get_self (h : Moved ram cell (ram.get cell) ram') {a : Word} (ha : inRange a = true)
    (htop : a ≠ ram.reg .sp) : ram'.get a = ram.get a := by
  by_cases hcell : a = cell
  · rw [hcell, h.stored]
  · exact h.other a ha hcell htop

end Ram

/-! ## The two codes -/

/-- `pop` accepts the operand of every segment but `constant`. -/
theorem exists_pop_of_resolve {s s' : State} {segment : String} {index : Word} {target : Resolved}
    (h : s.resolve segment index = (.ok target, s')) (hne : target.segment ≠ .constant) :
    ∃ code, pop target = .ok code := by
  obtain ⟨found, -, -, rfl, -⟩ := resolve_eq_ok_iff.1 h
  cases found with
  | constant => exact absurd rfl hne
  | temp | static | pointer => exact ⟨_, rfl⟩
  | lcl | arg | this | that =>
    by_cases hnear : index ≤ 1
    · exact ⟨_, if_pos hnear⟩
    · exact ⟨_, if_neg hnear⟩

/-- The value of an operand with a cell is that of the cell. -/
theorem Operand.value_eq_get {operand : Operand} {ram : Ram} {cell : Word}
    (h : operand.cell? ram = some cell) : operand.value ram = ram.get cell := by
  cases operand with
  | immediate value => cases h
  | pointer base index =>
    cases h
    rfl
  | direct address =>
    cases address <;> cases h <;> rfl

/-- `5 ≤ SP < ramSize`, and the cells of source and target are in range. -/
structure Ram.Open (ram : Ram) (source target : Operand) : Prop where
  low : 5 ≤ (ram.reg .sp).toNat
  high : (ram.reg .sp).toNat < ramSize
  source : ∀ cell ∈ source.cell? ram, cell.toNat < ramSize
  target : ∀ cell ∈ target.cell? ram, cell.toNat < ramSize

namespace Ram.Open

variable {labels : String → Word} {ram : Ram} {source : Operand} {target : Resolved}
  {code : List Inst} {m : Machine} {cell : Word}

theorem inRange_sp (h : ram.Open source target.operand) : inRange (ram.reg .sp) = true :=
  inRange_iff.2 h.high

theorem sp_ne (h : ram.Open source target.operand) : ram.reg .sp ≠ Register.sp.address := by
  intro heq
  have hlow := h.low
  rw [heq] at hlow
  exact absurd hlow (by decide)

theorem inRange_source (h : ram.Open source target.operand) :
    ∀ cell ∈ source.cell? ram, inRange cell = true :=
  fun cell hcell => inRange_iff.2 (h.source cell hcell)

theorem moved (h : m.ram.Open source target.operand) (hsource : source.Regular)
    (htarget : target.operand.Regular) (hcell : target.operand.cell? m.ram = some cell)
    (hmove : Compile.move source target = .ok code) (hmeets : m.Meets labels code) :
    ∃ m', Completes code m m' ∧ Moved m.ram cell (source.value m.ram) m'.ram := by
  have hin : inRange cell = true := inRange_iff.2 (h.target cell hcell)
  obtain ⟨left, a, d, hexec, hleft⟩ := exec_move labels (s := m.store) hmove hsource
    h.inRange_source htarget hcell hin h.inRange_sp h.low
  obtain ⟨m', hdone, hram⟩ := hmeets.completes hexec
  exact ⟨m', hdone, hram ▸ moved_set h.inRange_sp hin hleft⟩

theorem moved_push_pop (h : m.ram.Open source target.operand) (hsource : source.Regular)
    (htarget : target.operand.Regular) (hcell : target.operand.cell? m.ram = some cell)
    (hpop : Compile.pop target = .ok code) (hmeets : m.Meets labels (Compile.push source ++ code)) :
    ∃ m', Completes (Compile.push source ++ code) m m' ∧
      Moved m.ram cell (source.value m.ram) m'.ram := by
  have hin : inRange cell = true := inRange_iff.2 (h.target cell hcell)
  have hback : ∀ v, (m.ram.pushed v).reg .sp - 1 = m.ram.reg .sp := fun v => by
    rw [pushed_sp, add_sub_cancel_right]
  obtain ⟨a, d, hpush⟩ :=
    exec_push labels (s := m.store) hsource h.inRange_source h.inRange_sp h.sp_ne
  obtain ⟨a', d', hexec⟩ := exec_pop labels
    (s := ⟨m.ram.pushed (source.value m.ram), a, d⟩) hpop htarget
    ((Operand.cell?_pushed htarget h.inRange_sp h.low _).trans hcell) hin
    (by rw [hback]; exact h.inRange_sp) (by rw [hback]; exact h.sp_ne)
  have hboth := exec_append labels (Compile.push source) code m.store
  rw [hpush, Option.bind_some] at hboth
  obtain ⟨m', hdone, hram⟩ := hmeets.completes (hboth.trans hexec)
  rw [popped_pushed h.inRange_sp h.sp_ne] at hram
  exact ⟨m', hdone, hram ▸ moved_set h.inRange_sp hin (.inr rfl)⟩

end Ram.Open

/-- **A fused move.** For any resolved source and any target that is no constant, `move` and `push`
with `pop` both compile. From one `Ram.Open` memory both codes run to their ends. Both leave the
source's value in the target cell, keep `SP` unless it is the target, and differ at most in the cell
at `SP`. If source and target are one cell, no other cell changes. -/
theorem move_agrees_push_pop {s s' t t' : State} {segment segment' : String} {index index' : Word}
    {source target : Resolved} (hsource : s.resolve segment index = (.ok source, s'))
    (htarget : t.resolve segment' index' = (.ok target, t'))
    (hconstant : target.segment ≠ .constant) :
    ∃ moving popping, move source.operand target = .ok moving ∧ pop target = .ok popping ∧
      ∀ (labels : String → Word) (m n : Machine), n.ram = m.ram → m.Meets labels moving →
        n.Meets labels (push source.operand ++ popping) →
        m.ram.Open source.operand target.operand →
        ∃ cell m' n', target.operand.cell? m.ram = some cell ∧
          Completes moving m m' ∧ Completes (push source.operand ++ popping) n n' ∧
          m'.ram.get cell = source.operand.value m.ram ∧
          n'.ram.get cell = source.operand.value m.ram ∧
          (cell ≠ Register.sp.address →
            m'.ram.reg .sp = m.ram.reg .sp ∧ n'.ram.reg .sp = m.ram.reg .sp) ∧
          (∀ a, Ram.inRange a = true → a ≠ m.ram.reg .sp → m'.ram.get a = n'.ram.get a) ∧
          (source.operand.cell? m.ram = some cell → ∀ a, Ram.inRange a = true →
            a ≠ m.ram.reg .sp → m'.ram.get a = m.ram.get a ∧ n'.ram.get a = m.ram.get a) := by
  have hregular := regular_of_resolve hsource
  have hregular' := regular_of_resolve htarget
  obtain ⟨popping, hpop⟩ := exists_pop_of_resolve htarget hconstant
  obtain ⟨moving, hmove⟩ := (exists_move_iff source.operand).2 ⟨popping, hpop⟩
  refine ⟨moving, popping, hmove, hpop, fun labels m n hram hmeets hmeets' hopen => ?_⟩
  obtain ⟨cell, hcell⟩ := popped_isSome hpop hregular' m.ram
  obtain ⟨m', hdone, hmoved⟩ := hopen.moved hregular hregular' hcell hmove hmeets
  rw [← hram] at hopen hcell
  obtain ⟨n', hdone', hmoved'⟩ := hopen.moved_push_pop hregular hregular' hcell hpop hmeets'
  rw [hram] at hopen hcell hmoved'
  refine ⟨cell, m', n', hcell, hdone, hdone', hmoved.stored, hmoved'.stored, ?_, ?_, ?_⟩
  · intro hne
    exact ⟨hmoved.reg_sp hopen.sp_ne hne, hmoved'.reg_sp hopen.sp_ne hne⟩
  · intro a ha htop
    exact hmoved.get_eq hmoved' ha htop
  · intro hsame a ha htop
    rw [Operand.value_eq_get hsame] at hmoved hmoved'
    exact ⟨hmoved.get_self ha htop, hmoved'.get_self ha htop⟩

/-- `argument 3` is the cell at `SP`, and `that 5` goes round the end of all addresses to `THAT`. -/
def wrappedRam : Ram := (((Ram.blank.setReg .sp 5).setReg .arg 2).setReg .that 65535).set 5 77

/-- A machine whose ROM is `code`, with memory `wrappedRam`. -/
def wrappedMachine (code : List Inst) : Machine :=
  { rom := (code.filterMap (Inst.op? fun _ => 0)).toArray, ram := wrappedRam }

theorem wrappedRam_cells : wrappedRam.reg .sp = 5 ∧
    (Operand.pointer .arg 3).cell? wrappedRam = some 5 ∧
    (Operand.pointer .that 5).cell? wrappedRam = some 4 := by
  have hreg : ∀ r : Register, wrappedRam.reg r =
      (((Ram.blank.setReg .sp 5).setReg .arg 2).setReg .that 65535).reg r := by
    intro r
    apply Ram.reg_set_of_ne (by decide)
    cases r <;> decide
  have harg : wrappedRam.reg .arg = 2 := by
    rw [hreg, Ram.reg_setReg_of_ne (by decide), Ram.reg_setReg_self]
  have hthat : wrappedRam.reg .that = 65535 := by rw [hreg, Ram.reg_setReg_self]
  refine ⟨?_, ?_, ?_⟩
  · rw [hreg, Ram.reg_setReg_of_ne (by decide), Ram.reg_setReg_of_ne (by decide),
      Ram.reg_setReg_self]
  · rw [Operand.cell?, harg]
    rfl
  · rw [Operand.cell?, hthat]
    rfl

theorem wrappedRam_open : wrappedRam.Open (.pointer .arg 3) (.pointer .that 5) := by
  obtain ⟨hsp, hsource, htarget⟩ := wrappedRam_cells
  refine ⟨by rw [hsp]; decide, by rw [hsp]; decide, ?_, ?_⟩
  · intro cell hcell
    cases hsource.symm.trans hcell
    decide
  · intro cell hcell
    cases htarget.symm.trans hcell
    decide

theorem wrappedMachine_meets {code : List Inst} (h : instructionCount code ≤ 65536) :
    (wrappedMachine code).Meets (fun _ => 0) code :=
  ⟨⟨[], [], by simp [wrappedMachine], rfl⟩, by simpa [wrappedMachine] using h⟩

theorem move_agrees_push_pop_wrapped :
    ∃ moving popping m' n', move (.pointer .arg 3) ⟨.that, .pointer .that 5⟩ = .ok moving ∧
      pop ⟨.that, .pointer .that 5⟩ = .ok popping ∧
      Completes moving (wrappedMachine moving) m' ∧
      Completes (push (.pointer .arg 3) ++ popping)
        (wrappedMachine (push (.pointer .arg 3) ++ popping)) n' ∧
      m'.ram.reg .that = 77 ∧ n'.ram.reg .that = 77 ∧ m'.ram.reg .sp = 5 ∧ n'.ram.reg .sp = 5 := by
  obtain ⟨hsp, hsource, htarget⟩ := wrappedRam_cells
  have hvalue : (Operand.pointer .arg 3).value wrappedRam = 77 :=
    (Operand.value_eq_get hsource).trans (Ram.get_set_self ..)
  have hargument : State.resolve {} "argument" 3 = (.ok ⟨.arg, .pointer .arg 3⟩, {}) := rfl
  have hthat : State.resolve {} "that" 5 = (.ok ⟨.that, .pointer .that 5⟩, {}) := rfl
  obtain ⟨moving, popping, hmove, hpop, h⟩ := move_agrees_push_pop hargument hthat (by decide)
  have hshort : instructionCount moving ≤ 65536 := by
    cases hmove
    decide
  have hshort' : instructionCount (push (.pointer .arg 3) ++ popping) ≤ 65536 := by
    cases hpop
    decide
  obtain ⟨cell, m', n', hcell, hm', hn', hget, hget', hkept, -, -⟩ :=
    h _ (wrappedMachine moving) (wrappedMachine (push (.pointer .arg 3) ++ popping)) rfl
      (wrappedMachine_meets hshort) (wrappedMachine_meets hshort') wrappedRam_open
  obtain rfl : 4 = cell := Option.some.inj (htarget.symm.trans hcell)
  obtain ⟨hkept, hkept'⟩ := hkept (by decide)
  exact ⟨moving, popping, m', n', hmove, hpop, hm', hn', hget.trans hvalue, hget'.trans hvalue,
    hkept.trans hsp, hkept'.trans hsp⟩

end HackVM
