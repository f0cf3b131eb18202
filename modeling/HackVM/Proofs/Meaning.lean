/-
  The meaning of commands on data memory. `SP` points behind the top of the stack, words wrap at
  `2 ^ 16`, and `gt` and `lt` go by the sign of the wrapped difference `x - y`. An `Action` is a
  command with its operand resolved; `Action.result` is memory after it, `Action.next` what follows
  it, and `stackCells` and `dataCells` are the cells that it touches.
-/
import Mathlib
import HackVM.Compile.Arithmetic
import HackVM.Compile.State
import HackVM.Proofs.Memory

namespace HackVM

open Assembly Compile

/-! ## Operands -/

namespace Operand

/-- The address of the operand's cell, none for a constant. -/
def cell? (ram : Ram) : Operand → Option Word
  | .immediate _ | .direct (.symbol _) => none
  | .pointer base index => some (ram.reg base + index)
  | .direct (.const address) => some address
  | .direct (.reg register) => some register.address

/-- The value of the operand in `ram`. -/
def value (ram : Ram) : Operand → Word
  | .immediate value => value
  | .pointer base index => ram.get (ram.reg base + index)
  | .direct (.const address) => ram.get address
  | .direct (.reg register) => ram.reg register
  | .direct (.symbol _) => 0

/-- The operands that `resolve` can give: pointers through `LCL`, `ARG`, `THIS` and `THAT`, the
cells `THIS` and `THAT` themselves, and fixed cells from 5 on. -/
def Regular : Operand → Prop
  | .immediate _ => True
  | .pointer base _ => base = .lcl ∨ base = .arg ∨ base = .this ∨ base = .that
  | .direct (.const address) => 5 ≤ address.toNat
  | .direct (.reg register) => register = .this ∨ register = .that
  | .direct (.symbol _) => False

theorem Regular.ne_sp {base : Register} {index : Word} (h : (pointer base index).Regular) :
    base ≠ .sp := by
  rcases h with rfl | rfl | rfl | rfl <;> decide

theorem Regular.address_lt {base : Register} {index : Word} (h : (pointer base index).Regular) :
    base.address.toNat < 5 := by
  rcases h with rfl | rfl | rfl | rfl <;> decide

end Operand

/-! ## Changes of memory -/

namespace Ram

/-- `RAM[SP] := value`, `SP := SP + 1`. -/
def pushed (ram : Ram) (value : Word) : Ram :=
  (ram.set (ram.reg .sp) value).setReg .sp (ram.reg .sp + 1)

/-- `SP := SP - 1`, `RAM[target] := RAM[SP]`. -/
def popped (ram : Ram) (target : Word) : Ram :=
  (ram.setReg .sp (ram.reg .sp - 1)).set target (ram.get (ram.reg .sp - 1))

/-- Zeros in `first, …, first + count - 1`. -/
def zeroed (ram : Ram) (first : Word) : Nat → Ram
  | 0 => ram
  | count + 1 => (ram.set first 0).zeroed (first + 1) count

/-- `count` zeros from `SP` on, `SP := SP + count`. -/
def entered (ram : Ram) (count : Word) : Ram :=
  (ram.zeroed (ram.reg .sp) count.toNat).setReg .sp (ram.reg .sp + count)

/-- The frame of a call: `resume`, `LCL`, `ARG`, `THIS`, `THAT`. -/
def frame (ram : Ram) (resume : Word) : List Word :=
  [resume, ram.reg .lcl, ram.reg .arg, ram.reg .this, ram.reg .that]

/-- `words` in consecutive cells from `first` on. -/
def stored (ram : Ram) (first : Word) : List Word → Ram
  | [] => ram
  | word :: words => (ram.set first word).stored (first + 1) words

/-- The frame at `SP`, `ARG := SP - args`, `LCL := SP + 5`, `SP := SP + 5`. -/
def called (ram : Ram) (args resume : Word) : Ram :=
  let sp := ram.reg .sp
  (((ram.stored sp (ram.frame resume)).setReg .lcl (sp + 5)).setReg .arg (sp - args)).setReg
    .sp (sp + 5)

/-- The return address in the frame below `LCL`. -/
def resumption (ram : Ram) : Word := ram.get (ram.reg .lcl - 5)

/-- `RAM[ARG] := RAM[SP - 1]`, `SP := ARG + 1`, the pointers from the four cells below `LCL`;
`R13 := LCL - 4` and `R14` is the return address. -/
def returned (ram : Ram) : Ram :=
  let lcl := ram.reg .lcl
  let arg := ram.reg .arg
  let handed := ram.set arg (ram.get (ram.reg .sp - 1))
  ((((((handed.setReg .sp (arg + 1)).setReg .that (handed.get (lcl - 1))).setReg .this
    (handed.get (lcl - 2))).setReg .arg (handed.get (lcl - 3))).setReg .lcl
    (handed.get (lcl - 4))).setReg .r13 (lcl - 4)).setReg .r14 ram.resumption

theorem frame_eq (ram : Ram) (resume : Word) :
    ram.frame resume = resume :: [Register.lcl, .arg, .this, .that].map ram.reg := rfl

theorem pushed_sp {ram : Ram} {value : Word} : (ram.pushed value).reg .sp = ram.reg .sp + 1 :=
  reg_setReg_self ..

theorem pushed_reg {ram : Ram} {value : Word} {r : Register} (hsp : OnStack (ram.reg .sp))
    (h : r ≠ .sp) (hr : r ≠ .r15) : (ram.pushed value).reg r = ram.reg r := by
  rw [pushed, reg_setReg_of_ne h.symm, reg_set_onStack hsp hr]

theorem stored_setReg {ram : Ram} {r : Register} {first v : Word} {words : List Word}
    (hcells : ∀ i < words.length, OnStack (first + UInt16.ofNat i)) (hr : r ≠ .r15) :
    (ram.setReg r v).stored first words = (ram.stored first words).setReg r v := by
  induction words generalizing ram first with
  | nil => rfl
  | cons word words ih =>
    have hfirst : OnStack first := by simpa using hcells 0 (by simp)
    rw [stored, stored, setReg_set_comm hfirst.inRange (hfirst.ne_address hr)]
    refine ih fun i hi => ?_
    rw [word_add_one_add]
    exact hcells (i + 1) (by simpa using hi)

/-- Pushing `words` one by one is `stored` at `SP`. -/
theorem foldl_pushed {ram : Ram} {words : List Word}
    (hcells : ∀ i < words.length, OnStack (ram.reg .sp + UInt16.ofNat i)) :
    words.foldl pushed ram = (ram.stored (ram.reg .sp) words).setReg .sp
      (ram.reg .sp + UInt16.ofNat words.length) := by
  induction words generalizing ram with
  | nil => simp [stored, setReg_reg_self]
  | cons word words ih =>
    have hsp : OnStack (ram.reg .sp) := by simpa using hcells 0 (by simp)
    have hrest : ∀ i < words.length, OnStack (ram.reg .sp + 1 + UInt16.ofNat i) := by
      intro i hi
      rw [word_add_one_add]
      exact hcells (i + 1) (by simpa using hi)
    rw [List.foldl_cons, ih (by rwa [pushed_sp]), pushed_sp, word_add_one_add, stored, pushed,
      stored_setReg hrest (by decide), setReg_setReg, List.length_cons]

theorem zeroed_eq_stored (ram : Ram) (first : Word) (count : Nat) :
    ram.zeroed first count = ram.stored first (List.replicate count 0) := by
  induction count generalizing ram first with
  | zero => rfl
  | succ count ih => rw [zeroed, ih, List.replicate_succ, stored]

/-- `stored` leaves the cells outside alone. -/
theorem get_stored_of_outside {ram : Ram} {first a : Word} {words : List Word}
    (hfits : first.toNat + words.length ≤ ramSize) (ha : inRange a = true)
    (hout : a.toNat < first.toNat ∨ first.toNat + words.length ≤ a.toNat) :
    (ram.stored first words).get a = ram.get a := by
  induction words generalizing ram first with
  | nil => rfl
  | cons word words ih =>
    rw [List.length_cons] at hfits hout
    have hfirst : inRange first = true := inRange_iff.2 (by omega)
    have hne : first ≠ a := by rintro rfl; omega
    have hsucc : (first + 1).toNat = first.toNat + 1 :=
      word_toNat_add (by simp only [ramSize] at hfits; simp; omega)
    rw [stored, ih (by omega) (by omega), get_set_of_ne hfirst ha hne]

theorem get_stored {ram : Ram} {first : Word} {words : List Word}
    (hfits : first.toNat + words.length ≤ ramSize) {i : Nat} (hi : i < words.length) :
    (ram.stored first words).get (first + UInt16.ofNat i) = words[i] := by
  induction words generalizing ram first i with
  | nil => cases hi
  | cons word words ih =>
    rw [List.length_cons] at hfits
    have hfirst : inRange first = true := inRange_iff.2 (by omega)
    have hsucc : (first + 1).toNat = first.toNat + 1 :=
      word_toNat_add (by simp only [ramSize] at hfits; simp; omega)
    cases i with
    | zero =>
      rw [stored, show first + UInt16.ofNat 0 = first by simp,
        get_stored_of_outside (by omega) hfirst (by omega), get_set_self]
      rfl
    | succ i =>
      rw [stored, ← word_add_one_add, ih (by omega) (Nat.lt_of_succ_lt_succ hi)]
      rfl

theorem called_sp {ram : Ram} {args resume : Word} :
    (ram.called args resume).reg .sp = ram.reg .sp + 5 := reg_setReg_self ..

theorem called_lcl {ram : Ram} {args resume : Word} :
    (ram.called args resume).reg .lcl = ram.reg .sp + 5 := by
  rw [called, reg_setReg_of_ne (by decide), reg_setReg_of_ne (by decide), reg_setReg_self]

/-- `called` leaves the stack cells below and above its frame alone. -/
theorem get_called_of_outside {ram : Ram} {args resume a : Word} (ha : OnStack a)
    (hfits : (ram.reg .sp).toNat + 5 ≤ ramSize)
    (hout : a.toNat < (ram.reg .sp).toNat ∨ (ram.reg .sp).toNat + 5 ≤ a.toNat) :
    (ram.called args resume).get a = ram.get a := by
  rw [called, get_setReg_onStack ha (by decide), get_setReg_onStack ha (by decide),
    get_setReg_onStack ha (by decide), get_stored_of_outside hfits ha.inRange hout]

/-- `called` puts the `frame` at the old `SP`. -/
theorem get_called_frame {ram : Ram} {args resume : Word} (hsp : OnStack (ram.reg .sp))
    (hfits : (ram.reg .sp).toNat + 5 ≤ ramSize) {i : Nat} (hi : i < (ram.frame resume).length) :
    (ram.called args resume).get (ram.reg .sp + UInt16.ofNat i) = (ram.frame resume)[i] := by
  have hlt : i < 5 := hi
  have hcell : (ram.reg .sp + UInt16.ofNat i).toNat = (ram.reg .sp).toNat + i := by
    have hnat : (UInt16.ofNat i).toNat = i := word_toNat_ofNat (by omega)
    rw [word_toNat_add, hnat]
    simp only [ramSize] at hfits
    omega
  have hon : OnStack (ram.reg .sp + UInt16.ofNat i) := ⟨by have := hsp.1; omega, by omega⟩
  rw [called, get_setReg_onStack hon (by decide), get_setReg_onStack hon (by decide),
    get_setReg_onStack hon (by decide), get_stored hfits hi]

end Ram

/-! ## Arithmetic -/

namespace Compile.Arith

/-- `0xFFFF` for true, `0` for false. -/
def truth (b : Bool) : Word := if b then 0xFFFF else 0

/-- `neg` and `not`. -/
def isUnary : Arith → Bool
  | .neg | .not => true
  | .add | .sub | .eq | .gt | .lt | .and | .or => false

/-- The result on the top value `y` and the value `x` below it. `gt` and `lt` go by the sign of
`x - y` modulo `2 ^ 16`; that is the signed order iff the difference of the signed values is in
`[-32768, 32767]` (`taken_sub_eq_holds_iff`). -/
def combine (x y : Word) : Arith → Word
  | .add => x + y
  | .sub => x - y
  | .neg => -y
  | .eq => truth (x = y)
  | .gt => truth (0 < Word.signed (x - y))
  | .lt => truth (Word.signed (x - y) < 0)
  | .and => x &&& y
  | .or => x ||| y
  | .not => ~~~y

/-- Memory after an arithmetic command. -/
def result (ram : Ram) (arith : Arith) : Ram :=
  let sp := ram.reg .sp
  let value := arith.combine (ram.get (sp - 2)) (ram.get (sp - 1))
  if arith.isUnary then ram.set (sp - 1) value
  else (ram.setReg .sp (sp - 1)).set (sp - 2) value

end Compile.Arith

/-! ## Actions -/

/-- A command with its operand resolved. -/
inductive Action where
  | arith (operation : Arith)
  | push (source : Operand)
  | pop (target : Operand)
  | label (name : String)
  | goto (name : String)
  | ifGoto (name : String)
  | function (name : String) (locals : Word)
  | call (callee : String) (args : Word)
  | ret
deriving DecidableEq

/-- What follows an action: the next command, the command that declares `name`, or ROM address
`address`. -/
inductive Next where
  | follow
  | jump (name : String)
  | resume (address : Word)
deriving DecidableEq

/-- The ROM address of what follows, where `behind` is the address of the next command. -/
def Next.address (labels : String → Word) (behind : Word) : Next → Word
  | .follow => behind
  | .jump name => labels name
  | .resume address => address

namespace Action

/-- The action of an opcode in state `s`. -/
def of (s : State) : Opcode → Except Fault Action
  | .arithmetic word => (Arith.ofWord word).map .arith
  | .push segment index => (s.resolve segment index).1.map fun source => .push source.operand
  | .pop segment index => (s.resolve segment index).1.map fun target => .pop target.operand
  | .label name => .ok (.label name)
  | .goto name => .ok (.goto name)
  | .ifGoto name => .ok (.ifGoto name)
  | .function name locals => .ok (.function name locals)
  | .call callee args => .ok (.call callee args)
  | .ret => .ok .ret

/-- Memory after an action. A call saves `behind`, the address of the next command. -/
def result (ram : Ram) (behind : Word) : Action → Ram
  | .arith operation => operation.result ram
  | .push source => ram.pushed (source.value ram)
  | .pop target => ram.popped ((target.cell? ram).getD 0)
  | .label _ | .goto _ => ram
  | .ifGoto _ => ram.setReg .sp (ram.reg .sp - 1)
  | .function _ locals => ram.entered locals
  | .call _ args => ram.called args behind
  | .ret => ram.returned

/-- What follows an action, by the memory before it. -/
def next (ram : Ram) : Action → Next
  | .goto name | .call name _ => .jump name
  | .ifGoto name => if ram.get (ram.reg .sp - 1) = 0 then .follow else .jump name
  | .ret => .resume ram.resumption
  | .arith _ | .push _ | .pop _ | .label _ | .function _ _ => .follow

theorem eq_ret_of_next {action : Action} {ram : Ram} {address : Word}
    (h : action.next ram = .resume address) : action = .ret ∧ ram.resumption = address := by
  cases action with
  | ret =>
    cases h
    exact ⟨rfl, rfl⟩
  | ifGoto name =>
    simp only [next] at h
    split_ifs at h
  | _ => cases h

/-- The cells of the stack and of frames that an action touches. -/
def stackCells (ram : Ram) : Action → List Word
  | .arith operation =>
    if operation.isUnary then [ram.reg .sp - 1] else [ram.reg .sp - 1, ram.reg .sp - 2]
  | .push _ => [ram.reg .sp]
  | .pop _ | .ifGoto _ => [ram.reg .sp - 1]
  | .label _ | .goto _ => []
  | .function _ locals => (List.range locals.toNat).map fun i => ram.reg .sp + UInt16.ofNat i
  | .call _ _ => (List.range 5).map fun i => ram.reg .sp + UInt16.ofNat i
  | .ret => [ram.reg .sp - 1, ram.reg .arg] ++
      [1, 2, 3, 4, 5].map fun i => ram.reg .lcl - i

/-- The cell of a segment that an action touches. -/
def dataCells (ram : Ram) : Action → List Word
  | .push operand | .pop operand => (operand.cell? ram).toList
  | .arith _ | .label _ | .goto _ | .ifGoto _ | .function _ _ | .call _ _ | .ret => []

/-- All cells that the action touches are in range, and those of the stack and of frames are
`OnStack`. -/
def Safe (ram : Ram) (action : Action) : Prop :=
  (∀ cell ∈ action.stackCells ram, Ram.OnStack cell) ∧
    ∀ cell ∈ action.dataCells ram, Ram.inRange cell = true

instance (ram : Ram) (action : Action) : Decidable (action.Safe ram) :=
  inferInstanceAs (Decidable (_ ∧ _))

/-- Calls and returns. -/
def isLinkage : Action → Bool
  | .call _ _ | .ret => true
  | .arith _ | .push _ | .pop _ | .label _ | .goto _ | .ifGoto _ | .function _ _ => false

/-- The condition under which the code of an action runs: its cells are in range, no stack cell is
`SP`, and the cells of frames are `OnStack`. -/
def Runnable (ram : Ram) (action : Action) : Prop :=
  (∀ cell ∈ action.stackCells ram, Ram.inRange cell = true ∧ cell ≠ Register.sp.address ∧
    (action.isLinkage = true → Ram.OnStack cell)) ∧
  ∀ cell ∈ action.dataCells ram, Ram.inRange cell = true

theorem Safe.runnable {ram : Ram} {action : Action} (h : action.Safe ram) : action.Runnable ram :=
  ⟨fun cell hcell => ⟨(h.1 cell hcell).inRange, (h.1 cell hcell).ne_sp, fun _ => h.1 cell hcell⟩,
    h.2⟩

end Action

end HackVM
