/-
  Frames on the stack. Under the discipline that every action keeps to its own part of memory
  (`Action.Disciplined`), the frames of the open calls stay in memory as they were made (`Chained`).
  A return in a `Framed` memory restores the pointers saved by the call (`Ram.Framed.restored`),
  whatever the rest of memory.
-/
import Mathlib
import HackVM.Proofs.Blocks

namespace HackVM

open Assembly Compile

/-! ## Discipline -/

/-- The cells of a function with `args` arguments: `local` cells in `[LCL, bound)`, the `args` cells
from `ARG` on, and other cells outside `[256, bound)` and above 15. -/
def Operand.Within (ram : Ram) (args bound : Nat) : Operand → Prop
  | .pointer .lcl index =>
    (ram.reg .lcl).toNat ≤ (ram.reg .lcl + index).toNat ∧ (ram.reg .lcl + index).toNat < bound
  | .pointer .arg index =>
    (ram.reg .arg).toNat ≤ (ram.reg .arg + index).toNat ∧
      (ram.reg .arg + index).toNat < (ram.reg .arg).toNat + args
  | .pointer base index =>
    15 < (ram.reg base + index).toNat ∧
      ((ram.reg base + index).toNat < 256 ∨ bound ≤ (ram.reg base + index).toNat)
  | .direct (.const address) => address.toNat < 256 ∨ bound ≤ address.toNat
  | .immediate _ | .direct (.reg _) | .direct (.symbol _) => True

namespace Action

/-- The stack cells that the action pops, and the arguments of a call, lie above `LCL`; operands are
`Within`. -/
def Confined (ram : Ram) (args bound : Nat) : Action → Prop
  | .arith operation =>
    ∀ cell ∈ (arith operation).stackCells ram, (ram.reg .lcl).toNat ≤ cell.toNat
  | .ifGoto name => ∀ cell ∈ (ifGoto name).stackCells ram, (ram.reg .lcl).toNat ≤ cell.toNat
  | .push source => source.Within ram args bound
  | .pop target => (∀ cell ∈ (pop target).stackCells ram, (ram.reg .lcl).toNat ≤ cell.toNat) ∧
      target.Within ram args bound
  | .call _ count => (ram.reg .lcl).toNat + count.toNat ≤ (ram.reg .sp).toNat
  | .label _ | .goto _ | .function _ _ | .ret => True

/-- `256 ≤ LCL ≤ SP < bound`, and the action is `Confined`. -/
def Disciplined (ram : Ram) (args bound : Nat) (action : Action) : Prop :=
  256 ≤ (ram.reg .lcl).toNat ∧ (ram.reg .lcl).toNat ≤ (ram.reg .sp).toNat ∧
    (ram.reg .sp).toNat < bound ∧ action.Confined ram args bound

end Action

/-! ## What open calls rely on -/

namespace Ram

/-- `LCL` and `ARG` are unchanged, and so are the cells in `[256, LCL)` except the `args`
arguments. -/
structure Keeps (args : Nat) (ram ram' : Ram) : Prop where
  lcl : ram'.reg .lcl = ram.reg .lcl
  arg : ram'.reg .arg = ram.reg .arg
  get : ∀ a : Word, inRange a = true → 256 ≤ a.toNat → a.toNat < (ram.reg .lcl).toNat →
    a.toNat < (ram.reg .arg).toNat ∨ (ram.reg .arg).toNat + args ≤ a.toNat →
    ram'.get a = ram.get a

variable {args : Nat} {ram ram₁ ram₂ : Ram}

theorem Keeps.refl (args : Nat) (ram : Ram) : Keeps args ram ram :=
  ⟨rfl, rfl, fun _ _ _ _ _ => rfl⟩

theorem Keeps.trans (h : Keeps args ram ram₁) (h' : Keeps args ram₁ ram₂) :
    Keeps args ram ram₂ := by
  refine ⟨h'.lcl.trans h.lcl, h'.arg.trans h.arg, fun a hin hlow hlcl harg => ?_⟩
  rw [h'.get a hin hlow (by rwa [h.lcl]) (by rwa [h.arg]), h.get a hin hlow hlcl harg]

theorem keeps_setReg {r : Register} {v : Word} (hlcl : r ≠ .lcl) (harg : r ≠ .arg) :
    Keeps args ram (ram.setReg r v) := by
  refine ⟨reg_setReg_of_ne hlcl, reg_setReg_of_ne harg, fun a hin hlow _ _ => ?_⟩
  refine get_setReg_of_ne hin ?_
  rintro rfl
  have := toNat_address_lt r
  omega

theorem keeps_set {cell v : Word} (hin : inRange cell = true) (hlcl : cell ≠ Register.lcl.address)
    (harg : cell ≠ Register.arg.address)
    (hout : cell.toNat < 256 ∨ (ram.reg .lcl).toNat ≤ cell.toNat ∨
      (ram.reg .arg).toNat ≤ cell.toNat ∧ cell.toNat < (ram.reg .arg).toNat + args) :
    Keeps args ram (ram.set cell v) := by
  refine ⟨reg_set_of_ne hin hlcl, reg_set_of_ne hin harg, fun a ha hlow _ _ => ?_⟩
  refine get_set_of_ne hin ha ?_
  rintro rfl
  omega

/-- Stores from `LCL` on satisfy `Keeps`. -/
theorem keeps_stored {first : Word} {words : List Word} (hlow : 256 ≤ (ram.reg .lcl).toNat)
    (hlcl : (ram.reg .lcl).toNat ≤ first.toNat) (hfits : first.toNat + words.length ≤ ramSize) :
    Keeps args ram (ram.stored first words) := by
  have hreg : ∀ r : Register, (ram.stored first words).reg r = ram.reg r := fun r => by
    have := toNat_address_lt r
    exact get_stored_of_outside hfits (inRange_address r) (by omega)
  exact ⟨hreg .lcl, hreg .arg, fun a ha _ hbelow _ => get_stored_of_outside hfits ha (by omega)⟩

end Ram

theorem Operand.Within.clear {operand : Operand} {ram : Ram} {args bound : Nat} {cell : Word}
    (h : operand.Within ram args bound) (hregular : operand.Regular)
    (hcell : operand.cell? ram = some cell) (harg : 256 ≤ (ram.reg .arg).toNat)
    (hlow : 256 ≤ (ram.reg .lcl).toNat) (hbound : (ram.reg .lcl).toNat ≤ bound) :
    cell ≠ Register.lcl.address ∧ cell ≠ Register.arg.address ∧
      (cell.toNat < 256 ∨ (ram.reg .lcl).toNat ≤ cell.toNat ∨
        (ram.reg .arg).toNat ≤ cell.toNat ∧ cell.toNat < (ram.reg .arg).toNat + args) := by
  have hne : ∀ r : Register, 16 ≤ cell.toNat → cell ≠ r.address := fun r hle heq => by
    have := Ram.toNat_address_lt r
    rw [heq] at hle
    omega
  cases operand with
  | immediate value => cases hcell
  | pointer base index =>
    cases hcell
    rcases hregular with rfl | rfl | rfl | rfl
    · obtain ⟨hle, hlt⟩ := h
      exact ⟨hne _ (by omega), hne _ (by omega), .inr (.inl hle)⟩
    · obtain ⟨hle, hlt⟩ := h
      exact ⟨hne _ (by omega), hne _ (by omega), .inr (.inr ⟨hle, hlt⟩)⟩
    all_goals
      obtain ⟨hlow, hout⟩ := h
      exact ⟨hne _ hlow, hne _ hlow, hout.imp id fun hle => .inl (by omega)⟩
  | direct address =>
    cases address with
    | const address =>
      cases hcell
      have hfive : 5 ≤ cell.toNat := hregular
      have hout : cell.toNat < 256 ∨ bound ≤ cell.toNat := h
      refine ⟨?_, ?_, hout.imp id fun hle => .inl (by omega)⟩
      · rintro rfl
        exact absurd hfive (by decide)
      · rintro rfl
        exact absurd hfive (by decide)
    | reg register =>
      cases hcell
      rcases hregular with rfl | rfl <;> exact ⟨by decide, by decide, .inl (by decide)⟩
    | symbol name => cases hcell

/-- A disciplined action other than a call or return satisfies `Keeps`. -/
theorem Emits.keeps {action : Action} {code : List Inst} {ram : Ram} {behind : Word}
    {args bound : Nat} (h : Emits action code) (hsafe : action.Safe ram)
    (hd : action.Disciplined ram args bound) (hsize : bound ≤ ramSize)
    (harg : 256 ≤ (ram.reg .arg).toNat) (hlink : action.isLinkage = false) :
    ram.Keeps args (action.result ram behind) := by
  obtain ⟨hlow, hlcl, hbound, hconfined⟩ := hd
  have harith : ∀ arith, action = .arith arith → ram.Keeps args (arith.result ram) := by
    rintro arith rfl
    cases hu : arith.isUnary with
    | true =>
      have hmem : ram.reg .sp - 1 ∈ (Action.arith arith).stackCells ram := by
        simp [Action.stackCells, hu]
      have hcell := hsafe.1 _ hmem
      rw [Arith.result, if_pos hu]
      exact Ram.keeps_set hcell.inRange (hcell.ne_address (by decide))
        (hcell.ne_address (by decide)) (.inr (.inl (hconfined _ hmem)))
    | false =>
      have hmem : ram.reg .sp - 2 ∈ (Action.arith arith).stackCells ram := by
        simp [Action.stackCells, hu]
      have hcell := hsafe.1 _ hmem
      rw [Arith.result, if_neg (by rw [hu]; exact Bool.false_ne_true)]
      refine (Ram.keeps_setReg (by decide) (by decide)).trans (Ram.keeps_set hcell.inRange
        (hcell.ne_address (by decide)) (hcell.ne_address (by decide)) (.inr (.inl ?_)))
      rw [Ram.reg_setReg_of_ne (by decide)]
      exact hconfined _ hmem
  cases h with
  | binary h | unary h | comparison h id => exact harith _ rfl
  | push h =>
    have hcell := hsafe.1 _ (List.mem_singleton_self _)
    exact (Ram.keeps_set hcell.inRange (hcell.ne_address (by decide))
      (hcell.ne_address (by decide)) (.inr (.inl hlcl))).trans
        (Ram.keeps_setReg (by decide) (by decide))
  | pop h hpop =>
    obtain ⟨cell, hcell⟩ := Machine.popped_isSome hpop h ram
    obtain ⟨hne, hne', hout⟩ := hconfined.2.clear h hcell harg hlow (by omega)
    have hin : Ram.inRange cell = true := hsafe.2 cell (Option.mem_toList.2 hcell)
    rw [Action.result, hcell]
    refine (Ram.keeps_setReg (by decide) (by decide)).trans (Ram.keeps_set hin hne hne' ?_)
    rwa [Ram.reg_setReg_of_ne (by decide), Ram.reg_setReg_of_ne (by decide)]
  | label name | goto name => exact .refl args ram
  | ifGoto name => exact Ram.keeps_setReg (by decide) (by decide)
  | function name locals =>
    rw [Action.result, Ram.entered, Ram.zeroed_eq_stored]
    refine (Ram.keeps_stored hlow hlcl ?_).trans (Ram.keeps_setReg (by decide) (by decide))
    rw [List.length_replicate]
    exact Ram.OnStack.add_le ⟨by omega, by omega⟩ fun i hi =>
      (hsafe.1 _ (List.mem_map_of_mem (List.mem_range.2 hi))).inRange
  | call callee args returnLabel => cases hlink
  | ret => cases hlink

/-! ## Frames -/

namespace Ram

/-- The words in `first, …, first + count - 1`. -/
def window (ram : Ram) (first : Word) (count : Nat) : List Word :=
  (List.range count).map fun i => ram.get (first + UInt16.ofNat i)

theorem window_eq_iff {ram : Ram} {first : Word} {words : List Word} :
    ram.window first words.length = words ↔
      ∀ (i : Nat) (hi : i < words.length), ram.get (first + UInt16.ofNat i) = words[i] := by
  constructor
  · intro h i hi
    have hcell := congrArg (·[i]?) h
    simpa [window, hi] using hcell
  · intro h
    refine List.ext_getElem (by simp [window]) fun i _ hi => ?_
    rw [← h i hi]
    simp [window]

/-- `ram` has the frame of a call made in `before`, and `LCL` and `ARG` as set by it. -/
structure Framed (before : Ram) (args resume : Word) (ram : Ram) : Prop where
  lcl : ram.reg .lcl = before.reg .sp + 5
  arg : ram.reg .arg = before.reg .sp - args
  frame : ram.window (before.reg .sp) 5 = before.frame resume

/-- `ram'` is `ram` after a return to `before`: the result in `SP - args` of `before`, `SP` behind
it, the four pointers of `before`, and no other cell changed but `R13` and `R14`. -/
structure Restored (before : Ram) (args : Word) (ram ram' : Ram) : Prop where
  sp : ram'.reg .sp = before.reg .sp - args + 1
  value : ram'.get (before.reg .sp - args) = ram.get (ram.reg .sp - 1)
  pointers : ∀ r ∈ [Register.lcl, .arg, .this, .that], ram'.reg r = before.reg r
  other : ∀ a, inRange a = true → a ≠ before.reg .sp - args →
    (∀ r ∈ [Register.sp, .lcl, .arg, .this, .that, .r13, .r14], a ≠ r.address) →
    ram'.get a = ram.get a

namespace Framed

variable {before ram : Ram} {args resume : Word}

theorem get_frame (h : Framed before args resume ram) {w : Word} {i : Nat}
    (hi : 5 - w = UInt16.ofNat i) (hlt : i < (before.frame resume).length) :
    ram.reg .lcl - w = before.reg .sp + UInt16.ofNat i ∧
      ram.get (before.reg .sp + UInt16.ofNat i) = (before.frame resume)[i] := by
  refine ⟨?_, window_eq_iff.1 h.frame i hlt⟩
  rw [h.lcl, add_sub_assoc, hi]

theorem onStack_arg (h : Framed before args resume ram)
    (hlow : 15 + args.toNat ≤ (before.reg .sp).toNat)
    (hfits : (before.reg .sp).toNat + 5 ≤ ramSize) :
    OnStack (ram.reg .arg) ∧ (ram.reg .arg).toNat ≤ (before.reg .sp).toNat := by
  have hle : args ≤ before.reg .sp := UInt16.le_iff_toNat_le.2 (by omega)
  have harg : (ram.reg .arg).toNat = (before.reg .sp).toNat - args.toNat := by
    rw [h.arg, UInt16.toNat_sub_of_le _ _ hle]
  exact ⟨⟨by omega, by omega⟩, by omega⟩

/-- Storing the result does not overwrite the saved pointers. -/
theorem get_saved (h : Framed before args resume ram)
    (hlow : 15 + args.toNat ≤ (before.reg .sp).toNat)
    (hfits : (before.reg .sp).toNat + 5 ≤ ramSize) {w v : Word} {i : Nat}
    (hi : 5 - w = UInt16.ofNat i) (hpos : 0 < i) (hlt : i < (before.frame resume).length) :
    (ram.set (ram.reg .arg) v).get (ram.reg .lcl - w) = (before.frame resume)[i] := by
  obtain ⟨hcell, hsaved⟩ := h.get_frame hi hlt
  obtain ⟨harg, hbelow⟩ := h.onStack_arg hlow hfits
  have hlt : i < 5 := hlt
  have hsp : OnStack (before.reg .sp) := ⟨by omega, by omega⟩
  have hnat := hsp.toNat_add (i := i) (by simp only [ramSize]; omega)
  rw [hcell, get_set_of_ne harg.inRange (hsp.add (by omega)).inRange, hsaved]
  intro heq
  rw [heq] at hbelow
  omega

/-- `returned` of a `Framed` memory resumes at `resume` and is `Restored`. -/
theorem restored (h : Framed before args resume ram)
    (hlow : 15 + args.toNat ≤ (before.reg .sp).toNat)
    (hfits : (before.reg .sp).toNat + 5 ≤ ramSize) :
    ram.resumption = resume ∧ Restored before args ram ram.returned := by
  obtain ⟨harg, -⟩ := h.onStack_arg hlow hfits
  have hget : ∀ a, inRange a = true →
      (∀ r ∈ [Register.sp, .lcl, .arg, .this, .that, .r13, .r14], a ≠ r.address) →
      ram.returned.get a = (ram.set (ram.reg .arg) (ram.get (ram.reg .sp - 1))).get a := by
    intro a ha hne
    simp only [returned]
    iterate 7 rw [get_setReg_of_ne ha (hne _ (by decide))]
  refine ⟨?_, ?_, ?_, fun r hr => ?_, fun a ha hne hregs => ?_⟩
  · obtain ⟨hcell, hsaved⟩ := h.get_frame (w := 5) (i := 0) rfl (by simp [Ram.frame])
    rw [resumption, hcell, hsaved]
    rfl
  · rw [← h.arg]
    simp [returned, reg_setReg_of_ne]
  · rw [← h.arg, hget _ harg.inRange, get_set_self]
    intro r hr
    refine harg.ne_address ?_
    rintro rfl
    exact absurd hr (by decide)
  · simp only [List.mem_cons, List.not_mem_nil, or_false] at hr
    rcases hr with rfl | rfl | rfl | rfl
    · simpa [returned, reg_setReg_of_ne, Ram.frame] using
        h.get_saved hlow hfits (i := 1) rfl (by decide) (by simp [Ram.frame])
    · simpa [returned, reg_setReg_of_ne, Ram.frame] using
        h.get_saved hlow hfits (i := 2) rfl (by decide) (by simp [Ram.frame])
    · simpa [returned, reg_setReg_of_ne, Ram.frame] using
        h.get_saved hlow hfits (i := 3) rfl (by decide) (by simp [Ram.frame])
    · simpa [returned, reg_setReg_of_ne, Ram.frame] using
        h.get_saved hlow hfits (i := 4) rfl (by decide) (by simp [Ram.frame])
  · rw [hget a ha hregs, get_set_of_ne harg.inRange ha]
    rw [h.arg]
    exact hne.symm

end Framed

end Ram

/-- An open call: the address of its return label, its number of arguments, and memory before it. -/
structure Activation where
  resume : Nat
  args : Word
  ram : Ram

namespace Activation

/-- The frame of `c` is in `ram`, `LCL` and `ARG` are as set by it, and the stack below its
arguments is that of `c.ram`. -/
structure Holds (c : Activation) (ram : Ram) : Prop where
  room : 256 + c.args.toNat ≤ (c.ram.reg .sp).toNat
  above : (c.ram.reg .lcl).toNat + c.args.toNat ≤ (c.ram.reg .sp).toNat
  fits : (c.ram.reg .sp).toNat + 5 ≤ ramSize
  lcl : ram.reg .lcl = c.ram.reg .sp + 5
  arg : ram.reg .arg = c.ram.reg .sp - c.args
  frame : ∀ (i : Nat) (hi : i < (c.ram.frame (UInt16.ofNat c.resume)).length),
    ram.get (c.ram.reg .sp + UInt16.ofNat i) = (c.ram.frame (UInt16.ofNat c.resume))[i]
  kept : ∀ a : Word, 256 ≤ a.toNat → a.toNat + c.args.toNat < (c.ram.reg .sp).toNat →
    ram.get a = c.ram.get a

variable {c : Activation} {ram ram' : Ram}

theorem Holds.toNat_lcl (h : c.Holds ram) : (ram.reg .lcl).toNat = (c.ram.reg .sp).toNat + 5 := by
  have := h.fits
  rw [h.lcl, word_toNat_add (by simp only [ramSize] at this; simp; omega)]
  rfl

theorem Holds.toNat_arg (h : c.Holds ram) :
    (ram.reg .arg).toNat = (c.ram.reg .sp).toNat - c.args.toNat := by
  have := h.room
  rw [h.arg, UInt16.toNat_sub_of_le]
  exact UInt16.le_iff_toNat_le.2 (by omega)

theorem toNat_frame_cell (h : c.Holds ram) {i : Nat} (hi : i < 5) :
    (c.ram.reg .sp + UInt16.ofNat i).toNat = (c.ram.reg .sp).toNat + i := by
  have := h.fits
  have hnat : (UInt16.ofNat i).toNat = i := word_toNat_ofNat (by omega)
  rw [word_toNat_add, hnat]
  simp only [ramSize] at this
  omega

theorem Holds.of_keeps (h : c.Holds ram) (hk : ram.Keeps c.args.toNat ram') : c.Holds ram' := by
  have hlcl := h.toNat_lcl
  have harg := h.toNat_arg
  have hroom := h.room
  have hfits := h.fits
  refine ⟨hroom, h.above, hfits, hk.lcl.trans h.lcl, hk.arg.trans h.arg, fun i hi => ?_,
    fun a hlow hbelow => ?_⟩
  · have hcell := toNat_frame_cell h hi
    have hlt : i < 5 := hi
    rw [hk.get _ (Ram.inRange_iff.2 (by omega)) (by omega) (by omega) (.inr (by omega)),
      h.frame i hi]
  · rw [hk.get a (Ram.inRange_iff.2 (by omega)) hlow (by omega) (.inl (by omega)),
      h.kept a hlow hbelow]

/-- A call `Holds` right after it is made. -/
theorem holds_called (c : Activation) (hroom : 256 + c.args.toNat ≤ (c.ram.reg .sp).toNat)
    (habove : (c.ram.reg .lcl).toNat + c.args.toNat ≤ (c.ram.reg .sp).toNat)
    (hfits : (c.ram.reg .sp).toNat + 5 ≤ ramSize) :
    c.Holds (c.ram.called c.args (UInt16.ofNat c.resume)) := by
  have hsp : Ram.OnStack (c.ram.reg .sp) := ⟨by omega, by omega⟩
  refine ⟨hroom, habove, hfits, Ram.called_lcl, ?_, fun i hi => Ram.get_called_frame hsp hfits hi,
    fun a hlow hbelow => ?_⟩
  · rw [Ram.called, Ram.reg_setReg_of_ne (by decide), Ram.reg_setReg_self]
  · exact Ram.get_called_of_outside ⟨by omega, by omega⟩ hfits (.inl (by omega))

theorem Holds.framed (h : c.Holds ram) :
    Ram.Framed c.ram c.args (UInt16.ofNat c.resume) ram :=
  ⟨h.lcl, h.arg, Ram.window_eq_iff.2 h.frame⟩

/-- A return from `c` resumes at `c.resume`, with the result in place of the arguments and the
pointers of `c.ram`. -/
theorem Holds.returned (h : c.Holds ram) :
    ram.resumption = UInt16.ofNat c.resume ∧
      ram.returned.reg .sp = c.ram.reg .sp - c.args + 1 ∧
      (∀ r ∈ [Register.lcl, .arg, .this, .that], ram.returned.reg r = c.ram.reg r) ∧
      ram.returned.get (ram.returned.reg .sp - 1) = ram.get (ram.reg .sp - 1) ∧
      ∀ a : Word, 256 ≤ a.toNat → a.toNat + c.args.toNat < (c.ram.reg .sp).toNat →
        ram.returned.get a = c.ram.get a := by
  have hroom := h.room
  have hfits := h.fits
  obtain ⟨hback, hsp, hvalue, hpointers, hother⟩ := h.framed.restored (by omega) hfits
  refine ⟨hback, hsp, hpointers, ?_, fun a hlow hbelow => ?_⟩
  · rw [hsp, add_sub_cancel_right, hvalue]
  · have hstack : Ram.OnStack a := ⟨by omega, by omega⟩
    rw [hother a hstack.inRange, h.kept a hlow hbelow]
    · rw [← h.arg]
      rintro rfl
      have := h.toNat_arg
      omega
    · intro r hr
      refine hstack.ne_address ?_
      rintro rfl
      exact absurd hr (by decide)

end Activation

/-- Every open call `Holds` in the memory before the next one, the first in `ram`; `LCL` was zero
before the last. -/
def Chained : List Activation → Ram → Prop
  | [], ram => ram.reg .lcl = 0
  | c :: calls, ram => c.Holds ram ∧ Chained calls c.ram

/-- The number of arguments of the innermost open call. -/
def argsOf : List Activation → Nat
  | [] => 0
  | c :: _ => c.args.toNat

theorem Chained.of_keeps {calls : List Activation} {ram ram' : Ram} (h : Chained calls ram)
    (hk : ram.Keeps (argsOf calls) ram') : Chained calls ram' := by
  cases calls with
  | nil => exact hk.lcl.trans h
  | cons c calls => exact ⟨h.1.of_keeps hk, h.2⟩

/-- A return leaves the outer calls `Chained`. -/
theorem Chained.returned {c : Activation} {calls : List Activation} {ram : Ram}
    (h : Chained (c :: calls) ram) : Chained calls ram.returned := by
  obtain ⟨-, -, hregs, -, hkept⟩ := h.1.returned
  refine h.2.of_keeps ⟨hregs _ (by simp), hregs _ (by simp), fun a _ hlow hbelow _ => ?_⟩
  have := h.1.above
  exact hkept a hlow (by omega)

theorem Chained.exists_cons {calls : List Activation} {ram : Ram} (h : Chained calls ram)
    (hlow : 256 ≤ (ram.reg .lcl).toNat) : ∃ c rest, calls = c :: rest := by
  cases calls with
  | nil =>
    rw [show ram.reg .lcl = 0 from h] at hlow
    cases hlow
  | cons c rest => exact ⟨c, rest, rfl⟩

/-- Under `Chained`, a disciplined action is `Rooted`. -/
theorem Action.Disciplined.rooted {action : Action} {ram : Ram} {args bound : Nat}
    {calls : List Activation} (h : action.Disciplined ram args bound) (hsize : bound ≤ ramSize)
    (hchain : Chained calls ram) : action.Rooted ram := by
  obtain ⟨hlow, hlcl, hbound, -⟩ := h
  have hsub : ∀ v w : Word, 20 ≤ v.toNat → v.toNat < ramSize → w.toNat ≤ 5 →
      Ram.OnStack (v - w) := fun v w hv hlt hw => by
    have hnat := UInt16.toNat_sub_of_le v w (UInt16.le_iff_toNat_le.2 (by omega))
    exact ⟨by omega, by omega⟩
  have htop : ∀ w : Word, w.toNat ≤ 5 → Ram.OnStack (ram.reg .sp - w) := fun w hw =>
    hsub _ w (by omega) (by omega) hw
  cases action with
  | push source => exact (⟨by omega, by omega⟩ : Ram.OnStack (ram.reg .sp))
  | call callee count => exact (⟨by omega, by omega⟩ : Ram.OnStack (ram.reg .sp))
  | function name locals => exact (⟨by omega, by omega⟩ : Ram.OnStack (ram.reg .sp))
  | label name | goto name => exact fun cell hcell => absurd hcell List.not_mem_nil
  | pop target | ifGoto name =>
    intro cell hcell
    rw [List.mem_singleton.1 hcell]
    exact htop 1 (by decide)
  | arith operation =>
    intro cell hcell
    simp only [Action.stackCells] at hcell
    split_ifs at hcell
    · rw [List.mem_singleton.1 hcell]
      exact htop 1 (by decide)
    · simp only [List.mem_cons, List.not_mem_nil, or_false] at hcell
      rcases hcell with rfl | rfl
      · exact htop 1 (by decide)
      · exact htop 2 (by decide)
  | ret =>
    obtain ⟨c, rest, rfl⟩ := hchain.exists_cons hlow
    have harg := hchain.1.toNat_arg
    have hlcl' := hchain.1.toNat_lcl
    have hroom := hchain.1.room
    intro cell hcell
    rcases List.mem_append.1 hcell with hcell | hcell
    · simp only [List.mem_cons, List.not_mem_nil, or_false] at hcell
      rcases hcell with rfl | rfl
      · exact htop 1 (by decide)
      · exact ⟨by omega, by omega⟩
    · obtain ⟨w, hw, rfl⟩ := List.mem_map.1 hcell
      have hsmall : ∀ w ∈ [1, 2, 3, 4, (5 : Word)], w.toNat ≤ 5 := by simp
      exact hsub _ w (by omega) (by omega) (hsmall w hw)

end HackVM
