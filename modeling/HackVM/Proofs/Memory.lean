/-
  Data memory as a map from addresses to words: `get` after `set`, commuting stores, and the named
  cells (`reg`, `setReg`) beside the stack (`OnStack`).
-/
import Mathlib
import HackVM.Assembly.Instruction
import HackVM.Machine.Ram

namespace HackVM

/-! ## Words -/

theorem word_le_one_iff {w : Word} : w ≤ 1 ↔ w = 0 ∨ w = 1 := by
  rw [UInt16.le_iff_toNat_le, ← UInt16.toNat_inj, ← UInt16.toNat_inj]
  simp
  omega

theorem word_sub_one_sub_one (w : Word) : w - 1 - 1 = w - 2 := by
  rw [sub_sub]
  rfl

theorem word_add_one_add (w : Word) (i : Nat) :
    w + 1 + UInt16.ofNat i = w + UInt16.ofNat (i + 1) := by
  rw [add_assoc, add_comm 1, UInt16.ofNat_add]
  rfl

theorem word_toNat_ofNat {n : Nat} (h : n < 65536) : (UInt16.ofNat n).toNat = n :=
  UInt16.toNat_ofNat_of_lt' h

theorem word_toNat_add {v w : Word} (h : v.toNat + w.toNat < 65536) :
    (v + w).toNat = v.toNat + w.toNat := by
  rw [UInt16.toNat_add, Nat.mod_eq_of_lt h]

namespace Ram

open Assembly

/-! ## Cells -/

theorem inRange_iff {a : Word} : inRange a = true ↔ a.toNat < ramSize := decide_eq_true_iff

theorem slot_eq_iff {i j : Word} (hi : inRange i = true) (hj : inRange j = true) :
    i.toNat % ramSize = j.toNat % ramSize ↔ i = j := by
  rw [inRange_iff] at hi hj
  rw [Nat.mod_eq_of_lt hi, Nat.mod_eq_of_lt hj, UInt16.toNat_inj]

@[simp] theorem get_set_self (ram : Ram) (i v : Word) : (ram.set i v).get i = v := by
  simp [get_set]

theorem get_set_of_ne {ram : Ram} {i j v : Word} (hi : inRange i = true) (hj : inRange j = true)
    (h : i ≠ j) : (ram.set i v).get j = ram.get j := by
  rw [get_set, if_neg (mt (slot_eq_iff hi hj).1 h)]

@[simp] theorem get_blank (a : Word) : blank.get a = 0 := by
  simp [get, blank]

/-- Memories with equal cells are equal. -/
theorem ext_get {r s : Ram} (h : ∀ a, inRange a = true → r.get a = s.get a) : r = s := by
  obtain ⟨r⟩ := r
  obtain ⟨s⟩ := s
  congr 1
  apply Vector.ext
  intro i hi
  have hlt : i < 32768 := hi
  have hnat : (UInt16.ofNat i).toNat = i := word_toNat_ofNat (by omega)
  have := h (UInt16.ofNat i) (by rw [inRange_iff, hnat]; exact hi)
  simpa only [get, hnat, Nat.mod_eq_of_lt hi] using this

@[simp] theorem set_set (ram : Ram) (i v w : Word) : (ram.set i v).set i w = ram.set i w := by
  simp [set]

theorem set_comm {ram : Ram} {i j v w : Word} (hi : inRange i = true) (hj : inRange j = true)
    (h : i ≠ j) : (ram.set i v).set j w = (ram.set j w).set i v := by
  have hne : i.toNat % ramSize ≠ j.toNat % ramSize := mt (slot_eq_iff hi hj).1 h
  simp only [set]
  rw [Vector.set_comm _ _ hne]

/-! ## Named cells -/

/-- `RAM[r.address]`. -/
def reg (ram : Ram) (r : Register) : Word := ram.get r.address

/-- `RAM[r.address] := v`. -/
def setReg (ram : Ram) (r : Register) (v : Word) : Ram := ram.set r.address v

theorem get_address (ram : Ram) (r : Register) : ram.get r.address = ram.reg r := rfl

theorem set_address (ram : Ram) (r : Register) (v : Word) :
    ram.set r.address v = ram.setReg r v := rfl

@[simp] theorem inRange_address (r : Register) : inRange r.address = true := by
  cases r <;> decide

theorem toNat_address_lt (r : Register) : r.address.toNat < 16 := by
  cases r <;> decide

@[simp] theorem address_inj {r s : Register} : r.address = s.address ↔ r = s := by
  cases r <;> cases s <;> decide

@[simp] theorem reg_setReg_self (ram : Ram) (r : Register) (v : Word) :
    (ram.setReg r v).reg r = v := get_set_self ..

theorem reg_setReg_of_ne {ram : Ram} {r s : Register} {v : Word} (h : r ≠ s) :
    (ram.setReg r v).reg s = ram.reg s :=
  get_set_of_ne (inRange_address r) (inRange_address s) (mt address_inj.1 h)

@[simp] theorem setReg_setReg (ram : Ram) (r : Register) (v w : Word) :
    (ram.setReg r v).setReg r w = ram.setReg r w := set_set ..

theorem setReg_comm {ram : Ram} {r s : Register} {v w : Word} (h : r ≠ s) :
    (ram.setReg r v).setReg s w = (ram.setReg s w).setReg r v :=
  set_comm (inRange_address r) (inRange_address s) (mt address_inj.1 h)

theorem setReg_reg_self (ram : Ram) (r : Register) : ram.setReg r (ram.reg r) = ram := by
  apply ext_get
  intro a ha
  by_cases h : r.address = a
  · rw [← h, setReg, get_set_self, reg]
  · exact get_set_of_ne (inRange_address r) ha h

theorem get_setReg {ram : Ram} {r : Register} {a v : Word} (ha : Ram.inRange a = true) :
    (ram.setReg r v).get a = if r.address = a then v else ram.get a := by
  split_ifs with h
  · rw [← h, setReg, get_set_self]
  · exact get_set_of_ne (inRange_address r) ha h

/-- Memories with equal registers and equal cells elsewhere are equal. -/
theorem ext_reg {m n : Ram} (hreg : ∀ r, m.reg r = n.reg r)
    (hget : ∀ a, inRange a = true → (∀ r : Register, a ≠ r.address) → m.get a = n.get a) :
    m = n := by
  apply ext_get
  intro a ha
  by_cases h : ∃ r : Register, a = r.address
  · obtain ⟨r, rfl⟩ := h
    exact hreg r
  · exact hget a ha (not_exists.1 h)

/-! ## Cells of the stack -/

/-- `15 ≤ a < ramSize`: none of the named cells but `R15`, which compiled code does not use. -/
def OnStack (a : Word) : Prop := 15 ≤ a.toNat ∧ a.toNat < ramSize

instance (a : Word) : Decidable (OnStack a) := inferInstanceAs (Decidable (_ ∧ _))

theorem OnStack.inRange {a : Word} (h : OnStack a) : inRange a = true := inRange_iff.2 h.2

theorem OnStack.ne_address {a : Word} (h : OnStack a) {r : Register} (hr : r ≠ .r15) :
    a ≠ r.address := by
  rintro rfl
  have hlow := h.1
  cases r with
  | r15 => exact hr rfl
  | _ => exact absurd hlow (by decide)

theorem OnStack.ne_sp {a : Word} (h : OnStack a) : a ≠ Register.sp.address :=
  h.ne_address (by decide)

theorem OnStack.toNat_succ {a : Word} (h : OnStack a) : (a + 1).toNat = a.toNat + 1 := by
  have := h.2
  exact word_toNat_add (by simp [ramSize] at this ⊢; omega)

theorem OnStack.toNat_add {a : Word} {i : Nat} (h : OnStack a) (hi : i < ramSize) :
    (a + UInt16.ofNat i).toNat = a.toNat + i := by
  have := h.2
  simp only [ramSize] at this hi
  have hnat : (UInt16.ofNat i).toNat = i := word_toNat_ofNat (by omega)
  rw [word_toNat_add, hnat]
  omega

theorem OnStack.add {a : Word} {i : Nat} (h : OnStack a) (hi : a.toNat + i < ramSize) :
    OnStack (a + UInt16.ofNat i) := by
  have := h.1
  have hsum := h.toNat_add (i := i) (by omega)
  exact ⟨by omega, by omega⟩

/-- If `a, …, a + n - 1` are all in range, then `a + n ≤ ramSize` without wrapping. -/
theorem OnStack.add_le {a : Word} {n : Nat} (h : OnStack a)
    (hall : ∀ i < n, Ram.inRange (a + UInt16.ofNat i) = true) : a.toNat + n ≤ ramSize := by
  by_contra hlong
  have hlt := h.2
  have hlow := h.1
  have hout := hall (ramSize - a.toNat) (by omega)
  rw [inRange_iff, h.toNat_add (by omega)] at hout
  omega

theorem get_setReg_of_ne {ram : Ram} {r : Register} {a v : Word} (ha : Ram.inRange a = true)
    (h : a ≠ r.address) : (ram.setReg r v).get a = ram.get a :=
  get_set_of_ne (inRange_address r) ha h.symm

theorem get_setReg_onStack {ram : Ram} {r : Register} {a v : Word} (ha : OnStack a)
    (hr : r ≠ .r15) : (ram.setReg r v).get a = ram.get a :=
  get_setReg_of_ne ha.inRange (ha.ne_address hr)

theorem reg_set_of_ne {ram : Ram} {r : Register} {a v : Word} (ha : Ram.inRange a = true)
    (h : a ≠ r.address) : (ram.set a v).reg r = ram.reg r :=
  get_set_of_ne ha (inRange_address r) h

/-- A store above a register leaves it alone. -/
theorem reg_set_of_lt {ram : Ram} {r : Register} {a v : Word} (ha : Ram.inRange a = true)
    (h : r.address.toNat < a.toNat) : (ram.set a v).reg r = ram.reg r := by
  apply reg_set_of_ne ha
  rintro rfl
  exact absurd h (Nat.lt_irrefl _)

theorem reg_set_onStack {ram : Ram} {r : Register} {a v : Word} (ha : OnStack a)
    (hr : r ≠ .r15) : (ram.set a v).reg r = ram.reg r :=
  reg_set_of_ne ha.inRange (ha.ne_address hr)

theorem setReg_set_comm {ram : Ram} {r : Register} {a v w : Word} (ha : Ram.inRange a = true)
    (h : a ≠ r.address) : (ram.setReg r v).set a w = (ram.set a w).setReg r v :=
  set_comm (inRange_address r) ha h.symm

end Ram

end HackVM
