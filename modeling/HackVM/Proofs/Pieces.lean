/-
  The effect of the pieces of code. Each piece has one lemma that gives `exec` of it: memory and
  registers after it, or `none` for a forbidden access.
-/
import Mathlib
import HackVM.Compile.Access
import HackVM.Compile.Arithmetic
import HackVM.Compile.Flow
import HackVM.Proofs.Execution
import HackVM.Proofs.Meaning

namespace HackVM.Compile

open Assembly

variable {labels : String → Word}

/-! ## Single instructions -/

section Instructions

variable (code : List Inst) (s : Store)

theorem exec_nil : exec labels [] s = some s := rfl

theorem exec_load (address : Address) :
    exec labels (.load address :: code) s =
      exec labels code { s with a := address.value labels } := by
  rw [exec]
  rfl

theorem exec_reg (r : Register) :
    exec labels (.reg r :: code) s = exec labels code { s with a := r.address } := by
  rw [exec]
  rfl

theorem exec_const (value : Word) :
    exec labels (.const value :: code) s = exec labels code { s with a := value } := by
  rw [exec]
  rfl

theorem exec_symbol (name : String) :
    exec labels (.symbol name :: code) s = exec labels code { s with a := labels name } := by
  rw [exec]
  rfl

theorem exec_label (name : String) : exec labels (.label name :: code) s = exec labels code s := by
  rw [exec]
  rfl

theorem exec_assign (dest : Dest) (comp : Comp) :
    exec labels (.assign dest comp :: code) s =
      if !(comp.readsMemory || dest.writesM) || Ram.inRange s.a then
        let value := comp.eval s.d (if comp.readsMemory then s.ram.get s.a else s.a)
        exec labels code ⟨if dest.writesM then s.ram.set s.a value else s.ram,
          if dest.writesA then value else s.a, if dest.writesD then value else s.d⟩
      else none := by
  have hflip : (Machine.touchesMemory (some dest) comp && !Ram.inRange s.a) =
      !(!(comp.readsMemory || dest.writesM) || Ram.inRange s.a) := by
    simp [Machine.touchesMemory]
  rw [exec, Inst.apply, hflip]
  by_cases hok : (!(comp.readsMemory || dest.writesM) || Ram.inRange s.a) = true
  · rw [if_pos hok, hok]
    rfl
  · rw [if_neg hok, Bool.eq_false_iff.2 hok]
    rfl

variable (ram : Ram) (a d : Word) {comp : Comp}

theorem exec_d_of_reads (h : comp.readsMemory = true) :
    exec labels (.assign .d comp :: code) ⟨ram, a, d⟩ =
      if Ram.inRange a then exec labels code ⟨ram, a, comp.eval d (ram.get a)⟩ else none := by
  simp [exec_assign, h, Dest.writesM, Dest.writesA, Dest.writesD]

theorem exec_d_of_not_reads (h : comp.readsMemory = false) :
    exec labels (.assign .d comp :: code) ⟨ram, a, d⟩ =
      exec labels code ⟨ram, a, comp.eval d a⟩ := by
  simp [exec_assign, h, Dest.writesM, Dest.writesA, Dest.writesD]

theorem exec_a_of_reads (h : comp.readsMemory = true) :
    exec labels (.assign .a comp :: code) ⟨ram, a, d⟩ =
      if Ram.inRange a then exec labels code ⟨ram, comp.eval d (ram.get a), d⟩ else none := by
  simp [exec_assign, h, Dest.writesM, Dest.writesA, Dest.writesD]

theorem exec_a_of_not_reads (h : comp.readsMemory = false) :
    exec labels (.assign .a comp :: code) ⟨ram, a, d⟩ =
      exec labels code ⟨ram, comp.eval d a, d⟩ := by
  simp [exec_assign, h, Dest.writesM, Dest.writesA, Dest.writesD]

theorem exec_m_of_reads (h : comp.readsMemory = true) :
    exec labels (.assign .m comp :: code) ⟨ram, a, d⟩ =
      if Ram.inRange a then exec labels code ⟨ram.set a (comp.eval d (ram.get a)), a, d⟩
      else none := by
  simp [exec_assign, h, Dest.writesM, Dest.writesA, Dest.writesD]

theorem exec_m_of_not_reads (h : comp.readsMemory = false) :
    exec labels (.assign .m comp :: code) ⟨ram, a, d⟩ =
      if Ram.inRange a then exec labels code ⟨ram.set a (comp.eval d a), a, d⟩ else none := by
  simp [exec_assign, h, Dest.writesM, Dest.writesA, Dest.writesD]

theorem exec_am_of_reads (h : comp.readsMemory = true) :
    exec labels (.assign .am comp :: code) ⟨ram, a, d⟩ =
      if Ram.inRange a then
        exec labels code ⟨ram.set a (comp.eval d (ram.get a)), comp.eval d (ram.get a), d⟩
      else none := by
  simp [exec_assign, h, Dest.writesM, Dest.writesA, Dest.writesD]

end Instructions

attribute [local simp] exec_nil exec_load exec_reg exec_const exec_symbol exec_label
  exec_d_of_reads exec_d_of_not_reads exec_a_of_reads exec_a_of_not_reads exec_m_of_reads
  exec_m_of_not_reads exec_am_of_reads Comp.readsMemory Comp.source? Comp.eval
  Address.value Operand.value Ram.get_address Ram.set_address

variable (labels)

/-! ## The stack -/

theorem exec_pushD (s : Store) :
    exec labels pushD s =
      if Ram.inRange (s.ram.reg .sp) then
        some ⟨(s.ram.setReg .sp (s.ram.reg .sp + 1)).set (s.ram.reg .sp) s.d, s.ram.reg .sp, s.d⟩
      else none := by
  simp [pushD]

theorem exec_popToD (s : Store) :
    exec labels popToD s =
      if Ram.inRange (s.ram.reg .sp - 1) then
        some ⟨s.ram.setReg .sp (s.ram.reg .sp - 1), s.ram.reg .sp - 1,
          (s.ram.setReg .sp (s.ram.reg .sp - 1)).get (s.ram.reg .sp - 1)⟩
      else none := by
  simp [popToD]

theorem exec_topToA (s : Store) :
    exec labels topToA s = some { s with a := s.ram.reg .sp - 1 } := by
  simp [topToA]

theorem exec_storeViaSum (pops : Bool) (s : Store) :
    exec labels (storeViaSum pops) s =
      let sp := if pops then s.ram.reg .sp - 1 else s.ram.reg .sp
      let ram := if pops then s.ram.setReg .sp sp else s.ram
      if Ram.inRange sp && Ram.inRange s.d then
        some ⟨ram.set s.d (ram.get sp), s.d, s.d + ram.get sp⟩
      else none := by
  cases pops with
  | false =>
    by_cases hsp : Ram.inRange (s.ram.reg .sp) = true <;> simp [storeViaSum, hsp]
  | true =>
    by_cases hsp : Ram.inRange (s.ram.reg .sp - 1) = true <;> simp [storeViaSum, hsp]

/-! ## Operands -/

theorem exec_constToD (value : Word) (s : Store) :
    ∃ a, exec labels (constToD value) s = some ⟨s.ram, a, value⟩ := by
  obtain ⟨ram, a, d⟩ := s
  unfold constToD
  split_ifs with h₀ h₁
  · exact ⟨a, by simp [h₀]⟩
  · exact ⟨a, by simp [h₁]⟩
  · exact ⟨value, by simp⟩

/-- `targetToA` sets `A` to `RAM[base] + index`; for indices `0` and `1` it keeps `D`. -/
theorem exec_targetToA (base : Register) (index : Word) (s : Store) :
    ∃ d, exec labels (targetToA base index) s = some ⟨s.ram, s.ram.reg base + index, d⟩ ∧
      (index ≤ 1 → d = s.d) := by
  unfold targetToA
  split_ifs with h₀ h₁
  · exact ⟨s.d, by simp [h₀], fun _ => rfl⟩
  · exact ⟨s.d, by simp [h₁], fun _ => rfl⟩
  · refine ⟨s.ram.reg base, by simp, fun hle => ?_⟩
    rcases word_le_one_iff.1 hle with h | h
    · exact absurd h h₀
    · exact absurd h h₁

theorem exec_targetToD (base : Register) (index : Word) (s : Store) :
    ∃ a, exec labels (targetToD base index) s = some ⟨s.ram, a, s.ram.reg base + index⟩ := by
  unfold targetToD
  split_ifs with h₀ h₁
  · exact ⟨base.address, by simp [h₀]⟩
  · exact ⟨base.address, by simp [h₁]⟩
  · exact ⟨index, by simp⟩

theorem exec_operandToD {source : Operand} {s : Store} (hs : source.Regular)
    (hcell : ∀ cell ∈ source.cell? s.ram, Ram.inRange cell = true) :
    ∃ a, exec labels (operandToD source) s = some ⟨s.ram, a, source.value s.ram⟩ := by
  cases source with
  | immediate value => exact exec_constToD labels value s
  | pointer base index =>
    obtain ⟨d, hd, -⟩ := exec_targetToA labels base index s
    have hin : Ram.inRange (s.ram.reg base + index) = true := hcell _ rfl
    exact ⟨s.ram.reg base + index, by simp [operandToD, exec_append, hd, hin]⟩
  | direct address =>
    cases address with
    | const address =>
      have hin : Ram.inRange address = true := hcell _ rfl
      exact ⟨address, by simp [operandToD, hin]⟩
    | reg register => exact ⟨register.address, by simp [operandToD]⟩
    | symbol name => exact hs.elim

theorem exec_operandToD_eq_none {source : Operand} {s : Store} {cell : Word}
    (hcell : source.cell? s.ram = some cell) (hout : Ram.inRange cell = false) :
    exec labels (operandToD source) s = none := by
  cases source with
  | immediate value => cases hcell
  | pointer base index =>
    obtain ⟨d, hd, -⟩ := exec_targetToA labels base index s
    cases hcell
    simp [operandToD, exec_append, hd, hout]
  | direct address =>
    cases address with
    | const address => cases hcell; simp [operandToD, hout]
    | reg register => cases hcell; simp at hout
    | symbol name => cases hcell

/-! ## Push and pop -/

theorem exec_push {source : Operand} {s : Store} (hs : source.Regular)
    (hcell : ∀ cell ∈ source.cell? s.ram, Ram.inRange cell = true)
    (hsp : Ram.inRange (s.ram.reg .sp) = true) (hne : s.ram.reg .sp ≠ Register.sp.address) :
    ∃ a d, exec labels (push source) s = some ⟨s.ram.pushed (source.value s.ram), a, d⟩ := by
  obtain ⟨a, ha⟩ := exec_operandToD labels hs hcell
  refine ⟨s.ram.reg .sp, source.value s.ram, ?_⟩
  rw [push, exec_append, ha, Option.bind_some, exec_pushD, if_pos hsp, Ram.setReg_set_comm hsp hne]
  rfl

theorem exec_pop {target : Resolved} {code : List Inst} {s : Store} {cell : Word}
    (hcode : pop target = .ok code) (hs : target.operand.Regular)
    (hcell : target.operand.cell? s.ram = some cell) (hin : Ram.inRange cell = true)
    (hsp : Ram.inRange (s.ram.reg .sp - 1) = true)
    (hne : s.ram.reg .sp - 1 ≠ Register.sp.address) :
    ∃ a d, exec labels code s = some ⟨s.ram.popped cell, a, d⟩ := by
  obtain ⟨segment, operand⟩ := target
  have htop : (s.ram.setReg .sp (s.ram.reg .sp - 1)).get (s.ram.reg .sp - 1) =
      s.ram.get (s.ram.reg .sp - 1) := Ram.get_setReg_of_ne hsp hne
  have hpop := exec_popToD labels s
  rw [if_pos hsp, htop] at hpop
  cases operand with
  | immediate value => cases hcell
  | direct address =>
    cases hcode
    refine ⟨cell, s.ram.get (s.ram.reg .sp - 1), ?_⟩
    cases address with
    | const address =>
      cases hcell
      simp [exec_append, hpop, hin, Ram.popped]
    | reg register =>
      cases hcell
      simp [exec_append, hpop, Ram.popped]
    | symbol name => cases hcell
  | pointer base index =>
    cases hcell
    have hbase : (s.ram.setReg .sp (s.ram.reg .sp - 1)).reg base = s.ram.reg base :=
      Ram.reg_setReg_of_ne (Operand.Regular.ne_sp hs).symm
    simp only [pop] at hcode
    split_ifs at hcode with hnear
    · cases hcode
      obtain ⟨d, hd, hsame⟩ := exec_targetToA labels base index
        ⟨s.ram.setReg .sp (s.ram.reg .sp - 1), s.ram.reg .sp - 1, s.ram.get (s.ram.reg .sp - 1)⟩
      rw [hbase] at hd
      cases hsame hnear
      exact ⟨s.ram.reg base + index, s.ram.get (s.ram.reg .sp - 1), by
        simp [exec_append, hpop, hd, hin, Ram.popped]⟩
    · cases hcode
      obtain ⟨a, ha⟩ := exec_targetToD labels base index s
      refine ⟨s.ram.reg base + index, s.ram.reg base + index + s.ram.get (s.ram.reg .sp - 1), ?_⟩
      rw [exec_append, ha, Option.bind_some, exec_storeViaSum]
      simp [hsp, hin, htop, Ram.popped]

theorem exec_pop_eq_none {target : Resolved} {code : List Inst} {s : Store} {cell : Word}
    (hcode : pop target = .ok code) (hs : target.operand.Regular)
    (hcell : target.operand.cell? s.ram = some cell) (hout : Ram.inRange cell = false)
    (hsp : Ram.inRange (s.ram.reg .sp - 1) = true) : exec labels code s = none := by
  obtain ⟨segment, operand⟩ := target
  have hpop := exec_popToD labels s
  rw [if_pos hsp] at hpop
  cases operand with
  | immediate value => cases hcell
  | direct address =>
    cases hcode
    cases address with
    | const address => cases hcell; simp [exec_append, hpop, hout]
    | reg register => cases hcell; simp at hout
    | symbol name => cases hcell
  | pointer base index =>
    cases hcell
    have hbase : (s.ram.setReg .sp (s.ram.reg .sp - 1)).reg base = s.ram.reg base :=
      Ram.reg_setReg_of_ne (Operand.Regular.ne_sp hs).symm
    simp only [pop] at hcode
    split_ifs at hcode with hnear
    · cases hcode
      obtain ⟨d, hd, -⟩ := exec_targetToA labels base index
        ⟨s.ram.setReg .sp (s.ram.reg .sp - 1), s.ram.reg .sp - 1,
          (s.ram.setReg .sp (s.ram.reg .sp - 1)).get (s.ram.reg .sp - 1)⟩
      rw [hbase] at hd
      simp [exec_append, hpop, hd, hout]
    · cases hcode
      obtain ⟨a, ha⟩ := exec_targetToD labels base index s
      rw [exec_append, ha, Option.bind_some, exec_storeViaSum]
      simp [hsp, hout]

/-- `move` stores the source in `cell`; it may also store it at `SP`. -/
theorem exec_move {source : Operand} {target : Resolved} {code : List Inst} {s : Store}
    {cell : Word} (hcode : move source target = .ok code) (hsource : source.Regular)
    (hread : ∀ cell ∈ source.cell? s.ram, Ram.inRange cell = true)
    (htarget : target.operand.Regular) (hcell : target.operand.cell? s.ram = some cell)
    (hin : Ram.inRange cell = true) (hsp : Ram.inRange (s.ram.reg .sp) = true)
    (hlow : 5 ≤ (s.ram.reg .sp).toNat) :
    ∃ ram a d, exec labels code s = some ⟨ram.set cell (source.value s.ram), a, d⟩ ∧
      (ram = s.ram ∨ ram = s.ram.set (s.ram.reg .sp) (source.value s.ram)) := by
  obtain ⟨segment, operand⟩ := target
  obtain ⟨a, ha⟩ := exec_operandToD labels hsource hread
  generalize source.value s.ram = v at ha ⊢
  cases operand with
  | immediate value => cases hcell
  | direct address =>
    cases hcode
    refine ⟨s.ram, cell, v, ?_, .inl rfl⟩
    cases address with
    | const address =>
      cases hcell
      simp [exec_append, ha, hin]
    | reg register =>
      cases hcell
      simp [exec_append, ha]
    | symbol name => cases hcell
  | pointer base index =>
    cases hcell
    simp only [move] at hcode
    split_ifs at hcode with hnear
    · cases hcode
      obtain ⟨d, hd, hsame⟩ := exec_targetToA labels base index
        ⟨s.ram, a, v⟩
      cases hsame hnear
      refine ⟨s.ram, s.ram.reg base + index, v, ?_, .inl rfl⟩
      simp [exec_append, ha, hd, hin]
    · cases hcode
      let kept := s.ram.set (s.ram.reg .sp) v
      have hbase : kept.reg base = s.ram.reg base :=
        Ram.reg_set_of_lt hsp (htarget.address_lt.trans_le hlow)
      have htop : kept.reg .sp = s.ram.reg .sp :=
        Ram.reg_set_of_lt hsp ((by decide : Register.sp.address.toNat < 5).trans_le hlow)
      obtain ⟨a', ha'⟩ := exec_targetToD labels base index
        ⟨kept, s.ram.reg .sp, v⟩
      refine ⟨kept, s.ram.reg base + index, s.ram.reg base + index + v, ?_,
        .inr rfl⟩
      have hkeep : exec labels [.reg .sp, .assign .a (.src .m), .assign .m .d]
          ⟨s.ram, a, v⟩ = some ⟨kept, s.ram.reg .sp, v⟩ := by
        simp [hsp, kept]
      have hvalue : kept.get (s.ram.reg .sp) = v := Ram.get_set_self ..
      rw [exec_append, exec_append, exec_append, ha, Option.bind_some, hkeep, Option.bind_some, ha',
        Option.bind_some, exec_storeViaSum]
      simp [hbase, htop, hsp, hin, hvalue]

/-! ## Arithmetic -/

theorem exec_binary {comp : Comp} {s : Store} (hcomp : comp.readsMemory = true)
    (hsp : Ram.inRange (s.ram.reg .sp - 1) = true)
    (hne : s.ram.reg .sp - 1 ≠ Register.sp.address)
    (hsp' : Ram.inRange (s.ram.reg .sp - 2) = true)
    (hne' : s.ram.reg .sp - 2 ≠ Register.sp.address) :
    ∃ a d, exec labels (binary comp) s =
      some ⟨(s.ram.setReg .sp (s.ram.reg .sp - 1)).set (s.ram.reg .sp - 2)
        (comp.eval (s.ram.get (s.ram.reg .sp - 1)) (s.ram.get (s.ram.reg .sp - 2))), a, d⟩ := by
  have hpop := exec_popToD labels s
  rw [if_pos hsp, Ram.get_setReg_of_ne hsp hne] at hpop
  have hnext : (s.ram.setReg .sp (s.ram.reg .sp - 1)).get (s.ram.reg .sp - 2) =
      s.ram.get (s.ram.reg .sp - 2) := Ram.get_setReg_of_ne hsp' hne'
  refine ⟨s.ram.reg .sp - 2, s.ram.get (s.ram.reg .sp - 1), ?_⟩
  rw [binary, exec_append, hpop, Option.bind_some]
  rw [exec_a_of_not_reads _ _ _ _ rfl, exec_m_of_reads _ _ _ _ hcomp, exec_nil]
  rw [show Comp.eval _ (s.ram.reg .sp - 1) (.decSrc .a) = s.ram.reg .sp - 2 from
    word_sub_one_sub_one _, if_pos hsp', hnext]

theorem exec_unary {comp : Comp} {s : Store} (hcomp : comp.readsMemory = true)
    (hsp : Ram.inRange (s.ram.reg .sp - 1) = true) :
    ∃ a d, exec labels (unary comp) s = some
      ⟨s.ram.set (s.ram.reg .sp - 1) (comp.eval s.d (s.ram.get (s.ram.reg .sp - 1))), a, d⟩ := by
  refine ⟨s.ram.reg .sp - 1, s.d, ?_⟩
  rw [unary, exec_append, exec_topToA, Option.bind_some, exec_m_of_reads _ _ _ _ hcomp, if_pos hsp]
  rfl

/-- `comparison` up to its branch. -/
def compareSetup (id : UInt32) : List Inst :=
  popToD ++ [.assign .a (.decSrc .a), .assign .d (.subFrom .m), .symbol (Label.compareTrue id)]

/-- `comparison` behind its branch, up to its jump. -/
def compareFails (id : UInt32) : List Inst :=
  topToA ++ [.assign .m .zero, .symbol (Label.compareFinished id)]

/-- `comparison` from the label `compareTrue` on. -/
def compareHolds (id : UInt32) : List Inst :=
  topToA ++ [.assign .m .minusOne, .label (Label.compareFinished id)]

theorem comparison_eq (jump : Jump) (id : UInt32) :
    comparison jump id = compareSetup id ++ [Inst.branch .d jump] ++
      (compareFails id ++ [Inst.jump] ++ [Inst.label (Label.compareTrue id)] ++
        compareHolds id) := by
  simp only [comparison, compareSetup, compareFails, compareHolds, List.append_assoc,
    List.cons_append, List.nil_append]

theorem exec_compareSetup {id : UInt32} {s : Store}
    (hsp : Ram.inRange (s.ram.reg .sp - 1) = true)
    (hne : s.ram.reg .sp - 1 ≠ Register.sp.address)
    (hsp' : Ram.inRange (s.ram.reg .sp - 2) = true)
    (hne' : s.ram.reg .sp - 2 ≠ Register.sp.address) :
    exec labels (compareSetup id) s =
      some ⟨s.ram.setReg .sp (s.ram.reg .sp - 1), labels (Label.compareTrue id),
        s.ram.get (s.ram.reg .sp - 2) - s.ram.get (s.ram.reg .sp - 1)⟩ := by
  have hpop := exec_popToD labels s
  rw [if_pos hsp, Ram.get_setReg_of_ne hsp hne] at hpop
  rw [compareSetup, exec_append, hpop]
  simp [word_sub_one_sub_one, hsp', Ram.get_setReg_of_ne hsp' hne']

theorem exec_compareFails {id : UInt32} {s : Store}
    (hsp : Ram.inRange (s.ram.reg .sp - 1) = true) :
    exec labels (compareFails id) s =
      some ⟨s.ram.set (s.ram.reg .sp - 1) 0, labels (Label.compareFinished id), s.d⟩ := by
  rw [compareFails, exec_append, exec_topToA]
  simp [hsp]

theorem exec_compareHolds {id : UInt32} {s : Store}
    (hsp : Ram.inRange (s.ram.reg .sp - 1) = true) :
    exec labels (compareHolds id) s =
      some ⟨s.ram.set (s.ram.reg .sp - 1) 0xFFFF, s.ram.reg .sp - 1, s.d⟩ := by
  rw [compareHolds, exec_append, exec_topToA, show (0xFFFF : Word) = -1 from rfl]
  simp [hsp]

/-! ## Functions and calls -/

/-- The zeroing loop of `function`, unrolled. -/
theorem exec_zeros (n : Nat) (ram : Ram) (a d : Word) :
    exec labels (List.replicate n [Inst.assign .m .zero, Inst.assign .a (.incSrc .a)]).flatten
        ⟨ram, a, d⟩ =
      if (List.range n).all fun i => Ram.inRange (a + UInt16.ofNat i) then
        some ⟨ram.zeroed a n, a + UInt16.ofNat n, d⟩
      else none := by
  induction n generalizing ram a with
  | zero => simp [Ram.zeroed]
  | succ n ih =>
    rw [List.replicate_succ, List.flatten_cons, exec_append]
    by_cases ha : Ram.inRange a = true
    · simp [ha, ih, Ram.zeroed, List.range_succ_eq_map, word_add_one_add]
    · simp [ha, List.range_succ_eq_map]

/-- `function` gives `entered`, and fails iff a cell for its zeros is out of range. -/
theorem exec_function (name : String) (locals : Word) (s : Store) :
    ∃ a d, exec labels (function name locals) s =
      if (List.range locals.toNat).all fun i => Ram.inRange (s.ram.reg .sp + UInt16.ofNat i) then
        some ⟨s.ram.entered locals, a, d⟩
      else none := by
  by_cases h₀ : locals = 0
  · subst h₀
    exact ⟨s.a, s.d, by simp [function, Ram.entered, Ram.zeroed, Ram.setReg_reg_self]⟩
  · rw [function, if_neg h₀]
    refine ⟨Register.sp.address, s.ram.reg .sp + locals, ?_⟩
    have hzeros := exec_zeros labels locals.toNat s.ram (s.ram.reg .sp) s.d
    rw [UInt16.ofNat_toNat] at hzeros
    rw [exec_append, exec_append]
    rw [exec_label, exec_reg, exec_a_of_reads _ _ _ _ rfl, if_pos (Ram.inRange_address _),
      exec_nil, Option.bind_some,
      show Comp.eval s.d (s.ram.get Register.sp.address) (.src .m) = s.ram.reg .sp from rfl, hzeros]
    split_ifs
    · simp [Ram.entered]
    · rfl

theorem exec_pushRegister {s : Store} (r : Register) (hsp : Ram.OnStack (s.ram.reg .sp)) :
    exec labels (pushRegister r) s =
      some ⟨s.ram.pushed (s.ram.reg r), s.ram.reg .sp, s.ram.reg r⟩ := by
  rw [pushRegister, exec_append]
  simp [exec_pushD, hsp.inRange, Ram.setReg_set_comm hsp.inRange hsp.ne_sp,
    Ram.pushed]

theorem exec_pushRegisters (rs : List Register) (hrs : ∀ r ∈ rs, r ≠ .sp ∧ r ≠ .r15) {s : Store}
    (hcells : ∀ i < rs.length, Ram.OnStack (s.ram.reg .sp + UInt16.ofNat i)) :
    ∃ a d, exec labels (rs.flatMap pushRegister) s =
      some ⟨(rs.map s.ram.reg).foldl Ram.pushed s.ram, a, d⟩ := by
  induction rs generalizing s with
  | nil => exact ⟨s.a, s.d, rfl⟩
  | cons r rs ih =>
    have hsp : Ram.OnStack (s.ram.reg .sp) := by simpa using hcells 0 (by simp)
    have hkept : rs.map (s.ram.pushed (s.ram.reg r)).reg = rs.map s.ram.reg :=
      List.map_congr_left fun q hq =>
        Ram.pushed_reg hsp (hrs q (by simp [hq])).1 (hrs q (by simp [hq])).2
    obtain ⟨a, d, h⟩ := ih (s := ⟨s.ram.pushed (s.ram.reg r), s.ram.reg .sp, s.ram.reg r⟩)
      (fun q hq => hrs q (by simp [hq])) (by
        intro i hi
        rw [Ram.pushed_sp, word_add_one_add]
        exact hcells (i + 1) (by simpa using hi))
    refine ⟨a, d, ?_⟩
    rw [List.flatMap_cons, exec_append, exec_pushRegister _ r hsp, Option.bind_some, h, hkept]
    rfl

/-- Pushing more words than fit below `ramSize` fails. -/
theorem exec_pushRegisters_eq_none (rs : List Register) (hrs : ∀ r ∈ rs, r ≠ .sp ∧ r ≠ .r15)
    {s : Store} (hlow : 15 ≤ (s.ram.reg .sp).toNat) (hle : (s.ram.reg .sp).toNat ≤ ramSize)
    (hlong : ramSize < (s.ram.reg .sp).toNat + rs.length) :
    exec labels (rs.flatMap pushRegister) s = none := by
  induction rs generalizing s with
  | nil => simp at hlong; omega
  | cons r rs ih =>
    rw [List.flatMap_cons, exec_append]
    rcases Nat.lt_or_eq_of_le hle with hlt | heq
    · have hsp : Ram.OnStack (s.ram.reg .sp) := ⟨hlow, hlt⟩
      have hnext := hsp.toNat_succ
      rw [exec_pushRegister _ r hsp, Option.bind_some]
      apply ih fun q hq => hrs q (by simp [hq])
      · rw [Ram.pushed_sp, hnext]
        omega
      · rw [Ram.pushed_sp, hnext]
        omega
      · rw [Ram.pushed_sp, hnext]
        simp at hlong
        omega
    · have hout : Ram.inRange (s.ram.reg .sp) = false := by
        rw [Bool.eq_false_iff, Ne, Ram.inRange_iff, heq]
        exact lt_irrefl _
      simp [pushRegister, exec_pushD, hout]

theorem exec_pushSymbol {s : Store} (name : String) (hsp : Ram.OnStack (s.ram.reg .sp)) :
    exec labels ([.symbol name, .assign .d (.src .a)] ++ pushD) s =
      some ⟨s.ram.pushed (labels name), s.ram.reg .sp, labels name⟩ := by
  rw [exec_append]
  simp [exec_pushD, hsp.inRange, Ram.setReg_set_comm hsp.inRange hsp.ne_sp, Ram.pushed]

/-- `call` up to its jump. -/
def callSetup (callee : String) (args : Word) (returnLabel : String) : List Inst :=
  [Inst.symbol returnLabel, .assign .d (.src .a)] ++ pushD ++
  [Register.lcl, .arg, .this, .that].flatMap pushRegister ++
  [Inst.reg .sp, .assign .d (.src .m), .reg .lcl, .assign .m .d,
    .const (args + frameSize), .assign .d (.sub .a), .reg .arg, .assign .m .d, .symbol callee]

theorem call_eq (callee : String) (args : Word) (returnLabel : String) :
    call callee args returnLabel =
      callSetup callee args returnLabel ++ [Inst.jump, .label returnLabel] := by
  simp only [call, callSetup, List.append_assoc, List.cons_append, List.nil_append]

theorem exec_setPointers (callee : String) (args : Word) (s : Store) :
    exec labels [.reg .sp, .assign .d (.src .m), .reg .lcl, .assign .m .d,
      .const (args + frameSize), .assign .d (.sub .a), .reg .arg, .assign .m .d, .symbol callee] s =
    some ⟨(s.ram.setReg .lcl (s.ram.reg .sp)).setReg .arg (s.ram.reg .sp - (args + frameSize)),
      labels callee, s.ram.reg .sp - (args + frameSize)⟩ := by
  simp

theorem exec_callSetup {callee returnLabel : String} {args : Word} {s : Store}
    (hcells : ∀ i < 5, Ram.OnStack (s.ram.reg .sp + UInt16.ofNat i)) :
    ∃ d, exec labels (callSetup callee args returnLabel) s =
      some ⟨s.ram.called args (labels returnLabel), labels callee, d⟩ := by
  have hsp : Ram.OnStack (s.ram.reg .sp) := by simpa using hcells 0 (by decide)
  obtain ⟨a, d, hrest⟩ := exec_pushRegisters labels
    [Register.lcl, .arg, .this, .that] (by decide)
    (s := ⟨s.ram.pushed (labels returnLabel), s.ram.reg .sp, labels returnLabel⟩) (by
      intro i hi
      rw [Ram.pushed_sp, word_add_one_add]
      exact hcells (i + 1) (Nat.succ_lt_succ hi))
  have hkept : [Register.lcl, .arg, .this, .that].map (s.ram.pushed (labels returnLabel)).reg =
      [Register.lcl, .arg, .this, .that].map s.ram.reg :=
    List.map_congr_left fun r hr => Ram.pushed_reg hsp (by rintro rfl; simp at hr)
      (by rintro rfl; simp at hr)
  have hframe : (s.ram.frame (labels returnLabel)).foldl Ram.pushed s.ram = _ :=
    Ram.foldl_pushed hcells
  rw [show (s.ram.frame (labels returnLabel)).length = 5 from rfl,
    show UInt16.ofNat 5 = 5 from rfl, Ram.frame_eq, List.foldl_cons] at hframe
  have hargs : s.ram.reg .sp + 5 - (args + frameSize) = s.ram.reg .sp - args := by
    simp [frameSize]
  refine ⟨s.ram.reg .sp - args, ?_⟩
  rw [callSetup, exec_append, exec_append, exec_pushSymbol _ _ hsp, Option.bind_some, hrest,
    Option.bind_some, hkept, hframe, ← Ram.frame_eq, exec_setPointers, Ram.reg_setReg_self, hargs,
    Ram.setReg_comm (r := .sp) (s := .lcl) (by decide),
    Ram.setReg_comm (r := .sp) (s := .arg) (by decide)]
  rfl

theorem exec_callSetup_eq_none {callee returnLabel : String} {args : Word} {s : Store}
    (hsp : Ram.OnStack (s.ram.reg .sp)) (hlong : ramSize < (s.ram.reg .sp).toNat + 5) :
    exec labels (callSetup callee args returnLabel) s = none := by
  have hrest := exec_pushRegisters_eq_none labels
    [Register.lcl, .arg, .this, .that] (by decide)
    (s := ⟨s.ram.pushed (labels returnLabel), s.ram.reg .sp, labels returnLabel⟩)
  rw [Ram.pushed_sp, hsp.toNat_succ] at hrest
  have := hsp.1
  have := hsp.2
  rw [callSetup, exec_append, exec_append, exec_pushSymbol _ _ hsp, Option.bind_some,
    hrest (by omega) (by omega) (by simp; omega)]
  rfl

/-- `bootstrap` up to its jump. -/
def bootSetup (entry returnLabel : String) : List Inst :=
  [.const Segment.stackBase, .assign .d (.src .a), .reg .sp, .assign .m .d] ++
    callSetup entry 0 returnLabel

theorem bootstrap_eq (entry returnLabel : String) : bootstrap entry returnLabel =
    bootSetup entry returnLabel ++ [Inst.jump, .label returnLabel] := by
  rw [bootstrap, call_eq, bootSetup, List.append_assoc]

theorem exec_bootSetup (entry returnLabel : String) (s : Store) :
    ∃ d, exec labels (bootSetup entry returnLabel) s = some
      ⟨(s.ram.setReg .sp Segment.stackBase).called 0 (labels returnLabel), labels entry, d⟩ := by
  have hcells : ∀ i < 5, Ram.OnStack
      ((s.ram.setReg .sp Segment.stackBase).reg .sp + UInt16.ofNat i) := fun i hi => by
    rw [Ram.reg_setReg_self]
    exact Ram.OnStack.add (by decide) (by simp [Segment.stackBase, ramSize]; omega)
  have hcall : ∃ d, exec labels (callSetup entry 0 returnLabel)
      ⟨s.ram.setReg .sp Segment.stackBase, Register.sp.address, Segment.stackBase⟩ = some
        ⟨(s.ram.setReg .sp Segment.stackBase).called 0 (labels returnLabel), labels entry, d⟩ :=
    exec_callSetup labels hcells
  obtain ⟨d, hcall⟩ := hcall
  refine ⟨d, ?_⟩
  have hsetup :
      exec labels [.const Segment.stackBase, .assign .d (.src .a), .reg .sp, .assign .m .d] s =
        some ⟨s.ram.setReg .sp Segment.stackBase, Register.sp.address, Segment.stackBase⟩ := by
    obtain ⟨ram, a, d⟩ := s
    generalize Segment.stackBase = base
    simp
  rw [bootSetup, exec_append, hsetup, Option.bind_some, hcall]

/-- `ret` up to its jump. -/
def retSetup : List Inst :=
  [Inst.reg .lcl, .assign .d (.src .m), .reg .r13, .assign .m .d,
    .const frameSize, .assign .a (.sub .a), .assign .d (.src .m), .reg .r14, .assign .m .d] ++
  popToD ++ [Inst.reg .arg, .assign .a (.src .m), .assign .m .d,
    .reg .arg, .assign .d (.incSrc .m), .reg .sp, .assign .m .d] ++
  [Register.that, .this, .arg, .lcl].flatMap restore ++ [Inst.reg .r14, .assign .a (.src .m)]

theorem ret_eq : ret = retSetup ++ [Inst.jump] := by
  simp only [ret, retSetup, List.append_assoc, List.cons_append, List.nil_append]

theorem exec_restore {s : Store} {r : Register} (hcell : Ram.OnStack (s.ram.reg .r13 - 1)) :
    exec labels (restore r) s =
      some ⟨(s.ram.setReg .r13 (s.ram.reg .r13 - 1)).setReg r (s.ram.get (s.ram.reg .r13 - 1)),
        r.address, s.ram.get (s.ram.reg .r13 - 1)⟩ := by
  simp [restore, hcell.inRange, Ram.get_setReg_onStack hcell]

theorem exec_retSetup {s : Store} (hsp : Ram.OnStack (s.ram.reg .sp - 1))
    (harg : Ram.OnStack (s.ram.reg .arg))
    (hframe : ∀ i ∈ [1, 2, 3, 4, 5], Ram.OnStack (s.ram.reg .lcl - i)) :
    ∃ d, exec labels retSetup s = some ⟨s.ram.returned, s.ram.resumption, d⟩ := by
  obtain ⟨ram, a, d⟩ := s
  simp only [List.mem_cons, List.not_mem_nil, or_false, forall_eq_or_imp, forall_eq] at hframe
  obtain ⟨h₁, h₂, h₃, h₄, h₅⟩ := hframe
  simp only at hsp harg h₁ h₂ h₃ h₄ h₅
  have hsave : exec labels [.reg .lcl, .assign .d (.src .m), .reg .r13, .assign .m .d,
      .const frameSize, .assign .a (.sub .a), .assign .d (.src .m), .reg .r14, .assign .m .d]
      ⟨ram, a, d⟩ = some ⟨(ram.setReg .r13 (ram.reg .lcl)).setReg .r14 ram.resumption,
        Register.r14.address, ram.resumption⟩ := by
    simp [frameSize, h₅.inRange, Ram.get_setReg_onStack h₅, Ram.resumption]
  have hpop : exec labels popToD ⟨(ram.setReg .r13 (ram.reg .lcl)).setReg .r14 ram.resumption,
        Register.r14.address, ram.resumption⟩ =
      some ⟨((ram.setReg .r13 (ram.reg .lcl)).setReg .r14 ram.resumption).setReg .sp
        (ram.reg .sp - 1), ram.reg .sp - 1, ram.get (ram.reg .sp - 1)⟩ := by
    simp [exec_popToD, Ram.reg_setReg_of_ne, hsp.inRange, Ram.get_setReg_onStack hsp]
  -- From here on only the cell that `ARG` points at differs from the caller's memory.
  let handed := ram.set (ram.reg .arg) (ram.get (ram.reg .sp - 1))
  have hhand : exec labels [.reg .arg, .assign .a (.src .m), .assign .m .d, .reg .arg,
        .assign .d (.incSrc .m), .reg .sp, .assign .m .d]
      ⟨((ram.setReg .r13 (ram.reg .lcl)).setReg .r14 ram.resumption).setReg .sp
        (ram.reg .sp - 1), ram.reg .sp - 1, ram.get (ram.reg .sp - 1)⟩ =
      some ⟨((handed.setReg .r13 (ram.reg .lcl)).setReg .r14 ram.resumption).setReg .sp
        (ram.reg .arg + 1), Register.sp.address, ram.reg .arg + 1⟩ := by
    simp [Ram.reg_setReg_of_ne, harg.inRange, Ram.reg_set_onStack harg, handed,
      Ram.setReg_set_comm harg.inRange (harg.ne_address _)]
  have hrest : exec labels ([Register.that, .this, .arg, .lcl].flatMap restore)
      ⟨((handed.setReg .r13 (ram.reg .lcl)).setReg .r14 ram.resumption).setReg .sp
        (ram.reg .arg + 1), Register.sp.address, ram.reg .arg + 1⟩ =
      some ⟨ram.returned, Register.lcl.address, handed.get (ram.reg .lcl - 4)⟩ := by
    have e₂ : ram.reg .lcl - 2 - 1 = ram.reg .lcl - 3 := by rw [sub_sub]; rfl
    have e₃ : ram.reg .lcl - 3 - 1 = ram.reg .lcl - 4 := by rw [sub_sub]; rfl
    simp [exec_append, exec_restore, Ram.reg_setReg_of_ne, h₁, h₂, h₃, h₄,
      Ram.get_setReg_onStack, word_sub_one_sub_one, e₂, e₃]
    rw [Ram.returned]
    apply Ram.ext_reg
    · intro r
      cases r <;> simp [Ram.reg_setReg_of_ne, handed]
    · intro cell hin hne
      simp [Ram.get_setReg_of_ne hin (hne _), handed]
  refine ⟨handed.get (ram.reg .lcl - 4), ?_⟩
  rw [retSetup, exec_append, exec_append, exec_append, exec_append, hsave, Option.bind_some, hpop,
    Option.bind_some, hhand, Option.bind_some, hrest, Option.bind_some]
  simp [Ram.returned]

end HackVM.Compile
