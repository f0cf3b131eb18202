/-
  Running code in a ROM. `compute_eq` and `step_eq` give `Machine.compute` and `Machine.step` in
  closed form, with one access test and one update. `Runs n m m'` is a run of `n` steps without a
  fault, and `Inside` bounds `pc` between its ends. `exec` is the effect of straight-line code on
  memory and registers; `runs_of_exec` and `exec_of_runs` relate it to runs.
-/
import Mathlib
import HackVM.Assembly.Instruction
import HackVM.Machine.Basic

namespace HackVM

open Assembly Rom

namespace Machine

/-! ## One step at once -/

/-- The instruction reads or writes `RAM[A]`. -/
def touchesMemory (dest : Option Dest) (comp : Comp) : Bool :=
  comp.readsMemory || dest.any Dest.writesM

/-- `comp` at the registers of `m`, with `RAM[A]` taken modulo `ramSize`. -/
def value (m : Machine) (comp : Comp) : Word :=
  comp.eval m.d (if comp.readsMemory then m.ram.get m.a else m.a)

/-- `m` after a compute instruction with result `value`, as one update: the stores and the jump all
go by the `A` of `m`. -/
def finish (m : Machine) (dest : Option Dest) (jump : Option Jump) (value : Word) : Machine :=
  { m with
    ram := if dest.any Dest.writesM then m.ram.set m.a value else m.ram
    a := if dest.any Dest.writesA then value else m.a
    d := if dest.any Dest.writesD then value else m.d
    pc := if jump.any (·.taken value) then m.a else m.pc + 1 }

theorem writeDest_of_writesM {m : Machine} {address : Word} (value : Word) {dest : Option Dest}
    (hm : dest.any Dest.writesM = true) (hout : Ram.inRange address = false) :
    m.writeDest address value dest = (.error ⟨m.pc, address⟩, m) := by
  cases dest with
  | none => cases hm
  | some dest =>
    have hwrites : dest.writesM = true := hm
    simp [writeDest, write, hwrites, hout]

/-- If `dest` does not write `M`, or `address` is in range, `writeDest` makes all its stores. -/
theorem writeDest_of_inRange {m : Machine} {address : Word} (value : Word) {dest : Option Dest}
    (hin : dest.any Dest.writesM = true → Ram.inRange address = true) :
    m.writeDest address value dest = (.ok (), { m with
      ram := if dest.any Dest.writesM then m.ram.set address value else m.ram
      a := if dest.any Dest.writesA then value else m.a
      d := if dest.any Dest.writesD then value else m.d }) := by
  cases dest with
  | none => rfl
  | some dest =>
    simp only [Option.any_some] at hin ⊢
    by_cases hm : dest.writesM = true <;> by_cases ha : dest.writesA = true <;>
      by_cases hd : dest.writesD = true <;> simp [writeDest, write, hm, ha, hd, hin]

theorem operand_of_inRange {m : Machine} {comp : Comp}
    (hin : comp.readsMemory = true → Ram.inRange m.a = true) :
    m.operand comp = .ok (if comp.readsMemory then m.ram.get m.a else m.a) := by
  cases hreads : comp.readsMemory with
  | false => simp [operand, hreads]
  | true => simp [operand, read, hreads, hin hreads]

/-- A compute instruction whose accesses are in range leads to `finish`. -/
theorem compute_of_inRange {m : Machine} {dest : Option Dest} {comp : Comp} (jump : Option Jump)
    (hin : touchesMemory dest comp = true → Ram.inRange m.a = true) :
    m.compute dest comp jump = (.ok (), m.finish dest jump (m.value comp)) := by
  have hreads : comp.readsMemory = true → Ram.inRange m.a = true :=
    fun h => hin (by rw [touchesMemory, h, Bool.true_or])
  have hwrites : dest.any Dest.writesM = true → Ram.inRange m.a = true :=
    fun h => hin (by rw [touchesMemory, h, Bool.or_true])
  rw [compute, operand_of_inRange hreads]
  simp only [writeDest_of_inRange _ hwrites]
  rfl

/-- `compute` in closed form. Both its accesses are at the `A` of `m`, and the checked store
precedes the others; so one test decides whether it fails, and a fault finds the machine as it
was. -/
theorem compute_eq (m : Machine) (dest : Option Dest) (comp : Comp) (jump : Option Jump) :
    m.compute dest comp jump =
      if touchesMemory dest comp && !Ram.inRange m.a then (.error ⟨m.pc, m.a⟩, m)
      else (.ok (), m.finish dest jump (m.value comp)) := by
  split_ifs with htest
  · obtain ⟨htouches, hout⟩ : touchesMemory dest comp = true ∧ Ram.inRange m.a = false := by
      simpa using htest
    cases hreads : comp.readsMemory with
    | true => simp [compute, operand, read, hreads, hout]
    | false =>
      have hwrites : dest.any Dest.writesM = true := by simpa [touchesMemory, hreads] using htouches
      rw [compute, operand_of_inRange (by simp [hreads])]
      simp only [writeDest_of_writesM _ hwrites hout]
  · exact compute_of_inRange jump fun htouches => by simpa [htouches] using htest

/-- `step` in closed form: one access test, one update. -/
theorem step_eq (m : Machine) :
    m.step = match m.op? with
      | none => (.ok (), m)
      | some (.load value) =>
        (.ok (), { m with a := value, pc := m.pc + 1, cycles := m.cycles + 1 })
      | some (.compute dest comp jump) =>
        if touchesMemory dest comp && !Ram.inRange m.a then
          (.error ⟨m.pc, m.a⟩, { m with cycles := m.cycles + 1 })
        else (.ok (), { m with cycles := m.cycles + 1 }.finish dest jump (m.value comp)) := by
  rw [step]
  cases m.op? with
  | none => rfl
  | some op =>
    cases op with
    | load value => rfl
    | compute dest comp jump => exact compute_eq ..

theorem step_rom (m : Machine) : m.step.2.rom = m.rom := by
  rw [step_eq]
  split
  · rfl
  · rfl
  · split <;> rfl

/-! ## Runs -/

/-- `n` steps without a fault lead from `m` to `m'`. -/
def Runs (n : Nat) (m m' : Machine) : Prop := m.steps n = (.ok (), m')

theorem runs_zero {m m' : Machine} : Runs 0 m m' ↔ m = m' := by
  simp [Runs, steps]

theorem runs_succ {n : Nat} {m m' : Machine} :
    Runs (n + 1) m m' ↔ ∃ m₁, m.step = (.ok (), m₁) ∧ Runs n m₁ m' := by
  unfold Runs
  rw [steps]
  rcases h : m.step with ⟨r, m₁⟩
  cases r with
  | ok u => simp
  | error fault => simp

theorem Runs.refl (m : Machine) : Runs 0 m m := runs_zero.2 rfl

theorem Runs.one {m m' : Machine} (h : m.step = (.ok (), m')) : Runs 1 m m' :=
  runs_succ.2 ⟨m', h, .refl m'⟩

theorem runs_add {n k : Nat} {m m' : Machine} :
    Runs (n + k) m m' ↔ ∃ m₁, Runs n m m₁ ∧ Runs k m₁ m' := by
  induction n generalizing m with
  | zero => simp [runs_zero]
  | succ n ih =>
    rw [Nat.succ_add, runs_succ]
    simp only [ih, runs_succ]
    constructor
    · rintro ⟨m₁, h₁, m₂, h₂, h₃⟩
      exact ⟨m₂, ⟨m₁, h₁, h₂⟩, h₃⟩
    · rintro ⟨m₂, ⟨m₁, h₁, h₂⟩, h₃⟩
      exact ⟨m₁, h₁, m₂, h₂, h₃⟩

theorem Runs.trans {n k : Nat} {m m₁ m' : Machine} (h : Runs n m m₁) (h' : Runs k m₁ m') :
    Runs (n + k) m m' := runs_add.2 ⟨m₁, h, h'⟩

theorem Runs.unique {n : Nat} {m m₁ m₂ : Machine} (h₁ : Runs n m m₁) (h₂ : Runs n m m₂) :
    m₁ = m₂ := by
  have := h₁.symm.trans h₂
  exact (Prod.ext_iff.1 this).2

/-- The last `k - n` steps of a run of `k` steps. -/
theorem Runs.rest {n k : Nat} {m m₁ m' : Machine} (h : Runs n m m₁) (hk : n ≤ k)
    (h' : Runs k m m') : Runs (k - n) m₁ m' := by
  rw [← Nat.add_sub_cancel' hk] at h'
  obtain ⟨m₂, h₂, h₃⟩ := runs_add.1 h'
  rwa [h.unique h₂]

theorem Runs.rom {n : Nat} {m m' : Machine} (h : Runs n m m') : m'.rom = m.rom := by
  induction n generalizing m with
  | zero => rw [runs_zero.1 h]
  | succ n ih =>
    obtain ⟨m₁, h₁, h₂⟩ := runs_succ.1 h
    rw [ih h₂, ← step_rom m, h₁]

/-- Outside the ROM a run changes nothing. -/
theorem Runs.eq_of_outside {n : Nat} {m m' : Machine} (h : Runs n m m')
    (hout : m.rom.size ≤ m.pc.toNat) : m' = m := by
  induction n with
  | zero => exact (runs_zero.1 h).symm
  | succ n ih =>
    obtain ⟨m₁, hstep, h⟩ := runs_succ.1 h
    have hop : m.op? = none := Array.getElem?_eq_none hout
    rw [step_eq, hop] at hstep
    cases hstep
    exact ih h

/-- After each of the steps `1, …, n - 1` from `m`, `pc` lies strictly between `lo` and `hi`. -/
def Inside (lo hi n : Nat) (m : Machine) : Prop :=
  ∀ k m₁, 0 < k → k < n → Runs k m m₁ → lo < m₁.pc.toNat ∧ m₁.pc.toNat < hi

theorem Inside.mono {lo hi n k : Nat} {m : Machine} (h : Inside lo hi n m) (hk : k ≤ n) :
    Inside lo hi k m := fun j m₁ h₀ hj => h j m₁ h₀ (by omega)

theorem Inside.widen {lo hi lo' hi' n : Nat} {m : Machine} (h : Inside lo hi n m) (hlo : lo' ≤ lo)
    (hhi : hi ≤ hi') : Inside lo' hi' n m := by
  intro k m₁ h₀ hk hm₁
  have := h k m₁ h₀ hk hm₁
  omega

theorem Inside.trans {lo hi n k : Nat} {m m₁ : Machine} (h : Inside lo hi n m)
    (hr : Runs n m m₁) (hpc : lo < m₁.pc.toNat ∧ m₁.pc.toNat < hi) (h' : Inside lo hi k m₁) :
    Inside lo hi (n + k) m := by
  intro j m₂ h₀ hj hm₂
  rcases Nat.lt_trichotomy j n with hlt | rfl | hgt
  · exact h j m₂ h₀ hlt hm₂
  · rwa [← hr.unique hm₂]
  · exact h' (j - n) m₂ (by omega) (by omega) (hr.rest hgt.le hm₂)

end Machine

/-! ## Instructions apart from the ROM -/

/-- Memory and registers, without `pc`. -/
structure Store where
  ram : Ram
  a : Word
  d : Word

def Machine.store (m : Machine) : Store := ⟨m.ram, m.a, m.d⟩

namespace Assembly

/-- The value that `@address` loads when labels have the values `labels`. -/
def Address.value (labels : String → Word) : Address → Word
  | .const value => value
  | .reg register => register.address
  | .symbol name => labels name

namespace Inst

/-- The ROM word of an instruction, `none` for labels and comments. -/
def op? (labels : String → Word) : Inst → Option Op
  | .load address => some (.load (address.value labels))
  | .assign dest comp => some (.compute (some dest) comp none)
  | .branch comp jump => some (.compute none comp (some jump))
  | .label _ | .comment _ => none

def isBranch : Inst → Bool
  | .branch _ _ => true
  | .load _ | .assign _ _ | .label _ | .comment _ => false

/-- The effect of an instruction on a store; `none` for a forbidden access and for a branch. -/
def apply (labels : String → Word) (s : Store) : Inst → Option Store
  | .load address => some { s with a := address.value labels }
  | .assign dest comp =>
    if Machine.touchesMemory (some dest) comp && !Ram.inRange s.a then none
    else
      let value := comp.eval s.d (if comp.readsMemory then s.ram.get s.a else s.a)
      some ⟨if dest.writesM then s.ram.set s.a value else s.ram,
        if dest.writesA then value else s.a, if dest.writesD then value else s.d⟩
  | .branch _ _ => none
  | .label _ | .comment _ => some s

end Inst

/-- The effect of straight-line code; `none` if an instruction has none. -/
def exec (labels : String → Word) : List Inst → Store → Option Store
  | [], s => some s
  | inst :: code, s => (inst.apply labels s).bind (exec labels code)

/-- `code` has no branches. -/
def Straight (code : List Inst) : Prop := ∀ inst ∈ code, inst.isBranch = false

instance (code : List Inst) : Decidable (Straight code) :=
  inferInstanceAs (Decidable (∀ inst ∈ code, _))

theorem exec_append (labels : String → Word) (code rest : List Inst) (s : Store) :
    exec labels (code ++ rest) s = (exec labels code s).bind (exec labels rest) := by
  induction code generalizing s with
  | nil => rfl
  | cons inst code ih =>
    simp only [List.cons_append, exec]
    cases inst.apply labels s with
    | none => rfl
    | some t => exact ih t

theorem straight_append {code rest : List Inst} :
    Straight (code ++ rest) ↔ Straight code ∧ Straight rest := by
  simp [Straight, or_imp, forall_and]

theorem straight_cons {inst : Inst} {code : List Inst} :
    Straight (inst :: code) ↔ inst.isBranch = false ∧ Straight code := by
  simp [Straight]

@[simp] theorem instructionCount_nil : instructionCount [] = 0 := rfl

@[simp] theorem instructionCount_append (code rest : List Inst) :
    instructionCount (code ++ rest) = instructionCount code + instructionCount rest :=
  List.countP_append

theorem instructionCount_cons (inst : Inst) (code : List Inst) :
    instructionCount (inst :: code) =
      instructionCount code + if inst.isInstruction then 1 else 0 := List.countP_cons

/-- `code` has `instructionCount code` ROM words. -/
theorem length_ops (labels : String → Word) (code : List Inst) :
    (code.filterMap (Inst.op? labels)).length = instructionCount code := by
  induction code with
  | nil => rfl
  | cons inst code ih =>
    rw [instructionCount_cons, ← ih]
    cases inst <;> simp [List.filterMap_cons, Inst.op?, Inst.isInstruction]

end Assembly

/-! ## Code in a ROM -/

/-- `rom` holds the words of `code` from `pc` on. -/
def HoldsAt (labels : String → Word) (rom : Array Op) (pc : Nat) (code : List Inst) : Prop :=
  ∃ before after, rom.toList = before ++ code.filterMap (Inst.op? labels) ++ after ∧
    before.length = pc

variable {labels : String → Word} {rom : Array Op} {pc : Nat} {code rest : List Inst}

theorem HoldsAt.left (h : HoldsAt labels rom pc (code ++ rest)) : HoldsAt labels rom pc code := by
  obtain ⟨before, after, hrom, hpc⟩ := h
  exact ⟨before, rest.filterMap (Inst.op? labels) ++ after, by simp [hrom], hpc⟩

theorem HoldsAt.right (h : HoldsAt labels rom pc (code ++ rest)) :
    HoldsAt labels rom (pc + instructionCount code) rest := by
  obtain ⟨before, after, hrom, hpc⟩ := h
  refine ⟨before ++ code.filterMap (Inst.op? labels), after, by simp [hrom], ?_⟩
  rw [List.length_append, length_ops, hpc]

theorem HoldsAt.tail {inst : Inst} (h : HoldsAt labels rom pc (inst :: code))
    (hi : inst.isInstruction = true) : HoldsAt labels rom (pc + 1) code := by
  have := (show HoldsAt labels rom pc ([inst] ++ code) from h).right
  rwa [instructionCount_cons, if_pos hi] at this

theorem HoldsAt.skip {inst : Inst} (h : HoldsAt labels rom pc (inst :: code))
    (hi : inst.isInstruction = false) : HoldsAt labels rom pc code := by
  have := (show HoldsAt labels rom pc ([inst] ++ code) from h).right
  rwa [instructionCount_cons, hi] at this

theorem HoldsAt.head {inst : Inst} {op : Op} (h : HoldsAt labels rom pc (inst :: code))
    (hop : inst.op? labels = some op) : rom[pc]? = some op := by
  obtain ⟨before, after, hrom, hpc⟩ := h
  rw [← Array.getElem?_toList, hrom, ← hpc]
  simp [hop]

theorem HoldsAt.le_size (h : HoldsAt labels rom pc code) :
    pc + instructionCount code ≤ rom.size := by
  obtain ⟨before, after, hrom, hpc⟩ := h
  have := congrArg List.length hrom
  rw [List.length_append, List.length_append, length_ops, hpc, Array.length_toList] at this
  omega

theorem HoldsAt.fits (h : HoldsAt labels rom pc code) (hsize : rom.size < 65536) :
    pc + instructionCount code ≤ 65536 := h.le_size.trans hsize.le

/-- Every label of `code`, placed at `pc`, has the address of the instruction behind it. -/
def Binds (labels : String → Word) (pc : Nat) (code : List Inst) : Prop :=
  ∀ before name after, code = before ++ .label name :: after →
    labels name = UInt16.ofNat (pc + instructionCount before)

theorem Binds.left (h : Binds labels pc (code ++ rest)) : Binds labels pc code := by
  rintro before name after rfl
  exact h before name (after ++ rest) (by simp)

theorem Binds.right (h : Binds labels pc (code ++ rest)) :
    Binds labels (pc + instructionCount code) rest := by
  rintro before name after rfl
  rw [h (code ++ before) name after (by simp), instructionCount_append, Nat.add_assoc]

theorem Binds.head {name : String} (h : Binds labels pc (.label name :: code)) :
    labels name = UInt16.ofNat pc := h [] name code rfl

/-! ## Straight-line code in a ROM -/

namespace Machine

/-- `m` after a non-branching instruction with effect `s`. -/
def advance (m : Machine) (s : Store) : Machine :=
  { m with ram := s.ram, a := s.a, d := s.d, pc := m.pc + 1, cycles := m.cycles + 1 }

@[simp] theorem advance_pc (m : Machine) (s : Store) : (m.advance s).pc = m.pc + 1 := rfl

theorem step_of_op {m : Machine} {inst : Inst} {op : Op} (hop : inst.op? labels = some op)
    (hm : m.op? = some op) (hb : inst.isBranch = false) :
    m.step = match inst.apply labels m.store with
      | some s => (.ok (), m.advance s)
      | none => (.error ⟨m.pc, m.a⟩, { m with cycles := m.cycles + 1 }) := by
  rw [step_eq, hm]
  cases inst with
  | load address =>
    cases hop
    rfl
  | assign dest comp =>
    cases hop
    by_cases hbad : (touchesMemory (some dest) comp && !Ram.inRange m.a) = true
    · rw [show Inst.apply labels m.store (.assign dest comp) = none from if_pos hbad]
      exact if_pos hbad
    · rw [show Inst.apply labels m.store (.assign dest comp) = some _ from if_neg hbad]
      exact if_neg hbad
  | branch comp jump => cases hb
  | label name => cases hop
  | comment text => cases hop

theorem toNat_pc_succ {m : Machine} {op : Op} (hm : m.op? = some op)
    (hsize : m.rom.size < 65536) : (m.pc + 1).toNat = m.pc.toNat + 1 := by
  obtain ⟨hlt, -⟩ := Array.getElem?_eq_some_iff.1 hm
  rw [UInt16.toNat_add]
  exact Nat.mod_eq_of_lt (by simp; omega)

theorem op?_of_isInstruction {inst : Inst} (h : inst.isInstruction = true)
    (labels : String → Word) : ∃ op, inst.op? labels = some op := by
  cases inst <;> simp_all [Inst.op?, Inst.isInstruction]

/-- Labels and comments have no effect. -/
theorem apply_of_not_isInstruction {inst : Inst} (h : inst.isInstruction = false) (s : Store) :
    inst.apply labels s = some s := by
  cases inst <;> simp_all [Inst.apply, Inst.isInstruction]

theorem isBranch_of_apply {inst : Inst} {s t : Store} (h : inst.apply labels s = some t) :
    inst.isBranch = false := by
  cases inst <;> simp_all [Inst.apply, Inst.isBranch]

/-- `pc` as a natural number, below `2 ^ 16`. -/
theorem toNat_pc_of_lt {m : Machine} (hpc : m.pc = UInt16.ofNat pc) (h : pc < 65536) :
    m.pc.toNat = pc := by
  rw [hpc, UInt16.toNat_ofNat_of_lt' h]

theorem pc_succ {m : Machine} (hpc : m.pc = UInt16.ofNat pc) :
    m.pc + 1 = UInt16.ofNat (pc + 1) := by
  rw [hpc, UInt16.ofNat_add]
  rfl

/-- Straight-line code with effect `s` runs to its end, with `s` as the store there. The end may be
address `2 ^ 16`. -/
theorem runs_of_exec {m : Machine} {s : Store} (hcode : HoldsAt labels m.rom pc code)
    (hpc : m.pc = UInt16.ofNat pc) (hfits : pc + instructionCount code ≤ 65536)
    (h : exec labels code m.store = some s) :
    ∃ m', Runs (instructionCount code) m m' ∧ m'.store = s ∧
      m'.pc = UInt16.ofNat (pc + instructionCount code) := by
  induction code generalizing m pc with
  | nil => exact ⟨m, .refl m, by simpa [exec] using h, hpc⟩
  | cons inst code ih =>
    rw [exec, Option.bind_eq_some_iff] at h
    obtain ⟨t, ht, h⟩ := h
    rw [instructionCount_cons] at hfits ⊢
    cases hi : inst.isInstruction with
    | false =>
      rw [apply_of_not_isInstruction hi] at ht
      cases ht
      rw [hi] at hfits
      exact ih (hcode.skip hi) hpc hfits h
    | true =>
      rw [hi, if_pos rfl] at hfits
      obtain ⟨op, hop⟩ := op?_of_isInstruction hi labels
      have hm : m.op? = some op := by
        rw [op?, toNat_pc_of_lt hpc (by omega)]
        exact hcode.head hop
      have hstep := step_of_op hop hm (isBranch_of_apply ht)
      rw [ht] at hstep
      obtain ⟨m', hruns, hs, hpc'⟩ :=
        ih (m := m.advance t) (hcode.tail hi) (pc_succ hpc) (by omega) h
      refine ⟨m', runs_succ.2 ⟨_, hstep, hruns⟩, hs, ?_⟩
      rw [hpc', if_pos rfl, Nat.add_assoc, Nat.add_comm 1]

/-- A run through straight-line code gives its effect. -/
theorem exec_of_runs {m m' : Machine} (hcode : HoldsAt labels m.rom m.pc.toNat code)
    (hsize : m.rom.size < 65536) (hs : Straight code) (h : Runs (instructionCount code) m m') :
    exec labels code m.store = some m'.store := by
  induction code generalizing m with
  | nil => rw [runs_zero.1 h, exec]
  | cons inst code ih =>
    rw [straight_cons] at hs
    rw [instructionCount_cons] at h
    rw [exec, Option.bind_eq_some_iff]
    cases hi : inst.isInstruction with
    | false =>
      rw [hi] at h
      exact ⟨m.store, apply_of_not_isInstruction hi _, ih (hcode.skip hi) hsize hs.2 h⟩
    | true =>
      rw [hi] at h
      obtain ⟨op, hop⟩ := op?_of_isInstruction hi labels
      have hm : m.op? = some op := hcode.head hop
      have hstep := step_of_op hop hm hs.1
      obtain ⟨m₁, h₁, h⟩ := runs_succ.1 h
      rw [hstep] at h₁
      cases ht : inst.apply labels m.store with
      | none => simp [ht] at h₁
      | some t =>
        simp only [ht, Prod.mk.injEq, true_and] at h₁
        subst h₁
        have htail : HoldsAt labels m.rom (m.advance t).pc.toNat code := by
          rw [advance_pc, toNat_pc_succ hm hsize]
          exact hcode.tail hi
        exact ⟨t, rfl, ih (m := m.advance t) htail hsize hs.2 h⟩

/-- After `k` steps in straight-line code `pc` has advanced by `k`. -/
theorem pc_of_runs {m m₁ : Machine} {k : Nat} (hcode : HoldsAt labels m.rom pc code)
    (hpc : m.pc = UInt16.ofNat pc) (hfits : pc + instructionCount code ≤ 65536)
    (hs : Straight code) (hk : k ≤ instructionCount code) (h : Runs k m m₁) :
    m₁.pc = UInt16.ofNat (pc + k) := by
  induction code generalizing m pc k with
  | nil =>
    obtain rfl : k = 0 := by simpa using hk
    rw [← runs_zero.1 h, hpc, Nat.add_zero]
  | cons inst code ih =>
    rw [straight_cons] at hs
    rw [instructionCount_cons] at hk hfits
    cases hi : inst.isInstruction with
    | false =>
      rw [hi] at hk hfits
      exact ih (hcode.skip hi) hpc hfits hs.2 hk h
    | true =>
      rw [hi, if_pos rfl] at hk hfits
      obtain ⟨op, hop⟩ := op?_of_isInstruction hi labels
      have hm : m.op? = some op := by
        rw [op?, toNat_pc_of_lt hpc (by omega)]
        exact hcode.head hop
      have hstep := step_of_op hop hm hs.1
      cases k with
      | zero => rw [← runs_zero.1 h, hpc, Nat.add_zero]
      | succ k =>
        obtain ⟨m₂, h₂, h⟩ := runs_succ.1 h
        rw [hstep] at h₂
        cases ht : inst.apply labels m.store with
        | none => simp [ht] at h₂
        | some t =>
          simp only [ht, Prod.mk.injEq, true_and] at h₂
          subst h₂
          rw [ih (m := m.advance t) (hcode.tail hi) (pc_succ hpc) (by omega) hs.2 (by omega) h,
            Nat.add_assoc, Nat.add_comm 1]

end Machine

end HackVM
