/-
  The three comparisons. Their code branches on the sign of `x - y` modulo `2 ^ 16`. So `eq` is
  exact, while `gt` and `lt` give the signed order iff the difference of the signed values is in
  `[-32768, 32767]` (`comparison_decides_difference`), and the opposite elsewhere
  (`not_comparison_decides_order`).
-/
import Mathlib
import HackVM.Proofs.FrameLaw

namespace HackVM

open Assembly Compile Rom Machine

/-! ## Signs of differences -/

theorem signed_bounds (w : Word) : -32768 ≤ Word.signed w ∧ Word.signed w < 32768 := by
  have := w.toNat_lt
  unfold Word.signed
  split_ifs <;> omega

/-- `(x - y).signed` is `x.signed - y.signed` modulo `2 ^ 16`. -/
theorem dvd_signed_sub (x y : Word) :
    65536 ∣ Word.signed (x - y) - (Word.signed x - Word.signed y) := by
  have hx := x.toNat_lt
  have hy := y.toNat_lt
  unfold Word.signed
  rw [UInt16.toNat_sub]
  split_ifs <;> omega

namespace Compile.Arith

/-- The comparison as a relation of integers. -/
def holds (x y : Int) : Arith → Bool
  | .eq => x = y
  | .gt => y < x
  | .lt => x < y
  | .add | .sub | .neg | .and | .or | .not => false

/-- The branch on `x - y` decides the signed order of `x` and `y` iff it is `JEQ` or the difference
of the signed values is in `[-32768, 32767]`. -/
theorem taken_sub_eq_holds_iff {arith : Arith} {jump : Jump} (h : arith.shape = .comparison jump)
    (x y : Word) :
    jump.taken (x - y) = arith.holds (Word.signed x) (Word.signed y) ↔
      arith = .eq ∨
        -32768 ≤ Word.signed x - Word.signed y ∧ Word.signed x - Word.signed y < 32768 := by
  have hx := signed_bounds x
  have hy := signed_bounds y
  have hdiff := signed_bounds (x - y)
  have hturn := dvd_signed_sub x y
  unfold Jump.taken
  cases arith <;> cases h <;>
    simp only [holds, decide_eq_decide, reduceCtorEq, true_or, false_or, iff_true] <;> omega

end Compile.Arith

/-! ## What a comparison leaves -/

/-- `ram'` is `ram` with the two top values replaced by the truth value of `result`, and no other
cell changed but `SP`. -/
structure Ram.Compared (ram : Ram) (result : Bool) (ram' : Ram) : Prop where
  sp : ram'.reg .sp = ram.reg .sp - 1
  top : ram'.get (ram.reg .sp - 2) = if result then 0xFFFF else 0
  other : ∀ a, inRange a = true → a ≠ Register.sp.address → a ≠ ram.reg .sp - 2 →
    ram'.get a = ram.get a

/-- The two cells below `SP` are `OnStack`. -/
theorem Ram.onStack_sub {ram : Ram} {w : Word} (hw : w.toNat ≤ 2) (hpos : 0 < w.toNat)
    (hlow : 17 ≤ (ram.reg .sp).toNat) (hhigh : (ram.reg .sp).toNat ≤ 32768) :
    OnStack (ram.reg .sp - w) := by
  have hsub := UInt16.toNat_sub_of_le (ram.reg .sp) w (UInt16.le_iff_toNat_le.2 (by omega))
  have hsize : ramSize = 32768 := rfl
  exact ⟨by omega, by omega⟩

theorem Ram.compared_set {ram : Ram} (result : Bool) (htop : OnStack (ram.reg .sp - 2)) :
    Compared ram result ((ram.setReg .sp (ram.reg .sp - 1)).set (ram.reg .sp - 2)
      (Arith.truth result)) := by
  refine ⟨?_, get_set_self .., fun a ha hsp hne => ?_⟩
  · rw [reg_set_onStack htop (by decide), reg_setReg_self]
  · rw [get_set_of_ne htop.inRange ha hne.symm, get_setReg_of_ne ha hsp]

/-! ## The block of a comparison -/

namespace Compile

theorem Arith.exists_jump {arith : Arith} (h : arith.isComparison = true) :
    ∃ jump, arith.shape = .comparison jump := by
  cases arith with
  | eq | gt | lt => exact ⟨_, rfl⟩
  | add | sub | neg | and | or | not => cases h

theorem lower_comparison (s : State) {arith : Arith} {jump : Jump}
    (h : arith.shape = .comparison jump) :
    ∃ lowered, lower s (.arithmetic arith.word) = .ok lowered ∧
      lowered.code = comparison jump s.comparisons := by
  cases arith <;> cases h <;> exact ⟨_, rfl, rfl⟩

variable {job : Job} {program : Program}

theorem Job.romWords_before_succ {i : Nat} (hi : i < job.layout.length) :
    romWords (job.before (i + 1)) =
      romWords (job.before i) + romWords (job.layout[i].code job.options) := by
  rw [before, List.take_succ_eq_append_getElem hi, List.flatMap_append, ← List.append_assoc,
    romWords_append, ← before, List.flatMap_singleton]

/-- In any text that assembles, the block of a comparison stands in the ROM at
`romWords (job.before i)`. -/
theorem Job.exists_comparison (hassembled : (assemble job.artifact.text).1 = .ok program) {i : Nat}
    {arith : Arith} {jump : Jump} (h : arith.shape = .comparison jump)
    (hi : job.OpcodeAt i (.arithmetic arith.word)) :
    ∃ id, HoldsAt (labelsOf program.symbols) program.ops (romWords (job.before i))
        (comparison jump id) ∧
      Binds (labelsOf program.symbols) (romWords (job.before i)) (comparison jump id) ∧
      romWords (job.before (i + 1)) =
        romWords (job.before i) + instructionCount (comparison jump id) := by
  obtain ⟨hi, command, hstep, hopcode⟩ := hi
  obtain ⟨lowered, hlower, hcode⟩ := lower_comparison job.layout[i].state h
  have hprint : command.Printable :=
    printable_of_mem (List.getElem_mem hi) (by rw [hstep]; exact List.mem_singleton_self _)
  have hstands := code_of_lower hi hstep (hopcode ▸ hlower)
  rw [hcode] at hstands
  have hlegible : AllLegible (job.layout[i].code job.options) := by
    rw [hstands, allLegible_append]
    exact ⟨allLegible_comments fun text htext => List.mem_singleton.1 htext ▸ hprint.2,
      allLegible_comparison _ _⟩
  obtain ⟨after, hsplit⟩ := job.artifact_code_split hi
  rw [Artifact.text, hsplit] at hassembled
  obtain ⟨hholds, hbinds⟩ := holdsAt_of_assemble hlegible hassembled
  have hwords := job.romWords_before_succ hi
  rw [romWords_of_legible hlegible] at hwords
  rw [hstands] at hholds hbinds hwords
  have hholds := hholds.right
  have hbinds := hbinds.right
  rw [instructionCount_append, instructionCount_comments, Nat.zero_add] at hwords
  rw [instructionCount_comments, Nat.add_zero] at hholds hbinds
  exact ⟨_, hholds, hbinds, hwords⟩

/-- The block of a comparison leaves `Compared` memory with the branch condition on `x - y`. -/
theorem Job.leaves_compared (hassembled : (assemble job.artifact.text).1 = .ok program) {i : Nat}
    {arith : Arith} {jump : Jump} (h : arith.shape = .comparison jump)
    (hi : job.OpcodeAt i (.arithmetic arith.word)) {m : Machine} (hrom : m.rom = program.ops)
    (hpc : m.pc.toNat = romWords (job.before i))
    (hfits : romWords (job.before (i + 1)) ≤ 65536)
    (hlow : 17 ≤ (m.ram.reg .sp).toNat) (hhigh : (m.ram.reg .sp).toNat ≤ 32768) :
    Leaves (romWords (job.before i)) (romWords (job.before (i + 1))) m fun m' =>
      m'.pc = UInt16.ofNat (romWords (job.before (i + 1))) ∧
        m.ram.Compared (jump.taken
          (m.ram.get (m.ram.reg .sp - 2) - m.ram.get (m.ram.reg .sp - 1))) m'.ram := by
  obtain ⟨id, hholds, hbinds, hwords⟩ := job.exists_comparison hassembled h hi
  have htop := Ram.onStack_sub (w := 1) (by decide) (by decide) hlow hhigh
  have hnext := Ram.onStack_sub (w := 2) (by decide) (by decide) hlow hhigh
  rw [hwords] at hfits ⊢
  rw [← hrom] at hholds
  rw [← hpc] at hholds hbinds hfits ⊢
  refine (leaves_comparison hholds hfits hbinds htop.inRange htop.ne_sp hnext.inRange
    hnext.ne_sp).imp fun m' hm' => ⟨hm'.2, ?_⟩
  rw [hm'.1]
  exact Ram.compared_set _ hnext

end Compile

/-- **Comparisons.** In any program that assembles, the block of a comparison runs to its end from
every state with two values on the stack and gives `Compared` memory. Its truth value is that of the
signed order of the two values iff the comparison is `eq` or the difference of their signed values
is in `[-32768, 32767]`. -/
theorem comparison_decides_difference {job : Job} {program : Program}
    (hassembled : (assemble job.artifact.text).1 = .ok program) {i : Nat} {arith : Arith}
    (hcompare : arith.isComparison = true) (hi : job.OpcodeAt i (.arithmetic arith.word))
    {m : Machine} (hrom : m.rom = program.ops) (hpc : m.pc.toNat = romWords (job.before i))
    (hfits : romWords (job.before (i + 1)) ≤ 65536)
    (hlow : 17 ≤ (m.ram.reg .sp).toNat) (hhigh : (m.ram.reg .sp).toNat ≤ 32768) :
    Leaves (romWords (job.before i)) (romWords (job.before (i + 1))) m fun m' =>
      m'.pc = UInt16.ofNat (romWords (job.before (i + 1))) ∧
        let x := Word.signed (m.ram.get (m.ram.reg .sp - 2))
        let y := Word.signed (m.ram.get (m.ram.reg .sp - 1))
        ∃ result, m.ram.Compared result m'.ram ∧
          (result = arith.holds x y ↔ arith = .eq ∨ -32768 ≤ x - y ∧ x - y < 32768) := by
  obtain ⟨jump, hshape⟩ := Arith.exists_jump hcompare
  refine (job.leaves_compared hassembled hshape hi hrom hpc hfits hlow hhigh).imp fun m' hm' => ?_
  exact ⟨hm'.1, _, hm'.2, Arith.taken_sub_eq_holds_iff hshape _ _⟩

/-- A job with one comparison. -/
def orderJob : Job := ⟨{}, none, [("M", "gt")]⟩

/-- A machine at the start of `program` with `x` and `y` on its stack. -/
def orderMachine (program : Program) (x y : Word) : Machine :=
  { rom := program.ops, ram := ((Ram.blank.setReg .sp 258).set 256 x).set 257 y }

theorem exists_assembled_orderJob :
    ∃ program, (assemble orderJob.artifact.text).1 = .ok program := by
  obtain ⟨program, hprogram, -⟩ : ∃ program,
      (assemble orderJob.artifact.text).1 = .ok program ∧ (fun _ => true) program = true := by
    refine exists_assembled ?_
    rw [assemble, statements, Artifact.text, toList_render]
    decide +kernel
  exact ⟨program, hprogram⟩

theorem opcodeAt_orderJob : orderJob.OpcodeAt 0 (.arithmetic Arith.gt.word) :=
  ⟨by decide +kernel, ⟨.arithmetic "gt", "gt", ⟨"M", 1⟩⟩, by decide +kernel, rfl⟩

theorem romWords_orderJob :
    romWords (orderJob.before 0) = 0 ∧ romWords (orderJob.before 1) = 15 := by
  constructor <;> (rw [romWords, readings_eq, toList_render]; decide +kernel)

theorem orderMachine_sp (program : Program) (x y : Word) :
    (orderMachine program x y).ram.reg .sp = 258 := by
  unfold orderMachine
  rw [Ram.reg_set_of_ne (by decide) (by decide), Ram.reg_set_of_ne (by decide) (by decide),
    Ram.reg_setReg_self]

theorem orderMachine_get (program : Program) (x y : Word) :
    (orderMachine program x y).ram.get 256 = x ∧ (orderMachine program x y).ram.get 257 = y := by
  unfold orderMachine
  rw [Ram.get_set_of_ne (by decide) (by decide) (by decide), Ram.get_set_self, Ram.get_set_self]
  exact ⟨rfl, rfl⟩

theorem comparison_decides_difference_gt :
    ∃ program, (assemble orderJob.artifact.text).1 = .ok program ∧
      Leaves 0 15 (orderMachine program 32767 0) fun m' =>
        m'.pc = 15 ∧ m'.ram.reg .sp = 257 ∧ m'.ram.get 256 = 0xFFFF := by
  obtain ⟨program, hprogram⟩ := exists_assembled_orderJob
  obtain ⟨hbefore, hbehind⟩ := romWords_orderJob
  have hsp := orderMachine_sp program 32767 0
  obtain ⟨hx, hy⟩ := orderMachine_get program 32767 0
  have h := comparison_decides_difference hprogram rfl opcodeAt_orderJob
    (m := orderMachine program 32767 0) rfl hbefore.symm (by rw [hbehind]; decide)
    (by rw [hsp]; decide) (by rw [hsp]; decide)
  rw [hbefore, hbehind] at h
  refine ⟨program, hprogram, h.imp ?_⟩
  rintro m' ⟨hpc, result, ⟨hsp', htop, -⟩, hright⟩
  rw [hsp, show (258 : Word) - 2 = 256 from rfl, show (258 : Word) - 1 = 257 from rfl, hx, hy]
    at hright
  rw [hright.2 (.inr (by decide))] at htop
  rw [hsp] at hsp' htop
  exact ⟨hpc, hsp', htop⟩

/-- `gt` on `32767` and `-1` gives false: the difference wraps to `-32768`. -/
theorem not_comparison_decides_order :
    ¬∀ (job : Job) (program : Program), (assemble job.artifact.text).1 = .ok program →
      ∀ (i : Nat) (arith : Arith), arith.isComparison = true →
        job.OpcodeAt i (.arithmetic arith.word) →
        ∀ m : Machine, m.rom = program.ops → m.pc.toNat = romWords (job.before i) →
          romWords (job.before (i + 1)) ≤ 65536 →
          17 ≤ (m.ram.reg .sp).toNat → (m.ram.reg .sp).toNat ≤ 32768 →
          Leaves (romWords (job.before i)) (romWords (job.before (i + 1))) m fun m' =>
            m'.pc = UInt16.ofNat (romWords (job.before (i + 1))) ∧
              m.ram.Compared (arith.holds (Word.signed (m.ram.get (m.ram.reg .sp - 2)))
                (Word.signed (m.ram.get (m.ram.reg .sp - 1)))) m'.ram := by
  intro hall
  obtain ⟨program, hprogram⟩ := exists_assembled_orderJob
  obtain ⟨hbefore, hbehind⟩ := romWords_orderJob
  have hsp := orderMachine_sp program 32767 0xFFFF
  obtain ⟨hx, hy⟩ := orderMachine_get program 32767 0xFFFF
  have hright := hall orderJob program hprogram 0 .gt rfl opcodeAt_orderJob
    (orderMachine program 32767 0xFFFF) rfl hbefore.symm (by rw [hbehind]; decide)
    (by rw [hsp]; decide) (by rw [hsp]; decide)
  have hwrong := orderJob.leaves_compared hprogram rfl opcodeAt_orderJob
    (m := orderMachine program 32767 0xFFFF) rfl hbefore.symm (by rw [hbehind]; decide)
    (by rw [hsp]; decide) (by rw [hsp]; decide)
  have hout : ∀ m' : Machine, m'.pc = UInt16.ofNat (romWords (orderJob.before 1)) →
      ¬(romWords (orderJob.before 0) < m'.pc.toNat ∧
        m'.pc.toNat < romWords (orderJob.before 1)) := by
    intro m' hpc
    rw [hpc, hbefore, hbehind]
    decide
  obtain ⟨m', ⟨-, hright⟩, -, hwrong⟩ := hright.and hwrong (by rw [hbefore, hbehind]; decide)
    (fun m' hm' => hout m' hm'.1) fun m' hm' => hout m' hm'.1
  have hsame := hright.top.symm.trans hwrong.top
  rw [hsp, show (258 : Word) - 2 = 256 from rfl, show (258 : Word) - 1 = 257 from rfl, hx, hy]
    at hsame
  exact absurd hsame (by decide)

end HackVM
