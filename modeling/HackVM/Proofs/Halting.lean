/-
  Halting for good. A run halts at a word that loads its own address and is followed by `comp;JMP`
  (`HaltLoop`). In a ROM of at most `ramSize` words the loop is not left: the jump stores nothing,
  and the cell that it may read is in range (`Rests.step`). Hence memory does not change any more,
  through any steps and runs (`Later.rests`, `halted_for_good`).
-/
import Mathlib
import HackVM.Proofs.Budgets

namespace HackVM

open Assembly Rom

theorem Rom.Op.isUnconditionalJump_iff (op : Op) :
    op.isUnconditionalJump = true ↔ ∃ comp, op = .compute none comp (some .jmp) := by
  unfold Op.isUnconditionalJump
  split
  · simp
  · rename_i hother
    simpa using hother

namespace Machine

/-! ## The halt loop -/

/-- `rom` holds `@address` at `address`, and a jump `comp;JMP` without destination behind it. -/
structure HaltLoop (rom : Array Op) (address : Word) : Prop where
  load : rom[address.toNat]? = some (.load address)
  jump : ∃ comp, rom[address.toNat + 1]? = some (.compute none comp (some .jmp))

theorem atHaltLoop_iff (m : Machine) : m.atHaltLoop = true ↔ HaltLoop m.rom m.pc := by
  unfold atHaltLoop op?
  rw [Bool.and_eq_true, decide_eq_true_iff, Option.any_eq_true]
  constructor
  · rintro ⟨hload, op, hop, hjump⟩
    obtain ⟨comp, rfl⟩ := op.isUnconditionalJump_iff.1 hjump
    exact ⟨hload, comp, hop⟩
  · rintro ⟨hload, comp, hop⟩
    exact ⟨hload, _, hop, (Op.isUnconditionalJump_iff _).2 ⟨comp, rfl⟩⟩

theorem HaltLoop.lt_size {rom : Array Op} {address : Word} (h : HaltLoop rom address) :
    address.toNat + 1 < rom.size := by
  obtain ⟨comp, hjump⟩ := h.jump
  exact (Array.getElem?_eq_some_iff.1 hjump).1

/-- A run with outcome `halted` ends at a halt loop. -/
theorem atHaltLoop_of_run {m m' : Machine} {n : Nat} (h : m.run n = (.ok .halted, m')) :
    m'.atHaltLoop = true := by
  induction n, m using run_induction with
  | ended n m outcome hends =>
    rw [run_of_ends hends] at h
    cases h
    cases hends with
    | halted hhalt => exact hhalt
  | limit m hlive =>
    rw [run_zero hlive] at h
    cases h
  | failed n m fault m' hlive hstep =>
    rw [run_succ_of_error hlive hstep] at h
    cases h
  | next n m m' hlive hstep ih =>
    rw [run_succ_of_ok hlive hstep] at h
    exact ih h

/-! ## Going round -/

/-- `m'` is at the load of the halt loop of `m`, or at its jump with `A` set to the load; ROM,
memory and `D` are those of `m`. -/
structure Rests (m m' : Machine) : Prop where
  rom : m'.rom = m.rom
  ram : m'.ram = m.ram
  d : m'.d = m.d
  place : m'.pc = m.pc ∨ m'.pc.toNat = m.pc.toNat + 1 ∧ m'.a = m.pc

theorem Rests.refl (m : Machine) : m.Rests m := ⟨rfl, rfl, rfl, .inl rfl⟩

theorem Rests.withStatus {m m₁ : Machine} (h : m.Rests m₁) (status : Status) :
    m.Rests { m₁ with status := status } := ⟨h.rom, h.ram, h.d, h.place⟩

theorem Rests.pc {m m₁ : Machine} (h : m.Rests m₁) :
    m₁.pc.toNat = m.pc.toNat ∨ m₁.pc.toNat = m.pc.toNat + 1 :=
  h.place.imp (congrArg UInt16.toNat) And.left

/-- The step of a load. -/
theorem step_of_load {m : Machine} {value : Word} (hop : m.op? = some (.load value)) :
    m.step = (.ok (), { m with a := value, pc := m.pc + 1, cycles := m.cycles + 1 }) := by
  rw [step_eq, hop]

/-- The step of `comp;JMP` goes to `A`, if `A < ramSize`. -/
theorem step_of_jump {m : Machine} {comp : Comp}
    (hop : m.op? = some (.compute none comp (some .jmp))) (ha : m.a.toNat < ramSize) :
    m.step = (.ok (), { m with pc := m.a, cycles := m.cycles + 1 }) := by
  rw [step_eq, hop]
  dsimp only
  rw [Ram.inRange_iff.2 ha, Bool.not_true, Bool.and_false, if_neg Bool.false_ne_true]
  rfl

section Loop

variable {m m₁ : Machine} (hloop : HaltLoop m.rom m.pc) (hrom : m.rom.size ≤ ramSize)

include hloop hrom

/-- One step preserves `Rests`. -/
theorem Rests.step (h : m.Rests m₁) : ∃ m₂, m₁.step = (.ok (), m₂) ∧ m.Rests m₂ := by
  have hsize := hloop.lt_size
  have hcap : ramSize = 32768 := rfl
  rcases h.place with hpc | ⟨hpc, ha⟩
  · have hop : m₁.op? = some (.load m.pc) := by
      rw [op?, h.rom, hpc]
      exact hloop.load
    refine ⟨_, step_of_load hop, h.rom, h.ram, h.d, .inr ⟨?_, rfl⟩⟩
    -- The jump is inside the ROM, so the program counter does not wrap.
    rw [hpc]
    exact word_toNat_add (show m.pc.toNat + 1 < 65536 by omega)
  · obtain ⟨comp, hjump⟩ := hloop.jump
    have hop : m₁.op? = some (.compute none comp (some .jmp)) := by
      rw [op?, h.rom, hpc]
      exact hjump
    exact ⟨_, step_of_jump hop (by rw [ha]; omega), h.rom, h.ram, h.d, .inl ha⟩

/-- `k` steps preserve `Rests`. -/
theorem Rests.runs (h : m.Rests m₁) (k : Nat) : ∃ m₂, Runs k m₁ m₂ ∧ m.Rests m₂ := by
  induction k generalizing m₁ with
  | zero => exact ⟨m₁, .refl m₁, h⟩
  | succ k ih =>
    obtain ⟨m₂, hstep, hrests⟩ := h.step hloop hrom
    obtain ⟨m₃, hruns, hrests⟩ := ih hrests
    exact ⟨m₃, runs_succ.2 ⟨m₂, hstep, hruns⟩, hrests⟩

/-- A run with any budget preserves `Rests`. -/
theorem Rests.run (h : m.Rests m₁) (n : Nat) : m.Rests (m₁.run n).2 := by
  induction n, m₁ using run_induction with
  | ended n m₁ outcome hends =>
    rw [run_of_ends hends]
    exact h.withStatus .halted
  | limit m₁ hlive =>
    rw [run_zero hlive]
    exact h
  | failed n m₁ fault m₂ hlive hstep =>
    obtain ⟨m₃, hok, -⟩ := h.step hloop hrom
    cases hstep.symm.trans hok
  | next n m₁ m₂ hlive hstep ih =>
    obtain ⟨m₃, hok, hrests⟩ := h.step hloop hrom
    cases hstep.symm.trans hok
    rw [run_succ_of_ok hlive hstep]
    exact ih hrests

end Loop

/-- A run from the load of the loop has outcome `halted` at once. -/
theorem Rests.run_eq {m m₁ : Machine} (hloop : HaltLoop m.rom m.pc) (h : m.Rests m₁)
    (hpc : m₁.pc = m.pc) (n : Nat) : m₁.run n = (.ok .halted, { m₁ with status := .halted }) := by
  refine run_of_ends (.halted (m₁.atHaltLoop_iff.2 ?_)) n
  rwa [h.rom, hpc]

/-! ## Afterwards -/

/-- `m'` comes from `m` by steps and runs, with any budgets and in any order. -/
inductive Later (m : Machine) : Machine → Prop
  | refl : m.Later m
  | step {m₁ : Machine} (h : m.Later m₁) : m.Later m₁.step.2
  | run {m₁ : Machine} (h : m.Later m₁) (budget : Nat) : m.Later (m₁.run budget).2

theorem Later.runs {m m₁ m₂ : Machine} {k : Nat} (h : m.Later m₁) (hruns : Runs k m₁ m₂) :
    m.Later m₂ := by
  induction k generalizing m₁ with
  | zero => rwa [← runs_zero.1 hruns]
  | succ k ih =>
    obtain ⟨m₃, hstep, hruns⟩ := runs_succ.1 hruns
    refine ih ?_ hruns
    have hlater := h.step
    rwa [hstep] at hlater

theorem Later.rests {m m₁ : Machine} (hloop : HaltLoop m.rom m.pc) (hrom : m.rom.size ≤ ramSize)
    (h : m.Later m₁) : m.Rests m₁ := by
  induction h with
  | refl => exact .refl m
  | step _ ih =>
    obtain ⟨m₂, hstep, hrests⟩ := ih.step hloop hrom
    rwa [hstep]
  | run _ budget ih => exact ih.run hloop hrom budget

/-- A run with outcome `halted` is `count` steps without a fault and a change of status. -/
theorem exists_runs_of_halted {m m' : Machine} {n : Nat} (h : m.run n = (.ok .halted, m')) :
    ∃ count ≤ n, ∃ m₁, Runs count m m₁ ∧ m' = { m₁ with status := m'.status } := by
  obtain ⟨count, hcount, m₁, hexecutes, hstatus, -, -⟩ := m.executes_run n
  rw [h] at hexecutes hstatus
  exact ⟨count, hcount, m₁, hexecutes.steps, hstatus⟩

/-- **Halted is halted.** Let the ROM have at most 32768 words, and let a run end with outcome
`halted` at `m'`. In every `Later` state a step succeeds, `pc` is that of `m'` or one more, memory
and `D` are those of `m'`, and a run from the `pc` of `m'` has outcome `halted` with the same
memory. So from some step of the execution on memory never changes. -/
theorem halted_for_good (m m' : Machine) (budget : Nat) (hrom : m.rom.size ≤ 32768)
    (hrun : m.run budget = (.ok .halted, m')) :
    (∀ m₁, m'.Later m₁ →
      m₁.step.1 = .ok () ∧
      (m₁.pc.toNat = m'.pc.toNat ∨ m₁.pc.toNat = m'.pc.toNat + 1) ∧
      m₁.ram = m'.ram ∧ m₁.d = m'.d ∧
      (m₁.pc = m'.pc → ∀ n, (m₁.run n).1 = .ok .halted ∧ (m₁.run n).2.ram = m'.ram)) ∧
    (∀ k, ∃ m₁, m'.steps k = (.ok (), m₁) ∧ m'.Later m₁) ∧
    ∃ count ≤ budget, ∀ k ≥ count, ∃ m₁, m.steps k = (.ok (), m₁) ∧ m₁.ram = m'.ram := by
  have hloop := m'.atHaltLoop_iff.1 (atHaltLoop_of_run hrun)
  obtain ⟨count, hcount, mₕ, hruns, hstatus⟩ := exists_runs_of_halted hrun
  have hrom' : m'.rom.size ≤ ramSize := by
    rw [hstatus]
    exact hruns.rom ▸ hrom
  refine ⟨fun m₁ hlater => ?_, fun k => ?_, count, hcount, fun k hk => ?_⟩
  · have hrests := hlater.rests hloop hrom'
    obtain ⟨m₂, hstep, -⟩ := hrests.step hloop hrom'
    refine ⟨by rw [hstep], hrests.pc, hrests.ram, hrests.d, fun hpc n => ?_⟩
    rw [hrests.run_eq hloop hpc]
    exact ⟨rfl, hrests.ram⟩
  · obtain ⟨m₁, hruns₁, -⟩ := (Rests.refl m').runs hloop hrom' k
    exact ⟨m₁, hruns₁, Later.refl.runs hruns₁⟩
  · -- The program itself does not see that a run has set the status.
    have hrests : m'.Rests mₕ := by
      rw [hstatus]
      exact ⟨rfl, rfl, rfl, .inl rfl⟩
    obtain ⟨m₁, hruns₁, hrests₁⟩ := hrests.runs hloop hrom' (k - count)
    rw [← Nat.add_sub_cancel' hk]
    exact ⟨m₁, hruns.trans hruns₁, hrests₁.ram⟩

/-- A program that stores 7 in cell 100 and halts in a loop whose jump reads memory. -/
def stopper : Machine :=
  { rom := #[.load 7, .compute (some .d) (.src .a) none, .load 100, .compute (some .m) .d none,
      .load 4, .compute none (.decSrc .m) (some .jmp)] }

theorem halted_for_good_stopper :
    stopper.rom.size ≤ 32768 ∧ (stopper.run 9).1 = .ok .halted ∧ (stopper.run 9).2.pc = 4 ∧
      (∃ m₁, (stopper.run 9).2.steps 1001 = (.ok (), m₁) ∧ m₁.step.1 = .ok () ∧
        (m₁.pc = 4 ∨ m₁.pc = 5) ∧ m₁.ram.get 100 = 7 ∧ m₁.d = 7) ∧
      ∃ count ≤ 9, ∀ k ≥ count, ∃ m₁, stopper.steps k = (.ok (), m₁) ∧ m₁.ram.get 100 = 7 := by
  have hrom : stopper.rom.size ≤ 32768 := by decide
  have hhalted : (stopper.run 9).1 = .ok .halted := by decide +kernel
  have hpc₀ : (stopper.run 9).2.pc = 4 := by decide +kernel
  have hd₀ : (stopper.run 9).2.d = 7 := by decide +kernel
  have hcell : (stopper.run 9).2.ram.get 100 = 7 := by decide +kernel
  -- From here on the machine at the halt is any one of which these four facts hold.
  rcases hrun : stopper.run 9 with ⟨outcome, m'⟩
  rw [hrun] at hhalted hpc₀ hd₀ hcell
  cases hhalted
  obtain ⟨hlater, hsteps, count, hcount, hfinal⟩ := halted_for_good stopper m' 9 hrom hrun
  refine ⟨hrom, rfl, hpc₀, ?_, count, hcount, fun k hk => ?_⟩
  · obtain ⟨m₁, hruns, hm₁⟩ := hsteps 1001
    obtain ⟨hok, hpc, hram, hd, -⟩ := hlater m₁ hm₁
    rw [hpc₀] at hpc
    exact ⟨m₁, hruns, hok, hpc.imp UInt16.toNat_inj.1 UInt16.toNat_inj.1, hram ▸ hcell,
      hd.trans hd₀⟩
  · obtain ⟨m₁, hruns, hram⟩ := hfinal k hk
    exact ⟨m₁, hruns, hram ▸ hcell⟩

end Machine

end HackVM
