/-
  Running on a budget. `run_induction` follows the recursion of `run`. `run` is the result of the
  loop on the 64-bit cycle counter (`Watches`, `watches_iff`); it executes at most its budget
  (`Executes`, `executes_run`), and a run without a fault can be continued (`run_add`), so that
  running in pieces is running at once (`run_in_pieces`).
-/
import Mathlib
import HackVM.Proofs.Stepping

namespace HackVM

open Assembly Rom

namespace Machine

/-! ## The turns of a run -/

/-- A run ends at `m` whatever its budget: at a halt loop or outside the ROM. -/
inductive Ends (m : Machine) : Outcome → Prop
  | halted (h : m.atHaltLoop = true) : m.Ends .halted
  | fellThrough (h : m.atHaltLoop = false) (hout : m.rom.size ≤ m.pc.toNat) : m.Ends .fellThrough

/-- The ROM has an instruction at `pc`, and no halt loop starts there. -/
def Live (m : Machine) : Prop := m.atHaltLoop = false ∧ m.pc.toNat < m.rom.size

theorem ends_or_live (m : Machine) : (∃ outcome, m.Ends outcome) ∨ m.Live := by
  cases hhalt : m.atHaltLoop with
  | true => exact .inl ⟨_, .halted hhalt⟩
  | false =>
    rcases Nat.lt_or_ge m.pc.toNat m.rom.size with hin | hout
    · exact .inr ⟨hhalt, hin⟩
    · exact .inl ⟨_, .fellThrough hhalt hout⟩

theorem Live.not_ends {m : Machine} (h : m.Live) (outcome : Outcome) : ¬m.Ends outcome := by
  rintro (hhalt | ⟨-, hout⟩)
  · exact Bool.false_ne_true (h.1.symm.trans hhalt)
  · exact absurd hout h.2.not_ge

theorem Ends.unique {m : Machine} {outcome other : Outcome} (h : m.Ends outcome)
    (h' : m.Ends other) : outcome = other := by
  cases h with
  | halted hhalt =>
    cases h' with
    | halted _ => rfl
    | fellThrough hgo _ => exact absurd (hgo.symm.trans hhalt) Bool.false_ne_true
  | fellThrough hgo _ =>
    cases h' with
    | halted hhalt => exact absurd (hgo.symm.trans hhalt) Bool.false_ne_true
    | fellThrough _ _ => rfl

/-- `Ends` does not depend on the status. -/
theorem Ends.withStatus {m : Machine} {outcome : Outcome} (h : m.Ends outcome) (status : Status) :
    { m with status := status }.Ends outcome := by
  cases h with
  | halted hhalt => exact .halted hhalt
  | fellThrough hgo hout => exact .fellThrough hgo hout

theorem run_of_ends {m : Machine} {outcome : Outcome} (h : m.Ends outcome) (n : Nat) :
    m.run n = (.ok outcome, { m with status := .halted }) := by
  rw [run.eq_def]
  dsimp only
  cases h with
  | halted hhalt => rw [if_pos hhalt]
  | fellThrough hgo hout => rw [hgo, if_neg Bool.false_ne_true, if_pos hout]

/-- `run` at a live machine, by the budget. -/
theorem run_of_live {m : Machine} (h : m.Live) (n : Nat) :
    m.run n = match n with
      | 0 => (.ok .cycleLimit, m)
      | n + 1 =>
        match m.step with
        | (.ok _, m') => m'.run n
        | (.error fault, m') => (.error fault, { m' with status := .failed fault }) := by
  rw [run.eq_def]
  dsimp only
  refine (if_neg (Bool.eq_false_iff.1 h.1)).trans ((if_neg h.2.not_ge).trans ?_)
  cases n <;> rfl

theorem run_zero {m : Machine} (h : m.Live) : m.run 0 = (.ok .cycleLimit, m) := run_of_live h 0

theorem run_succ_of_ok {m m' : Machine} (h : m.Live) (hstep : m.step = (.ok (), m')) (n : Nat) :
    m.run (n + 1) = m'.run n := by
  rw [run_of_live h, hstep]

theorem run_succ_of_error {m m' : Machine} {fault : AddressFault} (h : m.Live)
    (hstep : m.step = (.error fault, m')) (n : Nat) :
    m.run (n + 1) = (.error fault, { m' with status := .failed fault }) := by
  rw [run_of_live h, hstep]

/-- Induction along `run`: an ended machine, a live one without budget, a step that fails, and a
step followed by a run. -/
theorem run_induction {motive : Nat → Machine → Prop}
    (ended : ∀ n m outcome, m.Ends outcome → motive n m)
    (limit : ∀ m, m.Live → motive 0 m)
    (failed : ∀ n m fault m', m.Live → m.step = (.error fault, m') → motive (n + 1) m)
    (next : ∀ n m m', m.Live → m.step = (.ok (), m') → motive n m' → motive (n + 1) m)
    (n : Nat) (m : Machine) : motive n m := by
  induction n generalizing m with
  | zero =>
    rcases m.ends_or_live with ⟨outcome, hends⟩ | hlive
    · exact ended 0 m outcome hends
    · exact limit m hlive
  | succ n ih =>
    rcases m.ends_or_live with ⟨outcome, hends⟩ | hlive
    · exact ended (n + 1) m outcome hends
    · rcases hstep : m.step with ⟨_ | _, m'⟩
      · exact failed n m _ m' hlive hstep
      · exact next n m m' hlive hstep (ih m')

/-! ## The loop that reads the cycle counter -/

/-- The loop on the cycle counter, as a relation to its result: the halt loop and the end of the ROM
are tested first, then `cycles - start` against `limit` in 64 bits. -/
inductive Watches (start limit : UInt64) :
    Machine → Except AddressFault Outcome × Machine → Prop
  | ended {m : Machine} {outcome : Outcome} (h : m.Ends outcome) :
    Watches start limit m (.ok outcome, { m with status := .halted })
  | cycleLimit {m : Machine} (h : m.Live) (hspent : limit ≤ m.cycles - start) :
    Watches start limit m (.ok .cycleLimit, m)
  | failed {m m' : Machine} {fault : AddressFault} (h : m.Live) (hleft : m.cycles - start < limit)
    (hstep : m.step = (.error fault, m')) :
    Watches start limit m (.error fault, { m' with status := .failed fault })
  | next {m m' : Machine} {result : Except AddressFault Outcome × Machine} (h : m.Live)
    (hleft : m.cycles - start < limit) (hstep : m.step = (.ok (), m'))
    (hrest : Watches start limit m' result) : Watches start limit m result

/-- `Watches` has at most one result. -/
theorem Watches.unique {start limit : UInt64} {m : Machine}
    {result other : Except AddressFault Outcome × Machine} (h : Watches start limit m result)
    (h' : Watches start limit m other) : result = other := by
  induction h with
  | ended hends =>
    cases h' with
    | ended hends' => rw [hends.unique hends']
    | cycleLimit hlive _ | failed hlive _ _ | next hlive _ _ _ =>
      exact absurd hends (hlive.not_ends _)
  | cycleLimit hlive hspent =>
    cases h' with
    | ended hends => exact absurd hends (hlive.not_ends _)
    | cycleLimit _ _ => rfl
    | failed _ hleft _ | next _ hleft _ _ => exact absurd hspent (UInt64.not_le.2 hleft)
  | failed hlive hleft hstep =>
    cases h' with
    | ended hends => exact absurd hends (hlive.not_ends _)
    | cycleLimit _ hspent => exact absurd hspent (UInt64.not_le.2 hleft)
    | failed _ _ hstep' =>
      cases hstep.symm.trans hstep'
      rfl
    | next _ _ hstep' _ => cases hstep.symm.trans hstep'
  | next hlive hleft hstep _ ih =>
    cases h' with
    | ended hends => exact absurd hends (hlive.not_ends _)
    | cycleLimit _ hspent => exact absurd hspent (UInt64.not_le.2 hleft)
    | failed _ _ hstep' => cases hstep.symm.trans hstep'
    | next _ _ hstep' hrest =>
      cases hstep.symm.trans hstep'
      exact ih hrest

/-- A step of a live machine counts one cycle, also if it fails. -/
theorem cycles_step {m : Machine} (h : m.Live) : m.step.2.cycles = m.cycles + 1 := by
  obtain ⟨hop, -⟩ | ⟨value, -, hstep⟩ | ⟨dest, comp, jump, -, ⟨-, -, hstep⟩ | ⟨-, hstep⟩⟩ :=
    m.step_cases
  · exact absurd (Array.getElem?_eq_none_iff.1 hop) h.2.not_ge
  · rw [hstep]
  · rw [hstep]
  · rw [hstep]
    rfl

theorem toNat_cycles_step {m m' : Machine} {result : Except AddressFault Unit} (h : m.Live)
    (hstep : m.step = (result, m')) (hfits : m.cycles.toNat + 1 < 2 ^ 64) :
    m'.cycles.toNat = m.cycles.toNat + 1 := by
  have hcycles := cycles_step h
  rw [hstep] at hcycles
  rw [hcycles, UInt64.toNat_add]
  exact Nat.mod_eq_of_lt hfits

/-- `run n` is the result of the loop with `n` cycles left, if the counter does not wrap. -/
theorem watches_run {m : Machine} {start : UInt64} {spent n : Nat}
    (hspent : m.cycles.toNat = start.toNat + spent) (hfits : m.cycles.toNat + n < 2 ^ 64) :
    Watches start (UInt64.ofNat (spent + n)) m (m.run n) := by
  have hlimit : (UInt64.ofNat (spent + n)).toNat = spent + n :=
    UInt64.toNat_ofNat_of_lt' (by simp only [UInt64.size]; omega)
  have hnow : (m.cycles - start).toNat = spent := by
    rw [UInt64.toNat_sub_of_le _ _ (UInt64.le_iff_toNat_le.2 (by omega)), hspent]
    omega
  induction n, m using run_induction generalizing spent with
  | ended n m outcome hends =>
    rw [run_of_ends hends]
    exact .ended hends
  | limit m hlive =>
    rw [run_zero hlive]
    exact .cycleLimit hlive (UInt64.le_iff_toNat_le.2 (by omega))
  | failed n m fault m' hlive hstep =>
    rw [run_succ_of_error hlive hstep]
    exact .failed hlive (UInt64.lt_iff_toNat_lt.2 (by omega)) hstep
  | next n m m' hlive hstep ih =>
    rw [run_succ_of_ok hlive hstep]
    have hcycles := toNat_cycles_step hlive hstep (by omega)
    refine .next hlive (UInt64.lt_iff_toNat_lt.2 (by omega)) hstep ?_
    rw [show spent + (n + 1) = spent + 1 + n by omega] at hlimit ⊢
    refine ih (by omega) (by omega) hlimit ?_
    rw [UInt64.toNat_sub_of_le _ _ (UInt64.le_iff_toNat_le.2 (by omega))]
    omega

/-- The loop has the result of `run` and no other. -/
theorem watches_iff {m : Machine} {n : Nat} (hfits : m.cycles.toNat + n < 2 ^ 64)
    (result : Except AddressFault Outcome × Machine) :
    Watches m.cycles (UInt64.ofNat n) m result ↔ result = m.run n := by
  have hrun : Watches m.cycles (UInt64.ofNat n) m (m.run n) := by
    have hspent : m.cycles.toNat = m.cycles.toNat + 0 := rfl
    have hwatches := watches_run hspent hfits
    rwa [Nat.zero_add] at hwatches
  constructor
  · exact fun h => h.unique hrun
  · rintro rfl
    exact hrun

/-! ## Executed instructions -/

/-- `count` steps from `m` give `result`, each taken by a live machine; only the last may fail. -/
structure Executes (count : Nat) (m : Machine) (result : Except AddressFault Unit × Machine) :
    Prop where
  steps : m.steps count = result
  live : ∀ k < count, ∃ m₁, Runs k m m₁ ∧ m₁.Live

theorem executes_zero (m : Machine) : Executes 0 m (.ok (), m) := ⟨rfl, nofun⟩

theorem executes_error {m m' : Machine} {fault : AddressFault} (hlive : m.Live)
    (hstep : m.step = (.error fault, m')) : Executes 1 m (.error fault, m') := by
  constructor
  · rw [Machine.steps, hstep]
  · intro k hk
    obtain rfl : k = 0 := by omega
    exact ⟨m, .refl m, hlive⟩

theorem Executes.cons {count : Nat} {m m' : Machine} {result : Except AddressFault Unit × Machine}
    (hlive : m.Live) (hstep : m.step = (.ok (), m')) (h : Executes count m' result) :
    Executes (count + 1) m result := by
  constructor
  · rw [Machine.steps, hstep]
    exact h.steps
  · intro k hk
    cases k with
    | zero => exact ⟨m, .refl m, hlive⟩
    | succ k =>
      obtain ⟨m₁, hruns, hlive₁⟩ := h.live k (by omega)
      exact ⟨m₁, runs_succ.2 ⟨m', hstep, hruns⟩, hlive₁⟩

/-- `run n` executes `count ≤ n` instructions at one cycle each and then sets at most the status.
With outcome `cycleLimit`, `count = n` and the machine is live. -/
theorem executes_run (m : Machine) (n : Nat) :
    ∃ count ≤ n, ∃ m', Executes count m ((m.run n).1.map fun _ => (), m') ∧
      (m.run n).2 = { m' with status := (m.run n).2.status } ∧
      (m.cycles.toNat + n < 2 ^ 64 → m'.cycles.toNat = m.cycles.toNat + count) ∧
      ((m.run n).1 = .ok .cycleLimit → count = n ∧ (m.run n).2.Live) := by
  induction n, m using run_induction with
  | ended n m outcome hends =>
    rw [run_of_ends hends]
    refine ⟨0, Nat.zero_le n, m, executes_zero m, rfl, fun _ => rfl, fun hlimit => ?_⟩
    cases hlimit
    cases hends
  | limit m hlive =>
    rw [run_zero hlive]
    exact ⟨0, le_rfl, m, executes_zero m, rfl, fun _ => rfl, fun _ => ⟨rfl, hlive⟩⟩
  | failed n m fault m' hlive hstep =>
    rw [run_succ_of_error hlive hstep]
    exact ⟨1, by omega, m', executes_error hlive hstep, rfl,
      fun hfits => toNat_cycles_step hlive hstep (by omega), nofun⟩
  | next n m m' hlive hstep ih =>
    rw [run_succ_of_ok hlive hstep]
    obtain ⟨count, hcount, m₁, hexecutes, hstatus, hcycles, hlimit⟩ := ih
    refine ⟨count + 1, by omega, m₁, hexecutes.cons hlive hstep, hstatus, fun hfits => ?_,
      fun hend => ⟨congrArg (· + 1) (hlimit hend).1, (hlimit hend).2⟩⟩
    have hfirst := toNat_cycles_step hlive hstep (by omega)
    rw [hcycles (by omega), hfirst]
    omega

/-! ## Pieces -/

/-- A run without a fault can be continued: `run (n + k)` is `run k` of what `run n` leaves. -/
theorem run_add {m m₁ : Machine} {n : Nat} {outcome : Outcome} (h : m.run n = (.ok outcome, m₁))
    (k : Nat) : m.run (n + k) = m₁.run k := by
  induction n, m using run_induction with
  | ended n m outcome' hends =>
    rw [run_of_ends hends] at h ⊢
    cases h
    -- The second run starts where the first has set the status, and ends at once.
    exact (run_of_ends (hends.withStatus .halted) k).symm
  | limit m hlive =>
    rw [run_zero hlive] at h
    cases h
    rw [Nat.zero_add]
  | failed n m fault m' hlive hstep =>
    rw [run_succ_of_error hlive hstep] at h
    cases h
  | next n m m' hlive hstep ih =>
    rw [run_succ_of_ok hlive hstep] at h
    rw [Nat.succ_add, run_succ_of_ok hlive hstep]
    exact ih h

/-- **Budgets.** Let `cycles + n + k < 2 ^ 64`. The loop on the cycle counter has the result of
`run` and no other. `run n` executes at most `n` instructions, one cycle each, and its outcome is
`cycleLimit` only if all `n` were executed and the machine is live. After a run without a fault,
`run k` gives what `run (n + k)` gives at once. -/
theorem run_in_pieces (m : Machine) (n k : Nat) (hfits : m.cycles.toNat + (n + k) < 2 ^ 64) :
    (∀ result, Watches m.cycles (UInt64.ofNat n) m result ↔ result = m.run n) ∧
    (∃ count ≤ n, ∃ m', Executes count m ((m.run n).1.map fun _ => (), m') ∧
      (m.run n).2 = { m' with status := (m.run n).2.status } ∧
      (m.run n).2.cycles.toNat = m.cycles.toNat + count ∧
      ((m.run n).1 = .ok .cycleLimit → count = n ∧
        (m.run n).2.pc.toNat < (m.run n).2.rom.size ∧ (m.run n).2.atHaltLoop = false)) ∧
    ∀ outcome m₁, m.run n = (.ok outcome, m₁) → m.run (n + k) = m₁.run k := by
  have hn : m.cycles.toNat + n < 2 ^ 64 := by omega
  refine ⟨watches_iff hn, ?_, fun outcome m₁ hrun => run_add hrun k⟩
  obtain ⟨count, hcount, m', hexecutes, hstatus, hcycles, hlimit⟩ := m.executes_run n
  refine ⟨count, hcount, m', hexecutes, hstatus, ?_, fun hend => ?_⟩
  · rw [hstatus]
    exact hcycles hn
  · obtain ⟨hall, hlive⟩ := hlimit hend
    exact ⟨hall, hlive.2, hlive.1⟩

/-- A machine that leaves memory with its third instruction. -/
def leaver : Machine :=
  { rom := #[.load 32767, .compute (some .a) (.incSrc .a) none, .compute (some .m) .one none],
    cycles := 40 }

theorem run_in_pieces_leaver :
    leaver.cycles.toNat + (2 + 5) < 2 ^ 64 ∧
      (leaver.run 2).1 = .ok .cycleLimit ∧ (leaver.run 2).2.cycles.toNat = 42 ∧
      (leaver.run (2 + 5)).1 = .error ⟨2, 32768⟩ ∧ leaver.run (2 + 5) = (leaver.run 2).2.run 5 := by
  have hfits : leaver.cycles.toNat + (2 + 5) < 2 ^ 64 := by decide
  obtain ⟨-, ⟨count, -, m', -, -, hcycles, hlimit⟩, hpieces⟩ := run_in_pieces leaver 2 5 hfits
  have hend : (leaver.run 2).1 = .ok .cycleLimit := by rfl
  refine ⟨hfits, hend, ?_, by rfl, hpieces .cycleLimit _ (Prod.ext hend rfl)⟩
  rw [hcycles, (hlimit hend).1]
  rfl

end Machine

end HackVM
