/-
  One step of the machine. By the closed form `step_eq` of the sequential `Machine.step`, a step
  fails iff its computation or destination names `M` while `A` is outside memory, and then only
  `cycles` has changed; otherwise one value, a function of the old `A`, `D` and `RAM[A]`, goes to
  the named destinations, and a jump goes to the old `A` (`step_atomic`). `Comp.readsMemory_iff` and
  `Dest.writes_iff` read the accesses off the mnemonics.
-/
import Mathlib
import HackVM.Proofs.Execution
import HackVM.Proofs.Memory

namespace HackVM

open Assembly Rom

/-! ## What mnemonics name -/

namespace Assembly

/-- `readsMemory` iff the mnemonic has the letter `M`. -/
theorem Comp.readsMemory_iff (comp : Comp) :
    comp.readsMemory = true ↔ 'M' ∈ comp.text.toList := by
  cases comp with
  | src s | notSrc s | negSrc s | incSrc s | decSrc s => cases s <;> decide
  | add s | sub s | subFrom s | and s | or s => cases s <;> decide
  | _ => decide

/-- The value of `comp` at `A = a`, `D = d` and `RAM[A] = cell`. -/
def Comp.value (comp : Comp) (a d cell : Word) : Word :=
  comp.eval d (if 'M' ∈ comp.text.toList then cell else a)

/-- The mnemonic of `dest` has the given letter. -/
def Names (dest : Option Dest) (letter : Char) : Prop :=
  ∃ registers ∈ dest, letter ∈ registers.text.toList

instance (dest : Option Dest) (letter : Char) : Decidable (Names dest letter) :=
  inferInstanceAs (Decidable (∃ registers ∈ dest, _))

/-- `writesA`, `writesD` and `writesM` by the letters of the mnemonic. -/
theorem Dest.writes_iff (dest : Option Dest) :
    (dest.any Dest.writesA = true ↔ Names dest 'A') ∧
      (dest.any Dest.writesD = true ↔ Names dest 'D') ∧
        (dest.any Dest.writesM = true ↔ Names dest 'M') := by
  cases dest with
  | none => decide
  | some dest => cases dest <;> decide

end Assembly

namespace Machine

/-! ## The cases of a step -/

/-- The computation or the destination names `M`. -/
def NeedsCell (dest : Option Dest) (comp : Comp) : Prop :=
  'M' ∈ comp.text.toList ∨ Names dest 'M'

theorem touchesMemory_iff (dest : Option Dest) (comp : Comp) :
    touchesMemory dest comp = true ↔ NeedsCell dest comp := by
  rw [touchesMemory, Bool.or_eq_true, Comp.readsMemory_iff, (Dest.writes_iff dest).2.2, NeedsCell]

theorem value_eq (m : Machine) (comp : Comp) :
    m.value comp = comp.value m.a m.d (m.ram.get m.a) := by
  rw [value, Comp.value]
  simp only [Comp.readsMemory_iff]

/-- Inversion of `step`: outside the ROM it is the identity, a load sets `A`, and a computation
either strays, with `cycles` counted up, or gives `finish`. -/
theorem step_cases (m : Machine) :
    (m.op? = none ∧ m.step = (.ok (), m)) ∨
      (∃ value, m.op? = some (.load value) ∧
        m.step = (.ok (), { m with a := value, pc := m.pc + 1, cycles := m.cycles + 1 })) ∨
      ∃ dest comp jump, m.op? = some (.compute dest comp jump) ∧
        ((NeedsCell dest comp ∧ ramSize ≤ m.a.toNat ∧
            m.step = (.error ⟨m.pc, m.a⟩, { m with cycles := m.cycles + 1 })) ∨
          (NeedsCell dest comp → m.a.toNat < ramSize) ∧
            m.step = (.ok (), { m with cycles := m.cycles + 1 }.finish dest jump
              (comp.value m.a m.d (m.ram.get m.a)))) := by
  rw [step_eq]
  cases hop : m.op? with
  | none => exact .inl ⟨rfl, rfl⟩
  | some op =>
    cases op with
    | load value => exact .inr (.inl ⟨value, rfl, rfl⟩)
    | compute dest comp jump =>
      refine .inr (.inr ⟨dest, comp, jump, rfl, ?_⟩)
      by_cases hbad : (touchesMemory dest comp && !Ram.inRange m.a) = true
      · have hparts := hbad
        rw [Bool.and_eq_true, touchesMemory_iff, Bool.not_eq_true', ← Bool.not_eq_true,
          Ram.inRange_iff, Nat.not_lt] at hparts
        exact .inl ⟨hparts.1, hparts.2, if_pos hbad⟩
      · refine .inr ⟨fun hneeds => ?_, ?_⟩
        · by_contra hout
          rw [← Ram.inRange_iff, Bool.not_eq_true] at hout
          exact hbad (by rw [(touchesMemory_iff dest comp).2 hneeds, hout]; rfl)
        · rw [← value_eq]
          exact if_neg hbad

/-! ## Faults -/

/-- The instruction at `pc` needs `RAM[A]`, and `A ≥ ramSize`. -/
def Strays (m : Machine) : Prop :=
  ramSize ≤ m.a.toNat ∧
    ∃ dest comp jump, m.op? = some (.compute dest comp jump) ∧ NeedsCell dest comp

/-- A step fails iff it strays, with the fault `⟨pc, A⟩`. -/
theorem step_error_iff (m : Machine) (fault : AddressFault) :
    m.step.1 = .error fault ↔ m.Strays ∧ fault = ⟨m.pc, m.a⟩ := by
  obtain ⟨hop, hstep⟩ | ⟨value, hop, hstep⟩ | ⟨dest, comp, jump, hop, hcase⟩ := m.step_cases
  · simp [hstep, Strays, hop]
  · simp [hstep, Strays, hop]
  · obtain ⟨hneeds, hout, hstep⟩ | ⟨hin, hstep⟩ := hcase
    · have hstrays : m.Strays := ⟨hout, dest, comp, jump, hop, hneeds⟩
      simp [hstep, hstrays, eq_comm]
    · have hstays : ¬m.Strays := by
        rintro ⟨hout, dest', comp', jump', hop', hneeds⟩
        rw [hop] at hop'
        cases hop'
        exact absurd (hin hneeds) hout.not_gt
      simp [hstep, hstays]

/-- A step that strays changes `cycles` only. -/
theorem step_of_strays {m : Machine} (h : m.Strays) :
    m.step = (.error ⟨m.pc, m.a⟩, { m with cycles := m.cycles + 1 }) := by
  have herror : m.step.1 = .error ⟨m.pc, m.a⟩ := (m.step_error_iff _).2 ⟨h, rfl⟩
  obtain ⟨-, hstep⟩ | ⟨value, -, hstep⟩ | ⟨dest, comp, jump, -, ⟨-, -, hstep⟩ | ⟨-, hstep⟩⟩ :=
    m.step_cases
  · rw [hstep] at herror
    cases herror
  · rw [hstep] at herror
    cases herror
  · exact hstep
  · rw [hstep] at herror
    cases herror

/-! ## Computations -/

/-- `m'` is `m` after a computation of `value`: the destinations that `dest` names hold it, `pc` is
the old `A` if a condition is taken and `pc + 1` otherwise, and the rest is unchanged. -/
structure Computes (m : Machine) (dest : Option Dest) (jump : Option Jump) (value : Word)
    (m' : Machine) : Prop where
  cell : Names dest 'M' → m.a.toNat < ramSize ∧ m'.ram.get m.a = value
  memory : ∀ address, address.toNat < ramSize → address ≠ m.a ∨ ¬Names dest 'M' →
    m'.ram.get address = m.ram.get address
  a : m'.a = if Names dest 'A' then value else m.a
  d : m'.d = if Names dest 'D' then value else m.d
  pc : m'.pc = if ∃ condition ∈ jump, condition.taken value = true then m.a else m.pc + 1
  cycles : m'.cycles = m.cycles + 1
  status : m'.status = m.status
  rom : m'.rom = m.rom

theorem computes_finish {m : Machine} {dest : Option Dest} {jump : Option Jump} (value : Word)
    (hin : Names dest 'M' → m.a.toNat < ramSize) :
    m.Computes dest jump value ({ m with cycles := m.cycles + 1 }.finish dest jump value) := by
  obtain ⟨ha, hd, hm⟩ := Dest.writes_iff dest
  refine ⟨fun hnames => ⟨hin hnames, ?_⟩, fun address hrange hother => ?_, ?_, ?_, ?_, rfl, rfl,
    rfl⟩
  · rw [finish, if_pos (hm.2 hnames), Ram.get_set_self]
  · by_cases hnames : Names dest 'M'
    · rw [finish, if_pos (hm.2 hnames)]
      exact Ram.get_set_of_ne (Ram.inRange_iff.2 (hin hnames)) (Ram.inRange_iff.2 hrange)
        (hother.resolve_right (not_not.2 hnames)).symm
    · rw [finish, if_neg (mt hm.1 hnames)]
  · simp only [finish, ha]
  · simp only [finish, hd]
  · simp only [finish, Option.any_eq_true]
    rfl

/-- **Steps are atomic.** A step fails iff its instruction names `M` in its computation or
destination while `A ≥ 32768`; the fault is `⟨pc, A⟩`, and all but `cycles` is as before. A
computation that does not fail stores one value, a function of the old `A`, `D` and `RAM[A]`, in the
destinations that it names. -/
theorem step_atomic (m : Machine) :
    (∀ fault, m.step.1 = .error fault ↔
      (32768 ≤ m.a.toNat ∧ ∃ dest comp jump, m.op? = some (.compute dest comp jump) ∧
        ('M' ∈ comp.text.toList ∨ Names dest 'M')) ∧ fault = ⟨m.pc, m.a⟩) ∧
    (∀ fault, m.step.1 = .error fault → m.step.2 = { m with cycles := m.cycles + 1 }) ∧
    ∀ dest comp jump, m.op? = some (.compute dest comp jump) → m.step.1 = .ok () →
      m.Computes dest jump (comp.value m.a m.d (m.ram.get m.a)) m.step.2 := by
  refine ⟨m.step_error_iff, fun fault hfault => ?_, fun dest comp jump hop hok => ?_⟩
  · rw [step_of_strays ((m.step_error_iff fault).1 hfault).1]
  · obtain ⟨hnone, -⟩ | ⟨value, hload, -⟩ | ⟨dest', comp', jump', hop', hcase⟩ := m.step_cases
    · rw [hop] at hnone
      cases hnone
    · rw [hop] at hload
      cases hload
    · rw [hop] at hop'
      cases hop'
      obtain ⟨-, -, hstep⟩ | ⟨hin, hstep⟩ := hcase
      · rw [hstep] at hok
        cases hok
      · rw [hstep]
        exact computes_finish _ fun hnames => hin (.inr hnames)

/-- A machine that adds the cell at `A` to `D`, stores the sum everywhere, and jumps if it is
negative. -/
def adder (a : Word) : Machine :=
  { rom := #[.compute (some .amd) (.add .m) (some .jlt)], ram := Ram.blank.set 300 5, a := a,
    d := 0xFFF9 }

theorem step_atomic_adder :
    (adder 32768).step.1 = .error ⟨0, 32768⟩ ∧
      (adder 32768).step.2 = { adder 32768 with cycles := 1 } ∧
      (adder 300).step.1 = .ok () ∧
      (adder 300).Computes (some .amd) (some .jlt) 0xFFFE (adder 300).step.2 ∧
      (adder 300).step.2.pc = 300 := by
  obtain ⟨herror, hstays, -⟩ := step_atomic (adder 32768)
  have hfault : (adder 32768).step.1 = .error ⟨0, 32768⟩ :=
    (herror _).2 ⟨⟨by decide, _, _, _, rfl, by decide⟩, rfl⟩
  have hcomputes := (step_atomic (adder 300)).2.2 _ _ _ rfl rfl
  have hvalue : (Comp.add .m).value (adder 300).a (adder 300).d ((adder 300).ram.get 300) =
      0xFFFE := by
    rw [adder, Ram.get_set_self]
    decide
  rw [show (adder 300).a = 300 from rfl] at hcomputes hvalue
  rw [hvalue] at hcomputes
  exact ⟨hfault, hstays _ hfault, rfl, hcomputes, hcomputes.pc.trans (by decide)⟩

end Machine

end HackVM
