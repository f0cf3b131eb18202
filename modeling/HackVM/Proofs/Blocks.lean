/-
  The run of the code of one action. `Emits` relates an action to its code. Wherever that code
  stands in a ROM, its run stays inside the block until it leaves with memory `Action.result` at the
  address of `Action.next` (`Emits.leaves`). Code that needs a cell outside memory fails inside the
  block (`Emits.safe_or_fails`).
-/
import Mathlib
import HackVM.Proofs.Lowering
import HackVM.Proofs.Pieces

namespace HackVM

open Assembly Compile

/-! ## Leaving a block -/

namespace Machine

variable {labels : String → Word} {code : List Inst} {m : Machine} {lo hi : Nat}

/-- A run from `m` that stays strictly between `lo` and `hi` after its first step ends in a state
with `post`. It has a step at least if `lo < hi`. -/
def Leaves (lo hi : Nat) (m : Machine) (post : Machine → Prop) : Prop :=
  ∃ n m', Runs n m m' ∧ Inside lo hi n m ∧ (lo < hi → 0 < n) ∧ post m'

/-- A run from `m` that stays strictly between `lo` and `hi` meets a fault. -/
def Fails (lo hi : Nat) (m : Machine) : Prop :=
  ∃ n, Inside lo hi n m ∧ ∀ m', ¬Runs n m m'

theorem Leaves.imp {post post' : Machine → Prop} (h : Leaves lo hi m post)
    (himp : ∀ m', post m' → post' m') : Leaves lo hi m post' := by
  obtain ⟨n, m', hruns, hin, hpos, hpost⟩ := h
  exact ⟨n, m', hruns, hin, hpos, himp m' hpost⟩

theorem Leaves.before {lo' hi' n : Nat} {m₁ : Machine} {post : Machine → Prop}
    (h : Leaves lo' hi' m₁ post) (hruns : Runs n m m₁) (hpos : 0 < n) (hin : Inside lo hi n m)
    (hpc : lo < m₁.pc.toNat ∧ m₁.pc.toNat < hi) (hlo : lo ≤ lo') (hhi : hi' ≤ hi) :
    Leaves lo hi m post := by
  obtain ⟨k, m', hruns', hin', -, hpost⟩ := h
  exact ⟨n + k, m', hruns.trans hruns', hin.trans hruns hpc (hin'.widen hlo hhi), by omega, hpost⟩

/-- A run to a `pc` outside a block passes through the state in which the block is left. -/
theorem Leaves.of_runs {n : Nat} {m' : Machine} {post : Machine → Prop} (h : Leaves lo hi m post)
    (hlt : lo < hi) (hn : 0 < n) (hruns : Runs n m m')
    (hout : ¬(lo < m'.pc.toNat ∧ m'.pc.toNat < hi)) :
    ∃ k m₁, 0 < k ∧ k ≤ n ∧ Runs k m m₁ ∧ Inside lo hi k m ∧ post m₁ := by
  obtain ⟨k, m₁, hk, hin, hpos, hpost⟩ := h
  refine ⟨k, m₁, hpos hlt, ?_, hk, hin, hpost⟩
  by_contra hkn
  exact hout (hin n m' hn (Nat.lt_of_not_le hkn) hruns)

/-- The state in which a block is left is unique, so its properties can be joined. -/
theorem Leaves.and {post post' : Machine → Prop} (h : Leaves lo hi m post)
    (h' : Leaves lo hi m post') (hlt : lo < hi)
    (hout : ∀ m', post m' → ¬(lo < m'.pc.toNat ∧ m'.pc.toNat < hi))
    (hout' : ∀ m', post' m' → ¬(lo < m'.pc.toNat ∧ m'.pc.toNat < hi)) :
    ∃ m', post m' ∧ post' m' := by
  obtain ⟨n, m₁, hn, hin, hpos, hpost⟩ := h
  obtain ⟨n', m₂, hn', hin', hpos', hpost'⟩ := h'
  rcases Nat.lt_trichotomy n n' with hlt' | rfl | hgt
  · exact absurd (hin' n m₁ (hpos hlt) hlt' hn) (hout m₁ hpost)
  · cases hn.unique hn'
    exact ⟨m₁, hpost, hpost'⟩
  · exact absurd (hin n' m₂ (hpos' hlt) hgt hn') (hout' m₂ hpost')

/-- No run from a block that `Fails` ends outside of it. -/
theorem Fails.not_runs {n : Nat} {m' : Machine} (h : Fails lo hi m) (hn : 0 < n)
    (hout : ¬(lo < m'.pc.toNat ∧ m'.pc.toNat < hi)) : ¬Runs n m m' := by
  intro hruns
  obtain ⟨k, hin, hnone⟩ := h
  rcases Nat.lt_or_ge n k with hlt | hge
  · exact hout (hin n m' hn hlt hruns)
  · rw [← Nat.add_sub_cancel' hge] at hruns
    obtain ⟨m₁, hm₁, -⟩ := runs_add.1 hruns
    exact hnone m₁ hm₁

theorem straight_of_exec {s t : Store} (h : exec labels code s = some t) : Straight code := by
  induction code generalizing s with
  | nil => exact fun _ h => absurd h List.not_mem_nil
  | cons inst code ih =>
    rw [exec, Option.bind_eq_some_iff] at h
    obtain ⟨u, hu, h⟩ := h
    exact straight_cons.2 ⟨isBranch_of_apply hu, ih h⟩

/-- After `k` steps in straight-line code `pc` has advanced by `k`, as natural numbers. -/
theorem toNat_pc_of_runs {k : Nat} {m₁ : Machine} (hcode : HoldsAt labels m.rom m.pc.toNat code)
    (hfits : m.pc.toNat + instructionCount code ≤ 65536) (hs : Straight code)
    (hk : k ≤ instructionCount code) (hlt : m.pc.toNat + k < 65536) (h : Runs k m m₁) :
    m₁.pc.toNat = m.pc.toNat + k := by
  rw [pc_of_runs hcode UInt16.ofNat_toNat.symm hfits hs hk h, word_toNat_ofNat hlt]

theorem inside_straight (hcode : HoldsAt labels m.rom m.pc.toNat code)
    (hfits : m.pc.toNat + instructionCount code ≤ 65536) (hs : Straight code) :
    Inside m.pc.toNat (m.pc.toNat + instructionCount code) (instructionCount code) m := by
  intro k m₁ h₀ hk hruns
  have := toNat_pc_of_runs hcode hfits hs hk.le (by omega) hruns
  omega

theorem leaves_of_exec {s : Store} (hcode : HoldsAt labels m.rom m.pc.toNat code)
    (hfits : m.pc.toNat + instructionCount code ≤ 65536)
    (h : exec labels code m.store = some s) :
    Leaves m.pc.toNat (m.pc.toNat + instructionCount code) m fun m' =>
      m'.ram = s.ram ∧ m'.pc = UInt16.ofNat (m.pc.toNat + instructionCount code) := by
  obtain ⟨m', hruns, hstore, hpc⟩ := runs_of_exec hcode UInt16.ofNat_toNat.symm hfits h
  exact ⟨_, m', hruns, inside_straight hcode hfits (straight_of_exec h), by omega,
    congrArg Store.ram hstore, hpc⟩

theorem fails_of_exec (hcode : HoldsAt labels m.rom m.pc.toNat code) (hsize : m.rom.size < 65536)
    (hs : Straight code) (h : exec labels code m.store = none) :
    Fails m.pc.toNat (m.pc.toNat + instructionCount code) m := by
  refine ⟨_, inside_straight hcode (hcode.fits hsize) hs, fun m' hruns => ?_⟩
  rw [exec_of_runs hcode hsize hs hruns] at h
  cases h

/-- The step of `comp;jump`: to `A` if `jump` is taken, else to `pc + 1`. -/
theorem step_branch {comp : Comp} {jump : Jump} (hm : m.op? = some (.compute none comp (some jump)))
    (hcomp : comp.readsMemory = false) :
    m.step = (.ok (), { m with
      pc := if jump.taken (comp.eval m.d m.a) then m.a else m.pc + 1,
      cycles := m.cycles + 1 }) := by
  rw [step_eq, hm]
  simp [touchesMemory, value, finish, hcomp]

/-- Straight-line code followed by a branch. -/
theorem runs_branch {s : Store} {comp : Comp} {jump : Jump}
    (hcode : HoldsAt labels m.rom m.pc.toNat (code ++ [.branch comp jump]))
    (hfits : m.pc.toNat + instructionCount code < 65536) (hcomp : comp.readsMemory = false)
    (h : exec labels code m.store = some s) :
    ∃ m', Runs (instructionCount code + 1) m m' ∧ m'.store = s ∧
      m'.pc = (if jump.taken (comp.eval s.d s.a) then s.a
        else UInt16.ofNat (m.pc.toNat + instructionCount code + 1)) ∧
      Inside m.pc.toNat (m.pc.toNat + instructionCount code + 1) (instructionCount code + 1) m := by
  obtain ⟨m₁, hruns, rfl, hpc⟩ := runs_of_exec hcode.left UInt16.ofNat_toNat.symm hfits.le h
  have hop : m₁.op? = some (.compute none comp (some jump)) := by
    have := hcode.right.head rfl
    rwa [← toNat_pc_of_lt hpc hfits, ← hruns.rom] at this
  have hstep := step_branch hop hcomp
  rw [pc_succ hpc] at hstep
  refine ⟨_, hruns.trans (.one hstep), rfl, rfl, ?_⟩
  intro k m₂ h₀ hk hm₂
  have := toNat_pc_of_runs hcode.left hfits.le (straight_of_exec h) (Nat.le_of_lt_succ hk)
    (by omega) hm₂
  omega

theorem leaves_jump {s : Store} (hcode : HoldsAt labels m.rom m.pc.toNat (code ++ [.jump]))
    (hfits : m.pc.toNat + instructionCount code < 65536)
    (h : exec labels code m.store = some s) :
    Leaves m.pc.toNat (m.pc.toNat + instructionCount code + 1) m fun m' =>
      m'.ram = s.ram ∧ m'.pc = s.a := by
  obtain ⟨m', hruns, hstore, hpc, hin⟩ := runs_branch hcode hfits rfl h
  exact ⟨_, m', hruns, hin, fun _ => Nat.succ_pos _, congrArg Store.ram hstore, hpc⟩

theorem leaves_of_jump {s : Store} (hcode : HoldsAt labels m.rom m.pc.toNat (code ++ [.jump]))
    (hsize : m.rom.size < 65536) (h : exec labels code m.store = some s) :
    Leaves m.pc.toNat (m.pc.toNat + instructionCount code + 1) m fun m' =>
      m'.ram = s.ram ∧ m'.pc = s.a :=
  leaves_jump hcode (hcode.left.le_size.trans_lt hsize) h

/-- `goto` to its own address stays in its two words and leaves memory alone. -/
theorem of_runs_loop {name : String} {n : Nat} {m' : Machine}
    (hcode : HoldsAt labels m.rom m.pc.toNat (goto name)) (hsize : m.rom.size < 65536)
    (hname : labels name = m.pc) (h : Runs n m m') :
    m'.ram = m.ram ∧ (m'.pc = m.pc ∨ m'.pc = m.pc + 1 ∧ m'.a = m.pc) := by
  have hload : m.rom[m.pc.toNat]? = some (.load m.pc) := hcode.head (by rw [← hname]; rfl)
  have hsucc := toNat_pc_succ hload hsize
  have hjump : m.rom[(m.pc + 1).toNat]? = some (.compute none .zero (some .jmp)) := by
    rw [hsucc]
    exact (hcode.tail rfl).head rfl
  suffices hinv : ∀ m₁ : Machine, m₁.rom = m.rom →
      (m₁.pc = m.pc ∨ m₁.pc = m.pc + 1 ∧ m₁.a = m.pc) → Runs n m₁ m' →
      m'.ram = m₁.ram ∧ (m'.pc = m.pc ∨ m'.pc = m.pc + 1 ∧ m'.a = m.pc) from
    hinv m rfl (.inl rfl) h
  clear h
  induction n with
  | zero =>
    intro m₁ _ hpc h
    rw [← runs_zero.1 h]
    exact ⟨rfl, hpc⟩
  | succ n ih =>
    intro m₁ hrom hpc h
    obtain ⟨m₂, hstep, h⟩ := runs_succ.1 h
    rcases hpc with hpc | ⟨hpc, ha⟩
    · have hop : m₁.op? = some (.load m.pc) := by rw [op?, hrom, hpc, hload]
      rw [step_eq, hop] at hstep
      cases hstep
      have hrest := fun hrom hpc => ih _ hrom hpc h
      exact hrest hrom (.inr ⟨congrArg (· + 1) hpc, rfl⟩)
    · rw [step_branch (by rw [op?, hrom, hpc, hjump]) rfl] at hstep
      cases hstep
      have hrest := fun hrom hpc => ih _ hrom hpc h
      exact hrest hrom (.inl ha)

end Machine

/-! ## Comparisons -/

theorem signed_eq_zero_iff {w : Word} : Word.signed w = 0 ↔ w = 0 := by
  have := w.toNat_lt
  rw [← UInt16.toNat_inj, Word.signed]
  split_ifs
  · simp
  · simp
    omega

/-- `combine` of a comparison is `truth` of the branch condition on `x - y`. -/
theorem truth_taken {arith : Arith} {jump : Jump} (h : arith.shape = .comparison jump)
    (x y : Word) : arith.combine x y = Arith.truth (jump.taken (x - y)) := by
  cases arith <;> cases h
  · simp [Arith.combine, Jump.taken, signed_eq_zero_iff, sub_eq_zero]
  · rfl
  · rfl

namespace Machine

variable {labels : String → Word} {m : Machine}

theorem leaves_comparison {jump : Jump} {id : UInt32}
    (hcode : HoldsAt labels m.rom m.pc.toNat (comparison jump id))
    (hfits : m.pc.toNat + instructionCount (comparison jump id) ≤ 65536)
    (hbinds : Binds labels m.pc.toNat (comparison jump id))
    (hsp : Ram.inRange (m.ram.reg .sp - 1) = true)
    (hne : m.ram.reg .sp - 1 ≠ Register.sp.address)
    (hsp' : Ram.inRange (m.ram.reg .sp - 2) = true)
    (hne' : m.ram.reg .sp - 2 ≠ Register.sp.address) :
    Leaves m.pc.toNat (m.pc.toNat + instructionCount (comparison jump id)) m fun m' =>
      m'.ram = (m.ram.setReg .sp (m.ram.reg .sp - 1)).set (m.ram.reg .sp - 2)
        (Arith.truth (jump.taken
          (m.ram.get (m.ram.reg .sp - 2) - m.ram.get (m.ram.reg .sp - 1)))) ∧
      m'.pc = UInt16.ofNat (m.pc.toNat + instructionCount (comparison jump id)) := by
  rw [comparison_eq] at hcode hbinds ⊢
  have hfail := hcode.right.left.left
  have hhold := hcode.right.right
  have htrue := hbinds.right.left.right.head
  have hdone := hbinds.right.right (topToA ++ [.assign .m .minusOne]) _ [] rfl
  change HoldsAt labels m.rom (m.pc.toNat + 7) (compareFails id ++ [.jump]) at hfail
  change HoldsAt labels m.rom (m.pc.toNat + 7 + 5) (compareHolds id) at hhold
  change labels (Label.compareTrue id) = UInt16.ofNat (m.pc.toNat + 7 + 5) at htrue
  change labels (Label.compareFinished id) = UInt16.ofNat (m.pc.toNat + 7 + 5 + 3) at hdone
  change m.pc.toNat + 15 ≤ 65536 at hfits
  change Leaves m.pc.toNat (m.pc.toNat + 15) m fun m' => _ ∧ m'.pc = UInt16.ofNat (m.pc.toNat + 15)
  obtain ⟨m₁, hruns, hstore, hpc, hin⟩ := runs_branch hcode.left
    (show m.pc.toNat + 6 < 65536 by omega) rfl (exec_compareSetup labels hsp hne hsp' hne')
  change Inside m.pc.toNat (m.pc.toNat + 7) 7 m at hin
  change m₁.pc = if jump.taken (m.ram.get (m.ram.reg .sp - 2) - m.ram.get (m.ram.reg .sp - 1)) then
    labels (Label.compareTrue id) else UInt16.ofNat (m.pc.toNat + 7) at hpc
  have hram : m₁.ram = m.ram.setReg .sp (m.ram.reg .sp - 1) := congrArg Store.ram hstore
  have htop : m₁.ram.reg .sp - 1 = m.ram.reg .sp - 2 := by
    rw [hram, Ram.reg_setReg_self, word_sub_one_sub_one]
  rw [← hruns.rom] at hfail hhold
  cases htaken : jump.taken (m.ram.get (m.ram.reg .sp - 2) - m.ram.get (m.ram.reg .sp - 1)) with
  | true =>
    have hat : m₁.pc.toNat = m.pc.toNat + 7 + 5 := by
      rw [hpc, htaken, if_pos rfl, htrue]
      exact word_toNat_ofNat (by omega)
    have hend : m₁.pc.toNat + instructionCount (compareHolds id) = m.pc.toNat + 15 := by
      rw [hat]
      rfl
    rw [← hat] at hhold
    refine Leaves.before ((leaves_of_exec hhold (by omega) (exec_compareHolds labels ?_)).imp ?_)
      hruns (Nat.succ_pos _) (hin.widen le_rfl (by omega)) (by omega) (by omega) hend.le
    · rwa [show m₁.store.ram = m₁.ram from rfl, htop]
    · rintro m' ⟨hm', hpc'⟩
      rw [show m₁.store.ram = m₁.ram from rfl, htop, hram] at hm'
      exact ⟨hm', by rw [hpc', hend]⟩
  | false =>
    have hat : m₁.pc.toNat = m.pc.toNat + 7 := by
      rw [hpc, htaken]
      exact word_toNat_ofNat (by omega)
    have hend : m₁.pc.toNat + instructionCount (compareFails id) = m.pc.toNat + 11 := by
      rw [hat]
      rfl
    rw [← hat] at hfail
    refine Leaves.before ((leaves_jump hfail (by omega) (exec_compareFails labels ?_)).imp ?_)
      hruns (Nat.succ_pos _) (hin.widen le_rfl (by omega)) (by omega) (by omega) (by omega)
    · rwa [show m₁.store.ram = m₁.ram from rfl, htop]
    · rintro m' ⟨hm', hpc'⟩
      rw [show m₁.store.ram = m₁.ram from rfl, htop, hram] at hm'
      exact ⟨hm', hpc'.trans hdone⟩

end Machine

/-! ## The code of an action -/

/-- The code of each action, with any label numbers. -/
inductive Emits : Action → List Inst → Prop where
  | binary {arith : Arith} {comp : Comp} (h : arith.shape = .binary comp) :
      Emits (.arith arith) (binary comp)
  | unary {arith : Arith} {comp : Comp} (h : arith.shape = .unary comp) :
      Emits (.arith arith) (unary comp)
  | comparison {arith : Arith} {jump : Jump} (h : arith.shape = .comparison jump) (id : UInt32) :
      Emits (.arith arith) (comparison jump id)
  | push {source : Operand} (h : source.Regular) : Emits (.push source) (push source)
  | pop {target : Resolved} {code : List Inst} (h : target.operand.Regular)
      (hcode : pop target = .ok code) : Emits (.pop target.operand) code
  | label (name : String) : Emits (.label name) (label name)
  | goto (name : String) : Emits (.goto name) (goto name)
  | ifGoto (name : String) : Emits (.ifGoto name) (ifGoto name)
  | function (name : String) (locals : Word) : Emits (.function name locals) (function name locals)
  | call (callee : String) (args : Word) (returnLabel : String) :
      Emits (.call callee args) (call callee args returnLabel)
  | ret : Emits .ret ret

theorem regular_operand {statics : Statics} {index : Word} {segment : Segment}
    (h : index.toNat < segment.currentLimit statics) :
    (segment.operand statics index).Regular := by
  cases segment with
  | lcl => exact .inl rfl
  | arg => exact .inr (.inl rfl)
  | this => exact .inr (.inr (.inl rfl))
  | that => exact .inr (.inr (.inr rfl))
  | constant => trivial
  | temp =>
    change 5 ≤ (UInt16.ofNat (Statics.saturatingAdd 5 index.toNat)).toNat
    rw [Statics.saturatingAdd, word_toNat_ofNat (by omega)]
    omega
  | static =>
    change 5 ≤ (UInt16.ofNat (Statics.saturatingAdd 16 (statics.slot index.toNat))).toNat
    rw [Statics.saturatingAdd, word_toNat_ofNat (by omega)]
    omega
  | pointer =>
    have hlt : index.toNat < 2 := h
    have hone : index ≤ 1 := UInt16.le_iff_toNat_le.2 (Nat.le_of_lt_succ hlt)
    rcases word_le_one_iff.1 hone with rfl | rfl
    · exact .inl rfl
    · exact .inr rfl

theorem regular_of_resolve {s s' : State} {segment : String} {index : Word} {resolved : Resolved}
    (h : s.resolve segment index = (.ok resolved, s')) : resolved.operand.Regular := by
  obtain ⟨found, -, hlimit, rfl, -⟩ := resolve_eq_ok_iff.1 h
  exact regular_operand hlimit

/-- Lowered code is emitted for the action of its opcode. -/
theorem emits_of_lowers {s s' : State} {opcode : Opcode} {code : List Inst}
    (h : Lowers s opcode code s') :
    ∃ action, Action.of s opcode = .ok action ∧ Emits action code := by
  cases h with
  | binary hword hshape => exact ⟨_, by rw [Action.of, hword]; rfl, .binary hshape⟩
  | unary hword hshape => exact ⟨_, by rw [Action.of, hword]; rfl, .unary hshape⟩
  | comparison hword hshape => exact ⟨_, by rw [Action.of, hword]; rfl, .comparison hshape _⟩
  | push hsource =>
    exact ⟨_, by rw [Action.of, hsource]; rfl, .push (regular_of_resolve hsource)⟩
  | pop htarget hcode =>
    exact ⟨_, by rw [Action.of, htarget]; rfl, .pop (regular_of_resolve htarget) hcode⟩
  | label name => exact ⟨_, rfl, .label name⟩
  | goto name => exact ⟨_, rfl, .goto name⟩
  | ifGoto name => exact ⟨_, rfl, .ifGoto name⟩
  | function name locals => exact ⟨_, rfl, .function name locals⟩
  | call hargs => exact ⟨_, rfl, .call ..⟩
  | ret => exact ⟨_, rfl, .ret⟩

namespace Machine

variable {labels : String → Word} {m : Machine} {action : Action} {code : List Inst}

theorem binary_eval {arith : Arith} {comp : Comp} (h : arith.shape = .binary comp) (x y : Word) :
    comp.readsMemory = true ∧ arith.isUnary = false ∧ comp.eval y x = arith.combine x y := by
  cases arith <;> cases h
  · exact ⟨rfl, rfl, add_comm y x⟩
  · exact ⟨rfl, rfl, rfl⟩
  · exact ⟨rfl, rfl, UInt16.and_comm y x⟩
  · exact ⟨rfl, rfl, UInt16.or_comm y x⟩

theorem unary_eval {arith : Arith} {comp : Comp} (h : arith.shape = .unary comp) (d x y : Word) :
    comp.readsMemory = true ∧ arith.isUnary = true ∧ comp.eval d y = arith.combine x y := by
  cases arith <;> cases h <;> exact ⟨rfl, rfl, rfl⟩

theorem comparison_isUnary {arith : Arith} {jump : Jump} (h : arith.shape = .comparison jump) :
    arith.isUnary = false := by
  cases arith <;> cases h <;> rfl

/-- The two stack cells of a binary operation. -/
theorem runnable_binary {ram : Ram} {arith : Arith} (h : (Action.arith arith).Runnable ram)
    (hu : arith.isUnary = false) :
    (Ram.inRange (ram.reg .sp - 1) = true ∧ ram.reg .sp - 1 ≠ Register.sp.address) ∧
      Ram.inRange (ram.reg .sp - 2) = true ∧ ram.reg .sp - 2 ≠ Register.sp.address := by
  have hcells := h.1
  simp only [Action.stackCells, hu] at hcells
  have h₁ := hcells (ram.reg .sp - 1) (by simp)
  have h₂ := hcells (ram.reg .sp - 2) (by simp)
  exact ⟨⟨h₁.1, h₁.2.1⟩, h₂.1, h₂.2.1⟩

theorem popped_isSome {target : Resolved} (hcode : Compile.pop target = .ok code)
    (h : target.operand.Regular) (ram : Ram) : ∃ cell, target.operand.cell? ram = some cell := by
  obtain ⟨segment, operand⟩ := target
  cases operand with
  | immediate value => cases hcode
  | pointer base index => exact ⟨_, rfl⟩
  | direct address =>
    cases address with
    | const address => exact ⟨_, rfl⟩
    | reg register => exact ⟨_, rfl⟩
    | symbol name => exact h.elim

/-- Memory is `Action.result`, and `pc` is the address of `Action.next`. -/
def Done (labels : String → Word) (m : Machine) (action : Action) (behind : Nat) (m' : Machine) :
    Prop :=
  m'.ram = action.result m.ram (UInt16.ofNat behind) ∧
    m'.pc = (action.next m.ram).address labels (UInt16.ofNat behind)

theorem leaves_arith {arith : Arith} (h : Emits (.arith arith) code)
    (hcode : HoldsAt labels m.rom m.pc.toNat code) (hsize : m.rom.size < 65536)
    (hbinds : Binds labels m.pc.toNat code) (hrun : (Action.arith arith).Runnable m.ram) :
    Leaves m.pc.toNat (m.pc.toNat + instructionCount code) m
      (Done labels m (.arith arith) (m.pc.toNat + instructionCount code)) := by
  cases h with
  | binary h =>
    obtain ⟨hreads, hu, heval⟩ :=
      binary_eval h (m.ram.get (m.ram.reg .sp - 2)) (m.ram.get (m.ram.reg .sp - 1))
    obtain ⟨⟨h₁, h₂⟩, h₃, h₄⟩ := runnable_binary hrun hu
    obtain ⟨a, d, hexec⟩ := exec_binary labels hreads (s := m.store) h₁ h₂ h₃ h₄
    refine (leaves_of_exec hcode (hcode.fits hsize) hexec).imp fun m' hm' => ⟨hm'.1.trans ?_, hm'.2⟩
    simp [Action.result, Arith.result, hu, heval, store]
  | unary h =>
    obtain ⟨hreads, hu, heval⟩ :=
      unary_eval h m.d (m.ram.get (m.ram.reg .sp - 2)) (m.ram.get (m.ram.reg .sp - 1))
    have hcell := hrun.1 (m.ram.reg .sp - 1) (by simp [Action.stackCells, hu])
    obtain ⟨a, d, hexec⟩ := exec_unary labels hreads (s := m.store) hcell.1
    refine (leaves_of_exec hcode (hcode.fits hsize) hexec).imp fun m' hm' => ⟨hm'.1.trans ?_, hm'.2⟩
    simp [Action.result, Arith.result, hu, heval, store]
  | comparison h id =>
    have hu := comparison_isUnary h
    obtain ⟨⟨h₁, h₂⟩, h₃, h₄⟩ := runnable_binary hrun hu
    refine (leaves_comparison hcode (hcode.fits hsize) hbinds h₁ h₂ h₃ h₄).imp fun m' hm' =>
      ⟨hm'.1.trans ?_, hm'.2⟩
    simp [Action.result, Arith.result, hu, truth_taken h]

theorem leaves_ifGoto {name : String} (hcode : HoldsAt labels m.rom m.pc.toNat (ifGoto name))
    (hsize : m.rom.size < 65536) (hrun : (Action.ifGoto name).Runnable m.ram) :
    Leaves m.pc.toNat (m.pc.toNat + instructionCount (ifGoto name)) m
      (Done labels m (.ifGoto name) (m.pc.toNat + instructionCount (ifGoto name))) := by
  obtain ⟨hin, hne, -⟩ := hrun.1 _ (List.mem_singleton_self _)
  have hexec : exec labels (popToD ++ [.symbol name]) m.store =
      some ⟨m.ram.setReg .sp (m.ram.reg .sp - 1), labels name, m.ram.get (m.ram.reg .sp - 1)⟩ := by
    have hpop := exec_popToD labels m.store
    rw [show m.store.ram = m.ram from rfl, if_pos hin, Ram.get_setReg_of_ne hin hne] at hpop
    rw [exec_append, hpop, Option.bind_some, exec_symbol, exec_nil]
  have hsplit : HoldsAt labels m.rom m.pc.toNat (popToD ++ [.symbol name] ++ [.branch .d .jne]) :=
    hcode
  obtain ⟨m', hruns, hstore, hpc, hinside⟩ := runs_branch hsplit
    (hsplit.left.le_size.trans_lt hsize) rfl hexec
  refine ⟨_, m', hruns, hinside, fun _ => Nat.succ_pos _, congrArg Store.ram hstore, ?_⟩
  change m'.pc = if Jump.jne.taken (m.ram.get (m.ram.reg .sp - 1)) then labels name else
    UInt16.ofNat (m.pc.toNat + instructionCount (ifGoto name)) at hpc
  rw [hpc, Action.next]
  by_cases hzero : m.ram.get (m.ram.reg .sp - 1) = 0
  · have htaken : Jump.jne.taken (m.ram.get (m.ram.reg .sp - 1)) = false := by
      simp [Jump.taken, signed_eq_zero_iff, hzero]
    rw [htaken, if_pos hzero]
    rfl
  · have htaken : Jump.jne.taken (m.ram.get (m.ram.reg .sp - 1)) = true := by
      simp [Jump.taken, signed_eq_zero_iff, hzero]
    rw [htaken, if_neg hzero]
    rfl

theorem leaves_function {name : String} {locals : Word}
    (hcode : HoldsAt labels m.rom m.pc.toNat (function name locals)) (hsize : m.rom.size < 65536)
    (hrun : (Action.function name locals).Runnable m.ram) :
    Leaves m.pc.toNat (m.pc.toNat + instructionCount (function name locals)) m
      (Done labels m (.function name locals)
        (m.pc.toNat + instructionCount (function name locals))) := by
  obtain ⟨a, d, hexec⟩ := exec_function labels name locals m.store
  rw [if_pos] at hexec
  · exact leaves_of_exec hcode (hcode.fits hsize) hexec
  · rw [List.all_eq_true]
    intro i hi
    exact (hrun.1 _ (List.mem_map_of_mem hi)).1

theorem leaves_call {callee returnLabel : String} {args : Word}
    (hcode : HoldsAt labels m.rom m.pc.toNat (call callee args returnLabel))
    (hsize : m.rom.size < 65536)
    (hbinds : Binds labels m.pc.toNat (call callee args returnLabel))
    (hrun : (Action.call callee args).Runnable m.ram) :
    Leaves m.pc.toNat (m.pc.toNat + instructionCount (call callee args returnLabel)) m
      (Done labels m (.call callee args)
        (m.pc.toNat + instructionCount (call callee args returnLabel))) := by
  rw [call_eq] at hcode hbinds ⊢
  have hback := hbinds (callSetup callee args returnLabel ++ [.jump]) returnLabel [] (by simp)
  rw [instructionCount_append, ← Nat.add_assoc] at hback
  have hexec : ∃ d, exec labels (callSetup callee args returnLabel) m.store =
      some ⟨m.ram.called args (labels returnLabel), labels callee, d⟩ :=
    exec_callSetup labels fun i hi => (hrun.1 _ (List.mem_map_of_mem (List.mem_range.2 hi))).2.2 rfl
  obtain ⟨d, hexec⟩ := hexec
  rw [List.append_cons] at hcode
  refine (leaves_of_jump hcode.left hsize hexec).imp fun m' hm' => ⟨?_, hm'.2⟩
  rw [hm'.1, hback]
  rfl

/-- The bootstrap leaves `called 0` of memory with `SP = 256`, at the entry function. -/
theorem leaves_bootstrap {entry returnLabel : String}
    (hcode : HoldsAt labels m.rom m.pc.toNat (bootstrap entry returnLabel))
    (hsize : m.rom.size < 65536)
    (hbinds : Binds labels m.pc.toNat (bootstrap entry returnLabel)) :
    Leaves m.pc.toNat (m.pc.toNat + instructionCount (bootstrap entry returnLabel)) m fun m' =>
      m'.ram = (m.ram.setReg .sp Segment.stackBase).called 0
        (UInt16.ofNat (m.pc.toNat + instructionCount (bootstrap entry returnLabel))) ∧
      m'.pc = labels entry := by
  rw [bootstrap_eq] at hcode hbinds ⊢
  have hback := hbinds (bootSetup entry returnLabel ++ [.jump]) returnLabel [] (by simp)
  rw [instructionCount_append, ← Nat.add_assoc] at hback
  obtain ⟨d, hexec⟩ := exec_bootSetup labels entry returnLabel m.store
  rw [List.append_cons] at hcode
  refine (leaves_of_jump hcode.left hsize hexec).imp fun m' hm' => ⟨?_, hm'.2⟩
  rw [hm'.1, hback]
  rfl

theorem leaves_ret (hcode : HoldsAt labels m.rom m.pc.toNat ret) (hsize : m.rom.size < 65536)
    (hrun : Action.ret.Runnable m.ram) :
    Leaves m.pc.toNat (m.pc.toNat + instructionCount ret) m
      (Done labels m .ret (m.pc.toNat + instructionCount ret)) := by
  have hcells := fun cell hcell => (hrun.1 cell hcell).2.2 rfl
  rw [ret_eq] at hcode ⊢
  obtain ⟨d, hexec⟩ := exec_retSetup labels (s := m.store)
    (hcells _ (by simp [Action.stackCells, store])) (hcells _ (by simp [Action.stackCells, store]))
    fun i hi => hcells _ (List.mem_append_right _ (List.mem_map_of_mem hi))
  exact leaves_of_jump hcode hsize hexec

theorem leaves_push {source : Operand} (h : source.Regular)
    (hcode : HoldsAt labels m.rom m.pc.toNat (push source)) (hsize : m.rom.size < 65536)
    (hrun : (Action.push source).Runnable m.ram) :
    Leaves m.pc.toNat (m.pc.toNat + instructionCount (push source)) m
      (Done labels m (.push source) (m.pc.toNat + instructionCount (push source))) := by
  obtain ⟨hin, hne, -⟩ := hrun.1 _ (List.mem_singleton_self _)
  obtain ⟨a, d, hexec⟩ := exec_push labels (s := m.store) h
    (fun cell hcell => hrun.2 cell (Option.mem_toList.2 hcell)) hin hne
  exact leaves_of_exec hcode (hcode.fits hsize) hexec

theorem leaves_pop {target : Resolved} {code : List Inst} (h : target.operand.Regular)
    (hpop : pop target = .ok code) (hcode : HoldsAt labels m.rom m.pc.toNat code)
    (hsize : m.rom.size < 65536) (hrun : (Action.pop target.operand).Runnable m.ram) :
    Leaves m.pc.toNat (m.pc.toNat + instructionCount code) m
      (Done labels m (.pop target.operand) (m.pc.toNat + instructionCount code)) := by
  obtain ⟨hin, hne, -⟩ := hrun.1 _ (List.mem_singleton_self _)
  obtain ⟨cell, hcell⟩ := popped_isSome hpop h m.ram
  obtain ⟨a, d, hexec⟩ := exec_pop labels (s := m.store) hpop h hcell
    (hrun.2 cell (Option.mem_toList.2 hcell)) hin hne
  refine (leaves_of_exec hcode (hcode.fits hsize) hexec).imp fun m' hm' => ⟨hm'.1.trans ?_, hm'.2⟩
  rw [Action.result, hcell]
  rfl

end Machine

open Machine

variable {labels : String → Word} {m : Machine} {action : Action} {code : List Inst}

/-- **Blocks.** Emitted code of a `Runnable` action leaves its block in a state that is `Done`. -/
theorem Emits.leaves (h : Emits action code) (hcode : HoldsAt labels m.rom m.pc.toNat code)
    (hsize : m.rom.size < 65536) (hbinds : Binds labels m.pc.toNat code)
    (hrun : action.Runnable m.ram) :
    Leaves m.pc.toNat (m.pc.toNat + instructionCount code) m
      (Done labels m action (m.pc.toNat + instructionCount code)) := by
  cases h with
  | binary h => exact leaves_arith (.binary h) hcode hsize hbinds hrun
  | unary h => exact leaves_arith (.unary h) hcode hsize hbinds hrun
  | comparison h id => exact leaves_arith (.comparison h id) hcode hsize hbinds hrun
  | push h => exact leaves_push h hcode hsize hrun
  | pop h hpop => exact leaves_pop h hpop hcode hsize hrun
  | label name => exact leaves_of_exec hcode (hcode.fits hsize) (exec_label [] m.store name)
  | goto name =>
    exact leaves_of_jump (show HoldsAt _ _ _ ([.symbol name] ++ [.jump]) from hcode) hsize
      (exec_symbol [] m.store name)
  | ifGoto name => exact leaves_ifGoto hcode hsize hrun
  | function name locals => exact leaves_function hcode hsize hrun
  | call callee args returnLabel => exact leaves_call hcode hsize hbinds hrun
  | ret => exact leaves_ret hcode hsize hrun

/-! ## Code that fails -/

theorem straight_targetToA (base : Register) (index : Word) : Straight (targetToA base index) := by
  unfold targetToA
  split_ifs <;> simp [Straight, Inst.isBranch, Inst.reg, Inst.const]

theorem straight_targetToD (base : Register) (index : Word) : Straight (targetToD base index) := by
  unfold targetToD
  split_ifs <;> simp [Straight, Inst.isBranch, Inst.reg, Inst.const]

theorem straight_push (source : Operand) : Straight (push source) := by
  refine straight_append.2 ⟨?_, by decide⟩
  cases source with
  | immediate value =>
    simp only [operandToD, constToD]
    split_ifs <;> simp [Straight, Inst.isBranch, Inst.const]
  | pointer base index =>
    exact straight_append.2 ⟨straight_targetToA base index, by decide⟩
  | direct address => simp [operandToD, Straight, Inst.isBranch]

theorem straight_pop {target : Resolved} (h : pop target = .ok code) : Straight code := by
  obtain ⟨segment, operand⟩ := target
  cases operand with
  | immediate value => cases h
  | direct address =>
    cases h
    exact straight_append.2 ⟨by decide, by simp [Straight, Inst.isBranch]⟩
  | pointer base index =>
    simp only [pop] at h
    split_ifs at h
    · cases h
      exact straight_append.2
        ⟨straight_append.2 ⟨by decide, straight_targetToA base index⟩, by decide⟩
    · cases h
      exact straight_append.2 ⟨straight_targetToD base index, by decide⟩

theorem straight_function (name : String) (locals : Word) : Straight (function name locals) := by
  unfold function
  split_ifs
  · simp [Straight, Inst.isBranch]
  · refine straight_append.2 ⟨straight_append.2 ⟨?_, ?_⟩, by decide⟩
    · simp [Straight, Inst.isBranch, Inst.reg]
    · intro inst hmem
      obtain ⟨pair, hpair, hinst⟩ := List.mem_flatten.1 hmem
      rw [List.eq_of_mem_replicate hpair] at hinst
      clear hmem
      revert inst
      decide

theorem straight_callSetup (callee : String) (args : Word) (returnLabel : String) :
    Straight (callSetup callee args returnLabel) := by
  refine straight_append.2 ⟨straight_append.2 ⟨straight_append.2 ⟨?_, by decide⟩, by decide⟩, ?_⟩
  · simp [Straight, Inst.isBranch, Inst.symbol]
  · simp [Straight, Inst.isBranch, Inst.symbol, Inst.reg, Inst.const]

/-- The stack cells of the action are `OnStack`; for actions that push, only the first of them. -/
def Action.Rooted (ram : Ram) : Action → Prop
  | .push _ | .call _ _ | .function _ _ => Ram.OnStack (ram.reg .sp)
  | action => ∀ cell ∈ action.stackCells ram, Ram.OnStack cell

/-- A call is `Safe` if its five words fit. -/
theorem Action.safe_call {ram : Ram} {callee : String} {args : Word}
    (h : Ram.OnStack (ram.reg .sp)) (hfits : (ram.reg .sp).toNat + 5 ≤ ramSize) :
    (Action.call callee args).Safe ram := by
  refine ⟨fun cell hcell => ?_, fun cell hcell => absurd hcell List.not_mem_nil⟩
  obtain ⟨i, hi, rfl⟩ := List.mem_map.1 hcell
  have := List.mem_range.1 hi
  exact h.add (by omega)

theorem Fails.widen {lo hi hi' : Nat} (h : Fails lo hi m) (hhi : hi ≤ hi') : Fails lo hi' m := by
  obtain ⟨n, hin, hruns⟩ := h
  exact ⟨n, hin.widen le_rfl hhi, hruns⟩

/-- Emitted code of a `Rooted` action is `Safe`, or its block `Fails`. -/
theorem Emits.safe_or_fails (h : Emits action code) (hcode : HoldsAt labels m.rom m.pc.toNat code)
    (hsize : m.rom.size < 65536) (hroot : action.Rooted m.ram) :
    action.Safe m.ram ∨ Fails m.pc.toNat (m.pc.toNat + instructionCount code) m := by
  cases h with
  | binary h | unary h | comparison h id | label name | goto name | ifGoto name | ret =>
    exact .inl ⟨hroot, fun cell hcell => absurd hcell List.not_mem_nil⟩
  | @push source h =>
    by_cases hdata : ∀ cell ∈ (Action.push source).dataCells m.ram, Ram.inRange cell = true
    · refine .inl ⟨fun cell hcell => ?_, hdata⟩
      rw [List.mem_singleton.1 hcell]
      exact hroot
    · push Not at hdata
      obtain ⟨cell, hmem, hout⟩ := hdata
      have hcell : source.cell? m.ram = some cell := Option.mem_toList.1 hmem
      have hnone : exec labels (Compile.push source) m.store = none := by
        rw [Compile.push, exec_append,
          exec_operandToD_eq_none labels (s := m.store) hcell (Bool.eq_false_iff.2 hout)]
        rfl
      exact .inr (fails_of_exec hcode hsize (straight_push source) hnone)
  | @pop target code h hpop =>
    by_cases hdata : ∀ cell ∈ (Action.pop target.operand).dataCells m.ram, Ram.inRange cell = true
    · exact .inl ⟨hroot, hdata⟩
    · push Not at hdata
      obtain ⟨cell, hmem, hout⟩ := hdata
      have hcell : target.operand.cell? m.ram = some cell := Option.mem_toList.1 hmem
      have hnone : exec labels code m.store = none :=
        exec_pop_eq_none labels hpop h hcell (Bool.eq_false_iff.2 hout)
          (hroot _ (List.mem_singleton_self _)).inRange
      exact .inr (fails_of_exec hcode hsize (straight_pop hpop) hnone)
  | function name locals =>
    obtain ⟨a, d, hexec⟩ := exec_function labels name locals m.store
    by_cases hall : ((List.range locals.toNat).all fun i =>
        Ram.inRange (m.ram.reg .sp + UInt16.ofNat i)) = true
    · have hfits := hroot.add_le fun i hi =>
        List.all_eq_true.1 hall i (List.mem_range.2 hi)
      refine .inl ⟨fun cell hcell => ?_, fun cell hcell => absurd hcell List.not_mem_nil⟩
      obtain ⟨i, hi, rfl⟩ := List.mem_map.1 hcell
      have := List.mem_range.1 hi
      exact hroot.add (by omega)
    · rw [show m.store.ram = m.ram from rfl, if_neg hall] at hexec
      exact .inr (fails_of_exec hcode hsize (straight_function name locals) hexec)
  | call callee args returnLabel =>
    by_cases hfits : (m.ram.reg .sp).toNat + 5 ≤ ramSize
    · exact .inl (Action.safe_call hroot hfits)
    · rw [call_eq] at hcode ⊢
      have hnone : exec labels (callSetup callee args returnLabel) m.store = none :=
        exec_callSetup_eq_none labels hroot (Nat.lt_of_not_le hfits)
      refine .inr (Fails.widen (fails_of_exec hcode.left hsize
        (straight_callSetup callee args returnLabel) hnone) ?_)
      rw [instructionCount_append]
      omega

end HackVM
