/-
  Fused and unfused programs agree. Run from the same memory, the two machines meet at every step of
  the fused layout (`Job.Together`), and there they `Ram.Agree` on `SP` and on all cells outside
  `[SP, bound)` (`fused_agrees`).
-/
import Mathlib
import HackVM.Proofs.Pairs
import HackVM.Proofs.Simulation

namespace HackVM

open Assembly Compile Rom Machine

/-! ## Agreement -/

namespace Ram

/-- The same `SP`, and the same cells outside `[SP, bound)`. -/
structure Agree (bound : Nat) (ram ram' : Ram) : Prop where
  sp : ram'.reg .sp = ram.reg .sp
  get : ∀ a : Word, inRange a = true → a.toNat < (ram.reg .sp).toNat ∨ bound ≤ a.toNat →
    ram'.get a = ram.get a

namespace Agree

variable {bound : Nat} {ram ram' : Ram}

theorem refl (bound : Nat) (ram : Ram) : Agree bound ram ram := ⟨rfl, fun _ _ _ => rfl⟩

theorem symm (h : Agree bound ram ram') : Agree bound ram' ram :=
  ⟨h.sp.symm, fun a hin hout => (h.get a hin (by rwa [h.sp] at hout)).symm⟩

theorem reg (h : Agree bound ram ram') (hlow : 16 ≤ (ram.reg .sp).toNat) (r : Register) :
    ram'.reg r = ram.reg r := by
  have := toNat_address_lt r
  exact h.get _ (inRange_address r) (.inl (by omega))

/-- `Agree` under a store in the same cell. -/
theorem set (h : Agree bound ram ram') {a v : Word} (hin : inRange a = true)
    (hne : a ≠ Register.sp.address) : Agree bound (ram.set a v) (ram'.set a v) := by
  refine ⟨by rw [reg_set_of_ne hin hne, reg_set_of_ne hin hne, h.sp], fun b hb hout => ?_⟩
  rw [reg_set_of_ne hin hne] at hout
  by_cases hab : a = b
  · rw [hab, get_set_self, get_set_self]
  · rw [get_set_of_ne hin hb hab, get_set_of_ne hin hb hab, h.get b hb hout]

/-- `Agree` under a decrease of `SP`. -/
theorem setSP (h : Agree bound ram ram') {v : Word} (hle : v.toNat ≤ (ram.reg .sp).toNat) :
    Agree bound (ram.setReg .sp v) (ram'.setReg .sp v) := by
  refine ⟨by rw [reg_setReg_self, reg_setReg_self], fun b hb hout => ?_⟩
  rw [reg_setReg_self] at hout
  rw [get_setReg hb, get_setReg hb, h.get b hb (by omega)]

theorem pushed (h : Agree bound ram ram') (hsp : OnStack (ram.reg .sp)) (v : Word) :
    Agree bound (ram.pushed v) (ram'.pushed v) := by
  refine ⟨by rw [pushed_sp, pushed_sp, h.sp], fun b hb hout => ?_⟩
  rw [pushed_sp, hsp.toNat_succ] at hout
  rw [Ram.pushed, Ram.pushed, h.sp, get_setReg hb, get_setReg hb]
  by_cases heq : ram.reg .sp = b
  · rw [heq, get_set_self, get_set_self]
  · have hne : b.toNat ≠ (ram.reg .sp).toNat := fun hnat => heq (UInt16.toNat_inj.1 hnat).symm
    rw [get_set_of_ne hsp.inRange hb heq, get_set_of_ne hsp.inRange hb heq, h.get b hb (by omega)]

/-- `Agree` under a store at `SP` on one side. -/
theorem set_top (h : Agree bound ram ram') (hsp : OnStack (ram.reg .sp))
    (hbound : (ram.reg .sp).toNat < bound) (v : Word) :
    Agree bound (ram.set (ram.reg .sp) v) ram' := by
  have hreg : (ram.set (ram.reg .sp) v).reg .sp = ram.reg .sp :=
    reg_set_of_ne hsp.inRange hsp.ne_sp
  refine ⟨by rw [hreg, h.sp], fun b hb hout => ?_⟩
  rw [hreg] at hout
  have hne : ram.reg .sp ≠ b := by
    rintro rfl
    omega
  rw [get_set_of_ne hsp.inRange hb hne, h.get b hb hout]

/-- The cells below `SP` are equal. -/
theorem get_top (h : Agree bound ram ram') {w : Word} (hpos : 0 < w.toNat)
    (hle : w.toNat ≤ (ram.reg .sp).toNat) (hin : inRange (ram.reg .sp - w) = true) :
    ram'.get (ram'.reg .sp - w) = ram.get (ram.reg .sp - w) := by
  have hsub := UInt16.toNat_sub_of_le (ram.reg .sp) w (UInt16.le_iff_toNat_le.2 hle)
  rw [h.sp, h.get _ hin (.inl (by omega))]

end Agree

end Ram

/-! ## Commands without calls -/

/-- Functions, calls and returns. -/
def Opcode.handlesCalls : Opcode → Bool
  | .function _ _ | .call _ _ | .ret => true
  | .arithmetic _ | .push _ _ | .pop _ _ | .label _ | .goto _ | .ifGoto _ => false

namespace Action

/-- Functions, calls and returns. -/
def handlesCalls : Action → Bool
  | .function _ _ | .call _ _ | .ret => true
  | .arith _ | .push _ | .pop _ | .label _ | .goto _ | .ifGoto _ => false

theorem handlesCalls_of {s : State} {opcode : Opcode} {action : Action}
    (h : Action.of s opcode = .ok action) : action.handlesCalls = opcode.handlesCalls := by
  cases opcode with
  | arithmetic word =>
    obtain ⟨arith, -, rfl⟩ := map_eq_ok_iff.1 h
    rfl
  | push segment index =>
    obtain ⟨source, -, rfl⟩ := map_eq_ok_iff.1 h
    rfl
  | pop segment index =>
    obtain ⟨target, -, rfl⟩ := map_eq_ok_iff.1 h
    rfl
  | _ =>
    cases h
    rfl

/-- `16 ≤ SP < bound`, a push reads a cell outside `[SP, bound)`, and a pop does not write `SP`. -/
def Clear (ram : Ram) (bound : Nat) (action : Action) : Prop :=
  16 ≤ (ram.reg .sp).toNat ∧ (ram.reg .sp).toNat < bound ∧
    match action with
    | .push source => ∀ cell ∈ source.cell? ram, Ram.inRange cell = true ∧
        (cell.toNat < (ram.reg .sp).toNat ∨ bound ≤ cell.toNat)
    | .pop target => ∀ cell ∈ target.cell? ram, Ram.inRange cell = true ∧ 0 < cell.toNat
    | _ => True

variable {action : Action} {ram ram' : Ram} {bound : Nat}

theorem Clear.onStack (h : action.Clear ram bound) (hsize : bound ≤ ramSize) :
    Ram.OnStack (ram.reg .sp) := by
  obtain ⟨hlow, hhigh, -⟩ := h
  exact ⟨by omega, by omega⟩

/-- The two cells below `SP` are in range and are not `SP`. -/
theorem Clear.top (h : action.Clear ram bound) (hsize : bound ≤ ramSize) {w : Word}
    (hw : w.toNat ≤ 2) : Ram.inRange (ram.reg .sp - w) = true ∧
      ram.reg .sp - w ≠ Register.sp.address := by
  obtain ⟨hlow, hhigh, -⟩ := h
  have hsub := UInt16.toNat_sub_of_le (ram.reg .sp) w (UInt16.le_iff_toNat_le.2 (by omega))
  refine ⟨Ram.inRange_iff.2 (by omega), fun heq => ?_⟩
  rw [heq, show Register.sp.address.toNat = 0 from rfl] at hsub
  omega

theorem Clear.runnable (h : action.Clear ram bound) (hsize : bound ≤ ramSize)
    (hcalls : action.handlesCalls = false) : action.Runnable ram := by
  have hone := h.top hsize (w := 1) (by decide)
  have htwo := h.top hsize (w := 2) (by decide)
  have hsp := h.onStack hsize
  have hlink : action.isLinkage = false := by
    cases action with
    | call callee args | ret => cases hcalls
    | _ => rfl
  have hstack : ∀ cell ∈ action.stackCells ram,
      Ram.inRange cell = true ∧ cell ≠ Register.sp.address := by
    intro cell hcell
    cases action with
    | arith operation =>
      simp only [stackCells] at hcell
      split_ifs at hcell
      · rwa [List.mem_singleton.1 hcell]
      · simp only [List.mem_cons, List.not_mem_nil, or_false] at hcell
        rcases hcell with rfl | rfl
        · exact hone
        · exact htwo
    | push source =>
      rw [List.mem_singleton.1 hcell]
      exact ⟨hsp.inRange, hsp.ne_sp⟩
    | pop target | ifGoto name => rwa [List.mem_singleton.1 hcell]
    | label name | goto name => cases hcell
    | function name locals | call callee args | ret => cases hcalls
  refine ⟨fun cell hcell => ⟨(hstack cell hcell).1, (hstack cell hcell).2, fun htrue => ?_⟩,
    fun cell hcell => ?_⟩
  · rw [hlink] at htrue
    cases htrue
  · cases action with
    | push source => exact (h.2.2 cell (Option.mem_toList.1 hcell)).1
    | pop target => exact (h.2.2 cell (Option.mem_toList.1 hcell)).1
    | _ => cases hcell

end Action

/-! ## Agreement over a command -/

theorem Operand.cell?_of_agree {bound : Nat} {ram ram' : Ram} (h : ram.Agree bound ram')
    (hlow : 16 ≤ (ram.reg .sp).toNat) (operand : Operand) :
    operand.cell? ram' = operand.cell? ram := by
  cases operand with
  | pointer base index => rw [cell?, cell?, h.reg hlow]
  | immediate value => rfl
  | direct address => cases address <;> rfl

theorem Operand.value_of_agree {bound : Nat} {ram ram' : Ram} (h : ram.Agree bound ram')
    (hlow : 16 ≤ (ram.reg .sp).toNat) {operand : Operand}
    (hcell : ∀ cell ∈ operand.cell? ram, Ram.inRange cell = true ∧
      (cell.toNat < (ram.reg .sp).toNat ∨ bound ≤ cell.toNat)) :
    operand.value ram' = operand.value ram := by
  cases operand with
  | immediate value => rfl
  | pointer base index =>
    obtain ⟨hin, hout⟩ := hcell _ rfl
    rw [value, value, h.reg hlow, h.get _ hin hout]
  | direct address =>
    cases address with
    | const address =>
      obtain ⟨hin, hout⟩ := hcell _ rfl
      exact h.get _ hin hout
    | reg register => exact h.reg hlow register
    | symbol name => rfl

namespace Action

variable {action : Action} {ram ram' : Ram} {bound : Nat}

theorem Clear.of_agree (hc : action.Clear ram bound) (h : ram.Agree bound ram') :
    action.Clear ram' bound := by
  obtain ⟨hlow, hhigh, hcells⟩ := hc
  refine ⟨by rwa [h.sp], by rwa [h.sp], ?_⟩
  cases action with
  | push source =>
    simp only [h.sp, source.cell?_of_agree h hlow]
    exact hcells
  | pop target =>
    simp only [target.cell?_of_agree h hlow]
    exact hcells
  | _ => trivial

theorem Clear.next_eq (hc : action.Clear ram bound) (hsize : bound ≤ ramSize)
    (h : ram.Agree bound ram') (hcalls : action.handlesCalls = false) :
    action.next ram' = action.next ram := by
  cases action with
  | ifGoto name =>
    rw [next, next, h.get_top (w := 1) (by decide) (hc.1.trans' (by decide))
      (hc.top hsize (by decide)).1]
  | function name locals | call callee args | ret => cases hcalls
  | _ => rfl

/-- An action that is `Clear` preserves `Agree`. -/
theorem Clear.agree_result (hc : action.Clear ram bound) (hsize : bound ≤ ramSize)
    (h : ram.Agree bound ram') {code : List Inst} (hemits : Emits action code)
    (hcalls : action.handlesCalls = false) (behind behind' : Word) :
    (action.result ram behind).Agree bound (action.result ram' behind') := by
  have hone := hc.top hsize (w := 1) (by decide)
  have htwo := hc.top hsize (w := 2) (by decide)
  have htop := h.get_top (w := 1) (by decide) (hc.1.trans' (by decide)) hone.1
  have hnext := h.get_top (w := 2) (by decide) (hc.1.trans' (by decide)) htwo.1
  have hdown : (ram.reg .sp - 1).toNat ≤ (ram.reg .sp).toNat := by
    rw [UInt16.toNat_sub_of_le _ _ (UInt16.le_iff_toNat_le.2 (hc.1.trans' (by decide)))]
    exact Nat.sub_le _ _
  cases action with
  | arith operation =>
    rw [result, result, Arith.result, Arith.result, htop, hnext, h.sp]
    split_ifs
    · exact h.set hone.1 hone.2
    · exact (h.setSP hdown).set htwo.1 htwo.2
  | push source =>
    rw [result, result, source.value_of_agree h hc.1 hc.2.2]
    exact h.pushed (hc.onStack hsize) _
  | pop target =>
    obtain ⟨cell, hcell⟩ : ∃ cell, target.cell? ram = some cell := by
      cases hemits with
      | pop hregular hpop => exact popped_isSome hpop hregular ram
    obtain ⟨hin, hpos⟩ := hc.2.2 cell hcell
    have hne : cell ≠ Register.sp.address := by
      rintro rfl
      cases hpos
    rw [result, result, Ram.popped, Ram.popped, htop, h.sp, target.cell?_of_agree h hc.1, hcell]
    exact (h.setSP hdown).set hin hne
  | label name | goto name => exact h
  | ifGoto name =>
    rw [result, result, h.sp]
    exact h.setSP hdown
  | function name locals | call callee args | ret => cases hcalls

end Action

/-! ## Agreement over a pair -/

namespace Ram

variable {ram ram' : Ram}

/-- A push followed by a pop stores the value at `SP` and in `cell`. -/
theorem popped_pushed (hsp : inRange (ram.reg .sp) = true)
    (hne : ram.reg .sp ≠ Register.sp.address) (v cell : Word) :
    (ram.pushed v).popped cell = (ram.set (ram.reg .sp) v).set cell v := by
  have hreg : (ram.set (ram.reg .sp) v).reg .sp = ram.reg .sp := reg_set_of_ne hsp hne
  have htop : (ram.pushed v).get (ram.reg .sp) = v := by
    rw [pushed, get_setReg_of_ne hsp hne, get_set_self]
  have hback := setReg_reg_self (ram.set (ram.reg .sp) v) .sp
  rw [hreg] at hback
  rw [popped, pushed_sp, add_sub_cancel_right, htop, pushed, setReg_setReg, hback]

/-- A push and a pop on one side, one store in `cell` on the other, with or without the store at
`SP`. -/
theorem Agree.move {bound : Nat} (h : Agree bound ram ram') (hsp : OnStack (ram.reg .sp))
    (hbound : (ram.reg .sp).toNat < bound) {cell v : Word} (hin : inRange cell = true)
    (hne : cell ≠ Register.sp.address) {left : Ram}
    (hleft : left = ram' ∨ left = ram'.set (ram'.reg .sp) v) :
    Agree bound ((ram.pushed v).popped cell) (left.set cell v) := by
  have htop := h.set_top hsp hbound v
  rw [popped_pushed hsp.inRange hsp.ne_sp]
  refine set ?_ hin hne
  rcases hleft with rfl | rfl
  · exact htop
  · exact (htop.symm.set_top (by rwa [h.sp]) (by rwa [h.sp]) v).symm

end Ram

theorem Emits.instructionCount_push {source : Operand} {code : List Inst}
    (h : Emits (.push source) code) : 0 < instructionCount code := by
  cases h with
  | push h =>
    rw [Compile.push, instructionCount_append]
    exact Nat.lt_add_left _ (by decide)

theorem Emits.instructionCount_pop {target : Operand} {code : List Inst}
    (h : Emits (.pop target) code) : 0 < instructionCount code := by
  generalize haction : Action.pop target = action at h
  cases h with
  | pop h hcode =>
    unfold Compile.pop at hcode
    split at hcode
    · cases hcode
    · cases hcode
      exact Nat.succ_pos _
    · split_ifs at hcode
      · cases hcode
        rw [instructionCount_append]
        exact Nat.succ_pos _
      · cases hcode
        rw [instructionCount_append]
        exact Nat.lt_add_left _ (by decide)
  | _ => cases haction

theorem Operand.cell?_pushed {operand : Operand} (h : operand.Regular) {ram : Ram}
    (hsp : Ram.inRange (ram.reg .sp) = true) (hlow : 5 ≤ (ram.reg .sp).toNat) (v : Word) :
    operand.cell? (ram.pushed v) = operand.cell? ram := by
  cases operand with
  | pointer base index =>
    rw [cell?, cell?, Ram.pushed, Ram.reg_setReg_of_ne h.ne_sp.symm,
      Ram.reg_set_of_lt hsp (h.address_lt.trans_le hlow)]
  | immediate value => rfl
  | direct address => cases address <;> rfl

/-- The block of `move` leaves memory with the source's value in `cell`, and perhaps at `SP`. -/
theorem Machine.leaves_move {labels : String → Word} {m : Machine} {source : Operand}
    {target : Resolved} {code : List Inst} {cell : Word} {bound : Nat}
    (hmove : Compile.move source target = .ok code) (hsource : source.Regular)
    (htarget : target.operand.Regular) (hholds : HoldsAt labels m.rom m.pc.toNat code)
    (hrom : m.rom.size < 65536) (hc : (Action.push source).Clear m.ram bound)
    (hsize : bound ≤ ramSize) (hcell : target.operand.cell? m.ram = some cell)
    (hin : Ram.inRange cell = true) :
    Leaves m.pc.toNat (m.pc.toNat + instructionCount code) m fun m' =>
      m'.pc = UInt16.ofNat (m.pc.toNat + instructionCount code) ∧
        ∃ left, (left = m.ram ∨ left = m.ram.set (m.ram.reg .sp) (source.value m.ram)) ∧
          m'.ram = left.set cell (source.value m.ram) := by
  have hsp := hc.onStack hsize
  obtain ⟨left, a, d, hexec, hleft⟩ := exec_move labels (s := m.store) hmove hsource
    (fun cell hcell => (hc.2.2 cell hcell).1) htarget hcell hin hsp.inRange
    (Nat.le_trans (by decide) hsp.1)
  exact (leaves_of_exec hholds (hholds.fits hrom) hexec).imp fun m' hm' =>
    ⟨hm'.2, left, hleft, hm'.1⟩

/-! ## Steps side by side -/

namespace Compile

/-- A job without calls is `Titled`. -/
theorem Job.titled_of_handlesCalls {job : Job}
    (h : ∀ command ∈ job.commands, command.opcode.handlesCalls = false) : job.Titled := by
  rintro entry hentry ⟨command, hitem, hcall⟩
  have hmem : command ∈ job.commands :=
    List.mem_flatMap.2 ⟨entry, hentry, List.mem_filterMap.2 ⟨_, hitem, rfl⟩⟩
  have hnone := h command hmem
  cases hop : command.opcode with
  | call callee args =>
    rw [hop] at hnone
    cases hnone
  | _ =>
    rw [hop] at hcall
    cases hcall

/-- A fused step is a push and a pop, and the ROM holds their `move` at its address. -/
theorem Linkable.exists_move {job : Job} {program : Program} (h : Linkable job program)
    (ht : job.Titled) {j : Nat} (hj : j < job.layout.length) {first second : Command}
    (hstep : job.layout[j].step = .fused first second) :
    ∃ (source : Operand) (target : Resolved) (code : List Inst),
      Action.of job.layout[j].state first.opcode = .ok (.push source) ∧
      (∀ options, Action.of (compileCommand options job.layout[j].state first).2 second.opcode =
        .ok (.pop target.operand)) ∧
      source.Regular ∧ target.operand.Regular ∧ move source target = .ok code ∧
      job.start (j + 1) = job.start j + instructionCount code ∧
      HoldsAt (labelsOf program.symbols) program.ops (job.start j) code := by
  have hmem := List.getElem_mem hj
  have hclean := Job.clean_of_mem h.clean hmem
  obtain ⟨entry, -, hof, -⟩ := of_mem_placeModules hmem
  rw [hstep] at hof
  obtain ⟨-, hfirst, hsecond⟩ := Step.of_fused_mem_ofItems hof
  rw [Placed.emission, hstep] at hclean
  obtain ⟨code, hlowers, hcode⟩ := lowersMove_of_clean hfirst hsecond hclean
  have hplaced : job.layout[j].code job.options =
      comments job.options [first.sourceText, second.sourceText] ++ code := by
    rw [Placed.code, Placed.emission, hstep]
    exact hcode
  obtain ⟨hcount, hholds, -⟩ := h.holdsAt_uncommented ht hj hplaced
  generalize (compilePair job.options job.layout[j].state first second).2 = s₂ at hlowers
  generalize hone : first.opcode = one, htwo : second.opcode = two at hlowers
  cases hlowers with
  | @intro _ _ _ _ source target s₁ _ _ hsource htarget hmove =>
    have hstate : ∀ options, (compileCommand options job.layout[j].state first).2 = s₁ := by
      intro options
      have hlower : lower job.layout[j].state first.opcode =
          .ok ⟨push source.operand, s₁, source.events⟩ := by
        rw [hone, lower, hsource]
      exact compileCommand_state hlower
    refine ⟨source.operand, target, code, ?_, fun options => ?_, regular_of_resolve hsource,
      regular_of_resolve htarget, hmove, hcount, hholds⟩
    · rw [Action.of, hsource]
      rfl
    · rw [hstate, Action.of, htarget]
      rfl

namespace Job

variable {job : Job} {j : Nat} {action : Action} {name : String}

theorem ActionAt.handlesCalls (h : job.ActionAt j action)
    (hcalls : ∀ command ∈ job.commands, command.opcode.handlesCalls = false) :
    action.handlesCalls = false := by
  obtain ⟨command, hmem, s, haction⟩ := h.exists_mem
  rw [Action.handlesCalls_of haction, hcalls command hmem]

/-- A single step of the fused layout is step `position j` of the unfused one, with the same
action. -/
theorem ActionAt.unfused (h : (job.fusing true).ActionAt j action) :
    (job.fusing false).ActionAt ((job.fusing true).position j) action ∧
      (job.fusing true).position (j + 1) = (job.fusing true).position j + 1 := by
  obtain ⟨hj, command, hstep, haction⟩ := h
  obtain ⟨hget, hnext⟩ := unfused_single hj hstep
  obtain ⟨hi, hplaced⟩ := List.getElem?_eq_some_iff.1 hget
  exact ⟨⟨hi, command, by rw [hplaced, hstep], by rw [hplaced]; exact haction⟩, hnext⟩

theorem Marks.unfused (h : (job.fusing true).Marks j name) :
    (job.fusing false).Marks ((job.fusing true).position j) name := by
  obtain ⟨hj, command, hstep, hname⟩ := h
  exact marks_of_step (by rw [(unfused_single hj hstep).1, Option.map_some, hstep]) hname

/-- Every action at `pc` is `Clear`. -/
def ClearAt (job : Job) (bound : Nat) (m : Machine) : Prop :=
  ∀ i action, job.ActionAt i action → m.pc.toNat = job.start i → action.Clear m.ram bound

/-- `ClearAt` along a run, from its first block and the rest. -/
theorem ClearAt.over {bound i n n' : Nat} {m m' : Machine} (hruns : Runs n m m')
    (hin : Inside (job.start i) (job.start (i + 1)) n m) (hfirst : job.ClearAt bound m)
    (hrest : ∀ k ≤ n', ∀ m₁, Runs k m' m₁ → job.ClearAt bound m₁) :
    ∀ k ≤ n + n', ∀ m₁, Runs k m m₁ → job.ClearAt bound m₁ := by
  intro k hk m₁ hm₁
  rcases Nat.eq_zero_or_pos k with rfl | hpos
  · cases runs_zero.1 hm₁
    exact hfirst
  rcases Nat.lt_or_ge k n with hlt | hge
  · exact fun i' _ _ hpc => absurd hpc (start_ne_of_inside (hin k m₁ hpos hlt hm₁) i')
  · exact hrest (k - n) (by omega) m₁ (hruns.rest hge hm₁)

/-- `m` without and `m'` with fusing are both at step `j` of the fused layout, and their memories
`Agree`. -/
structure Together (job : Job) (plain fused : Program) (bound j : Nat) (m m' : Machine) : Prop where
  le : j ≤ (job.fusing true).layout.length
  rom : m.rom = plain.ops
  rom' : m'.rom = fused.ops
  pc : m.pc.toNat = (job.fusing false).start ((job.fusing true).position j)
  pc' : m'.pc.toNat = (job.fusing true).start j
  agree : m.ram.Agree bound m'.ram

end Job

section SideBySide

variable {job : Job} {plain fused : Program} {bound j : Nat}

/-- The push and the pop of a fused step both have code. -/
theorem start_lt_of_fused (hplain : Linkable (job.fusing false) plain)
    (ht : (job.fusing false).Titled) {i : Nat} {source : Operand} {target : Operand}
    (hpush : (job.fusing false).ActionAt i (.push source))
    (hpop : (job.fusing false).ActionAt (i + 1) (.pop target)) :
    (job.fusing false).start i < (job.fusing false).start (i + 1) ∧
      (job.fusing false).start (i + 1) < (job.fusing false).start (i + 2) := by
  obtain ⟨one, hone, hstart, -⟩ := hplain.emits ht hpush
  obtain ⟨two, htwo, hstart', -⟩ := hplain.emits ht hpop
  have hpos := hone.instructionCount_push
  have hpos' := htwo.instructionCount_pop
  exact ⟨by omega, by rw [hstart']; omega⟩

/-- An action leads both programs to the same step of the fused layout. -/
theorem exists_meeting (hplain : Linkable (job.fusing false) plain)
    (hfused : Linkable (job.fusing true) fused)
    (hcalls : ∀ command ∈ job.commands, command.opcode.handlesCalls = false) {action : Action}
    (hact : (job.fusing true).ActionAt j action) (ram : Ram) :
    ∃ i ≤ (job.fusing true).layout.length,
      ((action.next ram).address (labelsOf plain.symbols) (UInt16.ofNat
        ((job.fusing false).start ((job.fusing true).position (j + 1))))).toNat =
          (job.fusing false).start ((job.fusing true).position i) ∧
      ((action.next ram).address (labelsOf fused.symbols) (UInt16.ofNat
        ((job.fusing true).start (j + 1)))).toNat = (job.fusing true).start i := by
  have ht : (job.fusing false).Titled := Job.titled_of_handlesCalls hcalls
  have ht' : (job.fusing true).Titled := Job.titled_of_handlesCalls hcalls
  cases hnext : action.next ram with
  | follow =>
    exact ⟨j + 1, hact.1, hplain.toNat_start ht _, hfused.toNat_start ht' _⟩
  | jump name =>
    obtain ⟨i, hmarks⟩ := hfused.exists_marks hact hnext
    refine ⟨i, hmarks.1.le, ?_, ?_⟩
    · rw [Next.address, hplain.labelsOf_of_marks ht hmarks.unfused]
      exact hplain.toNat_start ht _
    · rw [Next.address, hfused.labelsOf_of_marks ht' hmarks]
      exact hfused.toNat_start ht' _
  | resume address =>
    obtain ⟨rfl, -⟩ := Action.eq_ret_of_next hnext
    cases hact.handlesCalls hcalls

/-- The push and the pop of a fused step in the unfused layout, and the `move` in the fused ROM. -/
theorem exists_pair (hfused : Linkable (job.fusing true) fused) (ht : (job.fusing true).Titled)
    (hj : j < (job.fusing true).layout.length) {first second : Command}
    (hstep : (job.fusing true).layout[j].step = .fused first second) :
    ∃ (source : Operand) (target : Resolved) (code : List Inst),
      (job.fusing false).ActionAt ((job.fusing true).position j) (.push source) ∧
      (job.fusing false).ActionAt ((job.fusing true).position j + 1) (.pop target.operand) ∧
      (job.fusing true).position (j + 1) = (job.fusing true).position j + 2 ∧
      source.Regular ∧ target.operand.Regular ∧ move source target = .ok code ∧
      (job.fusing true).start (j + 1) = (job.fusing true).start j + instructionCount code ∧
      HoldsAt (labelsOf fused.symbols) fused.ops ((job.fusing true).start j) code := by
  obtain ⟨source, target, code, hone, htwo, hrest⟩ := hfused.exists_move ht hj hstep
  obtain ⟨hget, hget', hnext⟩ := Job.unfused_fused hj hstep
  obtain ⟨hi, hplaced⟩ := List.getElem?_eq_some_iff.1 hget
  obtain ⟨hi', hplaced'⟩ := List.getElem?_eq_some_iff.1 hget'
  exact ⟨source, target, code, ⟨hi, first, by rw [hplaced], by rw [hplaced]; exact hone⟩,
    ⟨hi', second, by rw [hplaced'], by rw [hplaced']; exact htwo _⟩, hnext, hrest⟩

/-- Steps with one address in the unfused program have one address in the fused one: only labels
have no code. -/
theorem start_eq_of_start_eq (hplain : Linkable (job.fusing false) plain)
    (hfused : Linkable (job.fusing true) fused) (ht : (job.fusing false).Titled)
    (ht' : (job.fusing true).Titled) {i : Nat} (hij : i ≤ j)
    (hj : j ≤ (job.fusing true).layout.length)
    (h : (job.fusing false).start ((job.fusing true).position i) =
      (job.fusing false).start ((job.fusing true).position j)) :
    (job.fusing true).start i = (job.fusing true).start j := by
  induction j, hij using Nat.le_induction with
  | base => rfl
  | succ j hij ih =>
    have hlow : (job.fusing false).start ((job.fusing true).position i) ≤
        (job.fusing false).start ((job.fusing true).position j) :=
      Job.start_mono _ (Job.position_mono hij)
    have hhigh : (job.fusing false).start ((job.fusing true).position j) ≤
        (job.fusing false).start ((job.fusing true).position (j + 1)) :=
      Job.start_mono _ (Job.position_mono (Nat.le_succ j))
    rw [ih (by omega) (by omega)]
    rcases hfused.step_of_mem (List.getElem_mem hj) with ⟨command, hstep⟩ | ⟨first, second, hstep⟩
    · obtain ⟨hget, hnext⟩ := Job.unfused_single hj hstep
      obtain ⟨hi, hplaced⟩ := List.getElem?_eq_some_iff.1 hget
      have hcount := (job.fusing false).start_succ hi
      have hcount' := (job.fusing true).start_succ hj
      have hcode : (job.fusing true).layout[j].code (job.fusing false).options =
          (job.fusing true).layout[j].code (job.fusing true).options := by
        simp only [Placed.code, Placed.emission, Job.fusing, compileStep_fuse]
      rw [hplaced, hcode, ← hnext] at hcount
      omega
    · obtain ⟨source, target, code, hpush, hpop, hnext, -⟩ := exists_pair hfused ht' hj hstep
      have hlt := start_lt_of_fused hplain ht hpush hpop
      rw [← hnext] at hlt
      omega

variable {m m' last : Machine} {n i : Nat}

/-- Step lemma: a single step preserves `Together`. -/
theorem together_single (hplain : Linkable (job.fusing false) plain)
    (hfused : Linkable (job.fusing true) fused)
    (hcalls : ∀ command ∈ job.commands, command.opcode.handlesCalls = false)
    (hsize : bound ≤ ramSize) (hs : job.Together plain fused bound j m m') {action : Action}
    (hact : (job.fusing true).ActionAt j action) (hclear : (job.fusing false).ClearAt bound m)
    (hrise : (job.fusing false).start ((job.fusing true).position j) <
      (job.fusing false).start ((job.fusing true).position (j + 1)))
    (hn : 0 < n) (hruns : Runs n m last) (hlast : last.pc.toNat = (job.fusing false).start i) :
    ∃ k m₁ k' m₁' j₁, 0 < k ∧ k ≤ n ∧ Runs k m m₁ ∧ Runs k' m' m₁' ∧
      job.Together plain fused bound j₁ m₁ m₁' := by
  have ht : (job.fusing false).Titled := Job.titled_of_handlesCalls hcalls
  have ht' : (job.fusing true).Titled := Job.titled_of_handlesCalls hcalls
  have hnone := hact.handlesCalls hcalls
  obtain ⟨hplainAct, hnext⟩ := hact.unfused
  have hc := hclear _ _ hplainAct hs.pc
  have hleaves := hplain.leaves ht hplainAct hs.rom hs.pc (hc.runnable hsize hnone)
  rw [← hnext] at hleaves
  obtain ⟨k, m₁, hk, hkn, hruns₁, -, hram₁, hpc₁⟩ := hleaves.of_runs hrise hn hruns fun hin =>
    Job.start_ne_of_inside (by rwa [← hnext]) i hlast
  obtain ⟨k', m₁', hruns₁', -, -, hram₁', hpc₁'⟩ := hfused.leaves ht' hact hs.rom' hs.pc'
    ((hc.of_agree hs.agree).runnable hsize hnone)
  rw [hc.next_eq hsize hs.agree hnone] at hpc₁'
  obtain ⟨j₁, hj₁, hmeet, hmeet'⟩ := exists_meeting hplain hfused hcalls hact m.ram
  obtain ⟨code, hemits, -⟩ := hfused.emits ht' hact
  refine ⟨k, m₁, k', m₁', j₁, hk, hkn, hruns₁, hruns₁', hj₁, hruns₁.rom.trans hs.rom,
    hruns₁'.rom.trans hs.rom', by rwa [hpc₁], by rwa [hpc₁'], ?_⟩
  rw [hram₁, hram₁']
  exact hc.agree_result hsize hs.agree hemits hnone _ _

/-- Step lemma: a push and a pop against one `move` preserve `Together`. -/
theorem together_fused (hplain : Linkable (job.fusing false) plain)
    (hfused : Linkable (job.fusing true) fused)
    (hcalls : ∀ command ∈ job.commands, command.opcode.handlesCalls = false)
    (hsize : bound ≤ ramSize) (hs : job.Together plain fused bound j m m')
    (hj : j < (job.fusing true).layout.length) {first second : Command}
    (hstep : (job.fusing true).layout[j].step = .fused first second)
    (hclear : ∀ k ≤ n, ∀ m₁, Runs k m m₁ → (job.fusing false).ClearAt bound m₁)
    (hn : 0 < n) (hruns : Runs n m last)
    (hlast : last.pc.toNat = (job.fusing false).start ((job.fusing true).position i)) :
    ∃ k m₁ k' m₁' j₁, 0 < k ∧ k ≤ n ∧ Runs k m m₁ ∧ Runs k' m' m₁' ∧
      job.Together plain fused bound j₁ m₁ m₁' := by
  have ht : (job.fusing false).Titled := Job.titled_of_handlesCalls hcalls
  have ht' : (job.fusing true).Titled := Job.titled_of_handlesCalls hcalls
  obtain ⟨source, target, code, hpush, hpop, hnext, hsource, htarget, hmove, hcount, hholds⟩ :=
    exists_pair hfused ht' hj hstep
  obtain ⟨hrise, hrise'⟩ := start_lt_of_fused hplain ht hpush hpop
  -- The push.
  have hc := hclear 0 (Nat.zero_le _) m (.refl m) _ _ hpush hs.pc
  have hsp := hc.onStack hsize
  obtain ⟨k, m₁, hk, hkn, hruns₁, -, hram₁, hpc₁⟩ :=
    (hplain.leaves ht hpush hs.rom hs.pc (hc.runnable hsize rfl)).of_runs hrise hn hruns
      fun hin => Job.start_ne_of_inside hin _ hlast
  have hpc₁ : m₁.pc.toNat = (job.fusing false).start ((job.fusing true).position j + 1) := by
    rw [hpc₁]
    exact hplain.toNat_start ht _
  -- The run does not end between the two.
  have hrest := hruns₁.rest hkn hruns
  have hmore : 0 < n - k := by
    rw [Nat.pos_iff_ne_zero]
    intro hzero
    rw [hzero] at hrest
    rw [runs_zero.1 hrest, hlast] at hpc₁
    rcases Nat.lt_or_ge i (j + 1) with hi | hi
    · have : (job.fusing false).start ((job.fusing true).position i) ≤
          (job.fusing false).start ((job.fusing true).position j) :=
        Job.start_mono _ (Job.position_mono (Nat.le_of_lt_succ hi))
      omega
    · have : (job.fusing false).start ((job.fusing true).position (j + 1)) ≤
          (job.fusing false).start ((job.fusing true).position i) :=
        Job.start_mono _ (Job.position_mono hi)
      rw [hnext] at this
      omega
  -- The pop.
  have hc₁ := hclear k hkn m₁ hruns₁ _ _ hpop hpc₁
  obtain ⟨k₂, m₂, hk₂, hkn₂, hruns₂, -, hram₂, hpc₂⟩ :=
    (hplain.leaves ht hpop (hruns₁.rom.trans hs.rom) hpc₁ (hc₁.runnable hsize rfl)).of_runs hrise'
      hmore hrest fun hin => Job.start_ne_of_inside hin _ hlast
  -- The fused pair.
  obtain ⟨_, hpopped⟩ := (exists_move_iff source).1 ⟨_, hmove⟩
  obtain ⟨cell, hcell⟩ := popped_isSome hpopped htarget m.ram
  have hcell₁ : target.operand.cell? m₁.ram = some cell := by
    rw [hram₁]
    exact (Operand.cell?_pushed htarget hsp.inRange (Nat.le_trans (by decide) hc.1) _).trans hcell
  have hcell' : target.operand.cell? m'.ram = some cell :=
    (Operand.cell?_of_agree hs.agree hc.1 _).trans hcell
  obtain ⟨hin, hpos⟩ := hc₁.2.2 cell hcell₁
  rw [← hs.pc', ← hs.rom'] at hholds
  obtain ⟨k', m₁', hruns₁', -, -, hpc₁', left, hleft, hram₁'⟩ :=
    leaves_move hmove hsource htarget hholds (by rw [hs.rom']; exact hfused.size)
      (hc.of_agree hs.agree) hsize hcell' hin
  refine ⟨k + k₂, m₂, k', m₁', j + 1, by omega, by omega, hruns₁.trans hruns₂, hruns₁', hj,
    hruns₂.rom.trans (hruns₁.rom.trans hs.rom), hruns₁'.rom.trans hs.rom', ?_, ?_, ?_⟩
  · rw [hpc₂, hnext]
    exact hplain.toNat_start ht _
  · rw [hpc₁', hs.pc', ← hcount]
    exact hfused.toNat_start ht' _
  · have hne : cell ≠ Register.sp.address := by
      rintro rfl
      cases hpos
    rw [source.value_of_agree hs.agree hc.1 hc.2.2] at hleft hram₁'
    rw [hram₂, hram₁', Action.result, hcell₁, hram₁]
    exact hs.agree.move hsp hc.2.1 hin hne hleft

/-- Machines that are `Together` are so at every step with the address of the first. -/
theorem Job.Together.at_start (hplain : Linkable (job.fusing false) plain)
    (hfused : Linkable (job.fusing true) fused) (ht : (job.fusing false).Titled)
    (ht' : (job.fusing true).Titled) (hs : job.Together plain fused bound j m m')
    (hi : i ≤ (job.fusing true).layout.length)
    (hpc : m.pc.toNat = (job.fusing false).start ((job.fusing true).position i)) :
    job.Together plain fused bound i m m' := by
  refine ⟨hi, hs.rom, hs.rom', hpc, ?_, hs.agree⟩
  rw [hs.pc']
  rcases Nat.le_total j i with hij | hij
  · exact start_eq_of_start_eq hplain hfused ht ht' hij hi (hs.pc.symm.trans hpc)
  · exact (start_eq_of_start_eq hplain hfused ht ht' hij hs.le (hpc.symm.trans hs.pc)).symm

/-- Run lemma: wherever the unfused run reaches a step of the fused layout, the fused run reaches it
`Together`. -/
theorem together_of_runs (hplain : Linkable (job.fusing false) plain)
    (hfused : Linkable (job.fusing true) fused)
    (hcalls : ∀ command ∈ job.commands, command.opcode.handlesCalls = false)
    (hsize : bound ≤ ramSize) (hs : job.Together plain fused bound j m m')
    (hclear : ∀ k ≤ n, ∀ m₁, Runs k m m₁ → (job.fusing false).ClearAt bound m₁)
    (hruns : Runs n m last) (hi : i ≤ (job.fusing true).layout.length)
    (hlast : last.pc.toNat = (job.fusing false).start ((job.fusing true).position i)) :
    ∃ k last', Runs k m' last' ∧ job.Together plain fused bound i last last' := by
  have ht : (job.fusing false).Titled := Job.titled_of_handlesCalls hcalls
  have ht' : (job.fusing true).Titled := Job.titled_of_handlesCalls hcalls
  -- Each step of the program with fused pairs that has code uses up some of the run.
  induction n using Nat.strong_induction_on generalizing j m m' with
  | _ n ih =>
    rcases Nat.eq_zero_or_pos n with rfl | hn
    · cases runs_zero.1 hruns
      exact ⟨0, m', .refl m', hs.at_start hplain hfused ht ht' hi hlast⟩
    obtain ⟨j₀, -, hj₀, hsame, hrise⟩ := exists_rise
      ((job.fusing false).start_mono.comp (job.fusing true).position_mono) hs.le
    have hs := hs.at_start hplain hfused ht ht' hj₀ (hs.pc.trans hsame.symm)
    rcases hj₀.eq_or_lt with rfl | hlt
    · have hend := hs.pc
      rw [Job.position_length] at hend
      obtain ⟨hram, hfar⟩ := hplain.of_runs_end ht hs.rom hend hruns
      have hnear : (job.fusing false).start ((job.fusing true).position i) ≤
          (job.fusing false).start (job.fusing false).layout.length := by
        rw [← Job.position_length]
        exact Job.start_mono _ (Job.position_mono hi)
      have hs := hs.at_start hplain hfused ht ht' hi (by omega)
      exact ⟨0, m', .refl m', hi, hruns.rom.trans hs.rom, hs.rom', hlast, hs.pc',
        by rw [hram]; exact hs.agree⟩
    have hnext : ∃ k m₁ k' m₁' j₁, 0 < k ∧ k ≤ n ∧ Runs k m m₁ ∧ Runs k' m' m₁' ∧
        job.Together plain fused bound j₁ m₁ m₁' := by
      rcases hfused.step_of_mem (List.getElem_mem hlt) with ⟨command, hstep⟩ | ⟨one, two, hstep⟩
      · obtain ⟨action, hact⟩ := hfused.exists_actionAt_of_single hlt hstep
        exact together_single hplain hfused hcalls hsize hs hact
          (hclear 0 (Nat.zero_le _) m (.refl m)) (hrise hlt) hn hruns hlast
      · exact together_fused hplain hfused hcalls hsize hs hlt hstep hclear hn hruns hlast
    obtain ⟨k, m₁, k', m₁', j₁, hk, hkn, hruns₁, hruns₁', hs₁⟩ := hnext
    obtain ⟨k₂, last', hruns₂, hend⟩ := ih (n - k) (by omega) hs₁
      (fun l hl m₂ hm₂ => hclear (k + l) (by omega) m₂ (hruns₁.trans hm₂)) (hruns₁.rest hkn hruns)
    exact ⟨k' + k₂, last', hruns₁'.trans hruns₂, hend⟩

end SideBySide

/-! ## Whole programs -/

/-- Command `i` is the pop of a fused step. -/
def Job.SplitsPair (job : Job) (i : Nat) : Prop :=
  ∃ (j : Nat) (hj : j < job.layout.length) (first second : Command),
    job.layout[j].step = .fused first second ∧ i = job.position j + 1

/-- A command is the first of a step of the fused layout, or `SplitsPair`. -/
theorem Linkable.exists_position {job : Job} {program : Program}
    (h : Linkable (job.fusing true) program) {i : Nat} (hi : i ≤ (job.fusing false).layout.length) :
    (∃ j ≤ (job.fusing true).layout.length, (job.fusing true).position j = i) ∨
      (job.fusing true).SplitsPair i := by
  induction i with
  | zero => exact .inl ⟨0, Nat.zero_le _, rfl⟩
  | succ i ih =>
    rcases ih (Nat.le_of_succ_le hi) with ⟨j, hj, rfl⟩ | ⟨j, hj, first, second, hstep, rfl⟩
    · have hlt : j < (job.fusing true).layout.length := by
        refine hj.lt_of_ne ?_
        rintro rfl
        rw [Job.position_length] at hi
        omega
      rcases h.step_of_mem (List.getElem_mem hlt) with ⟨command, hstep⟩ | ⟨first, second, hstep⟩
      · exact .inl ⟨j + 1, hlt, (Job.unfused_single hlt hstep).2⟩
      · exact .inr ⟨j, hlt, first, second, hstep, rfl⟩
    · exact .inl ⟨j + 1, hj, (Job.unfused_fused hj hstep).2.2⟩

/-- **Fused and unfused programs agree.** Let a job without entry and without functions, calls and
returns be `Linkable` with and without fusing, and run both programs from the same memory. If every
command that the unfused run reaches is `Clear`, then at every such command but the pop of a fused
pair the fused run reaches the same command without a fault, and the memories `Agree`. -/
theorem fused_agrees {job : Job} {plain fused : Program}
    (hplain : Linkable (job.fusing false) plain) (hfused : Linkable (job.fusing true) fused)
    (hentry : job.entry = none)
    (hcalls : ∀ command ∈ job.commands, command.opcode.handlesCalls = false) {bound : Nat}
    (hsize : bound ≤ ramSize) (ram : Ram) {n : Nat} {m : Machine}
    (hruns : Runs n { boot plain with ram } m)
    (hclear : ∀ k ≤ n, ∀ m₁, Runs k { boot plain with ram } m₁ →
      (job.fusing false).ClearAt bound m₁)
    {i : Nat} (hi : i ≤ job.commands.length) (hpc : m.pc.toNat = (job.fusing false).start i)
    (hpair : ¬(job.fusing true).SplitsPair i) :
    ∃ j ≤ (job.fusing true).layout.length, (job.fusing true).position j = i ∧
      ∃ k m', Runs k { boot fused with ram } m' ∧ m'.pc.toNat = (job.fusing true).start j ∧
        m.ram.Agree bound m'.ram := by
  have hlen : i ≤ (job.fusing false).layout.length := by
    rw [hplain.length_layout rfl]
    exact hi
  obtain ⟨j, hj, rfl⟩ := (hfused.exists_position hlen).resolve_right hpair
  have hs : job.Together plain fused bound 0 { boot plain with ram } { boot fused with ram } :=
    ⟨Nat.zero_le _, rfl, rfl, ((job.fusing false).start_zero hentry).symm,
      ((job.fusing true).start_zero hentry).symm, .refl bound ram⟩
  obtain ⟨k, m', hruns', hend⟩ := together_of_runs hplain hfused hcalls hsize hs hclear hruns hj hpc
  exact ⟨j, hj, rfl, k, m', hruns', hend.pc', hend.agree⟩

/-- A job with one pair. -/
def pairJob : Job := ⟨{}, none, [("M", "push constant 7\npop temp 0")]⟩

theorem exists_linkable_pairJob (fuse : Bool) :
    ∃ program, Linkable (pairJob.fusing fuse) program := by
  refine exists_linkable (by cases fuse <;> decide +kernel) ?_ (by cases fuse <;> decide +kernel)
  rw [assemble, statements, Artifact.text, toList_render]
  cases fuse <;> decide +kernel

theorem steps_pairJob : (pairJob.fusing false).layout.map Placed.step =
    [.single ⟨.push "constant" 7, "push constant 7", ⟨"M", 1⟩⟩,
      .single ⟨.pop "temp" 0, "pop temp 0", ⟨"M", 2⟩⟩] := by
  decide +kernel

theorem actionAt_pairJob_push : (pairJob.fusing false).ActionAt 0 (.push (.immediate 7)) :=
  Job.actionAt_of_step (by rw [← List.getElem?_map, steps_pairJob]; rfl) fun _ => rfl

theorem actionAt_pairJob_pop : (pairJob.fusing false).ActionAt 1 (.pop (.direct (.const 5))) :=
  Job.actionAt_of_step (by rw [← List.getElem?_map, steps_pairJob]; rfl) fun _ => rfl

theorem actionAt_pairJob {i : Nat} {action : Action}
    (h : (pairJob.fusing false).ActionAt i action) :
    i = 0 ∧ action = .push (.immediate 7) ∨ i = 1 ∧ action = .pop (.direct (.const 5)) := by
  have hlen : (pairJob.fusing false).layout.length = 2 := by
    rw [← List.length_map Placed.step, steps_pairJob]
    rfl
  have hi := h.1
  rcases Nat.lt_or_ge i 1 with hlt | hge
  · obtain rfl : i = 0 := by omega
    obtain ⟨s, haction⟩ := h.of_step (by rw [← List.getElem?_map, steps_pairJob]; rfl)
    cases haction
    exact .inl ⟨rfl, rfl⟩
  · obtain rfl : i = 1 := by omega
    obtain ⟨s, haction⟩ := h.of_step (by rw [← List.getElem?_map, steps_pairJob]; rfl)
    cases haction
    exact .inr ⟨rfl, rfl⟩

theorem fused_agrees_pair : ∃ plain fused, Linkable (pairJob.fusing false) plain ∧
    Linkable (pairJob.fusing true) fused ∧ ∃ n m k m',
      Runs n { boot plain with ram := Ram.blank.setReg .sp 256 } m ∧
      m.pc.toNat = (pairJob.fusing false).start 2 ∧
      Runs k { boot fused with ram := Ram.blank.setReg .sp 256 } m' ∧
      m'.pc.toNat = (pairJob.fusing true).start 1 ∧ m.ram.Agree 2048 m'.ram := by
  obtain ⟨plain, hplain⟩ := exists_linkable_pairJob false
  obtain ⟨fused, hfused⟩ := exists_linkable_pairJob true
  have hcalls : ∀ command ∈ pairJob.commands, command.opcode.handlesCalls = false := by
    decide +kernel
  have ht : (pairJob.fusing false).Titled := Job.titled_of_handlesCalls hcalls
  have hlt : (pairJob.fusing false).start 0 < (pairJob.fusing false).start 1 ∧
      (pairJob.fusing false).start 1 < (pairJob.fusing false).start 2 :=
    start_lt_of_fused hplain ht actionAt_pairJob_push actionAt_pairJob_pop
  generalize hblank : Ram.blank.setReg .sp 256 = ram
  have hsp : ram.reg .sp = 256 := by rw [← hblank, Ram.reg_setReg_self]
  have hc : (Action.push (.immediate 7)).Clear ram 2048 :=
    ⟨by rw [hsp]; decide, by rw [hsp]; decide, nofun⟩
  have hc' : (Action.pop (.direct (.const 5))).Clear (ram.pushed 7) 2048 := by
    refine ⟨by rw [Ram.pushed_sp, hsp]; decide, by rw [Ram.pushed_sp, hsp]; decide, ?_⟩
    rintro cell hcell
    cases hcell
    decide
  obtain ⟨n, m, hruns, hin, -, hram, hpc⟩ := hplain.leaves ht actionAt_pairJob_push
    (m := { boot plain with ram }) rfl ((pairJob.fusing false).start_zero rfl).symm
    (hc.runnable (by decide) rfl)
  replace hram : m.ram = ram.pushed 7 := hram
  replace hpc : m.pc.toNat = (pairJob.fusing false).start 1 := by
    rw [hpc]
    exact hplain.toNat_start ht 1
  rw [← hram] at hc'
  obtain ⟨n', m', hruns', hin', -, -, hpc'⟩ := hplain.leaves ht actionAt_pairJob_pop hruns.rom hpc
    (hc'.runnable (by decide) rfl)
  replace hpc' : m'.pc.toNat = (pairJob.fusing false).start 2 := by
    rw [hpc']
    exact hplain.toNat_start ht 2
  have hclear : ∀ k ≤ n + (n' + 0), ∀ m₁, Runs k { boot plain with ram } m₁ →
      (pairJob.fusing false).ClearAt 2048 m₁ := by
    refine Job.ClearAt.over hruns hin ?_ (Job.ClearAt.over hruns' hin' ?_ ?_)
    · intro i action hact hstart
      rcases actionAt_pairJob hact with ⟨rfl, rfl⟩ | ⟨rfl, rfl⟩
      · exact hc
      · have : 0 = (pairJob.fusing false).start 1 := hstart
        omega
    · intro i action hact hstart
      rcases actionAt_pairJob hact with ⟨rfl, rfl⟩ | ⟨rfl, rfl⟩
      · omega
      · exact hc'
    · intro k hk m₁ hruns₁ i action hact hstart
      obtain rfl := Nat.le_zero.1 hk
      cases runs_zero.1 hruns₁
      rcases actionAt_pairJob hact with ⟨rfl, rfl⟩ | ⟨rfl, rfl⟩ <;> omega
  have hlen : (pairJob.fusing true).layout.length = 1 := by decide +kernel
  have hpair : ¬(pairJob.fusing true).SplitsPair 2 := by
    rintro ⟨j, hj, first, second, -, heq⟩
    obtain rfl : j = 0 := by omega
    cases heq
  obtain ⟨j, hj, hposition, k, m₁, hruns₁, hpc₁, hagree⟩ := fused_agrees hplain hfused rfl hcalls
    (by decide) ram (hruns.trans hruns') hclear (i := 2) (by decide +kernel) hpc' hpair
  obtain rfl : j = 1 := by
    rcases Nat.eq_zero_or_pos j with rfl | hpos
    · cases hposition
    · omega
  exact ⟨plain, fused, hplain, hfused, _, m', k, m₁, hruns.trans hruns', hpc', hruns₁, hpc₁, hagree⟩

end Compile

end HackVM
