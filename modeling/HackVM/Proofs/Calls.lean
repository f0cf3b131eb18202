/-
  Returns match calls. `Job.openCalls` lists the calls that a run has made and not returned from.
  While every command is disciplined, their frames are `Chained` from one command to the next
  (`Linkable.ordered_of_runs`), so every return goes behind the innermost open call
  (`returns_match_calls`).
-/
import Mathlib
import HackVM.Proofs.Frames
import HackVM.Proofs.Simulation

namespace HackVM

open Assembly Compile Rom Machine

/-! ## Open calls of a run -/

/-- The open calls after an action: a call is added with the address `behind` it, a return removes
the innermost one. -/
def Action.track (behind : Nat) (ram : Ram) (calls : List Activation) : Action → List Activation
  | .call _ args => ⟨behind, args, ram⟩ :: calls
  | .ret => calls.tail
  | .arith _ | .push _ | .pop _ | .label _ | .goto _ | .ifGoto _ | .function _ _ => calls

theorem Action.track_of_not_linkage {action : Action} (h : action.isLinkage = false) (behind : Nat)
    (ram : Ram) (calls : List Activation) : action.track behind ram calls = calls := by
  cases action with
  | call callee args | ret => cases h
  | _ => rfl

namespace Compile.Job

variable (job : Job)

/-- The action of step `i`. -/
def action? (i : Nat) : Option Action :=
  job.layout[i]?.bind fun placed =>
    match placed.step with
    | .single command => (Action.of placed.state command.opcode).toOption
    | .fused _ _ | .fault _ => none

/-- The step with code that starts at `address`. -/
def coded? (address : Nat) : Option Nat :=
  (List.range job.layout.length).find? fun i =>
    job.start i = address ∧ job.start i < job.start (i + 1)

/-- `Action.track` of the step with code at `pc`, if there is one. -/
def track (m : Machine) (calls : List Activation) : List Activation :=
  match (job.coded? m.pc.toNat).bind fun i => (job.action? i).map (·, i) with
  | some (action, i) => action.track (job.start (i + 1)) m.ram calls
  | none => calls

/-- The open calls after `n` machine steps, `track`ed at each. -/
def openCalls : (n : Nat) → Machine → List Activation → List Activation
  | 0, _, calls => calls
  | n + 1, m, calls => openCalls n m.step.2 (job.track m calls)

/-- The call of the entry function by the bootstrap. -/
def bootCall : Activation := ⟨job.start 0, 0, Ram.blank.setReg .sp Segment.stackBase⟩

/-- Every action at `pc` is `Disciplined`, for the innermost open call. -/
def Disciplined (bound : Nat) (calls : List Activation) (m : Machine) : Prop :=
  ∀ i action, job.ActionAt i action → m.pc.toNat = job.start i →
    action.Disciplined m.ram (argsOf calls) bound

variable {job}

theorem action?_of_actionAt {i : Nat} {action : Action} (h : job.ActionAt i action) :
    job.action? i = some action := by
  obtain ⟨hi, command, hstep, haction⟩ := h
  rw [action?, List.getElem?_eq_getElem hi, Option.bind_some, hstep]
  simp only [haction]
  rfl

theorem coded?_start {i : Nat} (hi : i < job.layout.length)
    (hcoded : job.start i < job.start (i + 1)) : job.coded? (job.start i) = some i := by
  cases hfound : job.coded? (job.start i) with
  | none =>
    have := List.find?_eq_none.1 hfound i (List.mem_range.2 hi)
    simp [hcoded] at this
  | some j =>
    have hj := List.find?_some hfound
    simp only [decide_eq_true_eq] at hj
    rw [eq_of_start_eq hj.2 hcoded hj.1]

theorem coded?_eq_none {address : Nat} (h : ∀ j, address ≠ job.start j) :
    job.coded? address = none := by
  refine List.find?_eq_none.2 fun j _ => ?_
  simp [(h j).symm]

theorem track_of_actionAt {i : Nat} {action : Action} {m : Machine} {calls : List Activation}
    (hact : job.ActionAt i action) (hcoded : job.start i < job.start (i + 1))
    (hpc : m.pc.toNat = job.start i) :
    job.track m calls = action.track (job.start (i + 1)) m.ram calls := by
  obtain ⟨hi, -⟩ := id hact
  rw [track, hpc, coded?_start hi hcoded, Option.bind_some, action?_of_actionAt hact]
  rfl

theorem track_of_ne {m : Machine} {calls : List Activation} (h : ∀ j, m.pc.toNat ≠ job.start j) :
    job.track m calls = calls := by
  rw [track, coded?_eq_none h]
  rfl

theorem openCalls_add {n k : Nat} {m m₁ : Machine} {calls : List Activation} (h : Runs n m m₁) :
    job.openCalls (n + k) m calls = job.openCalls k m₁ (job.openCalls n m calls) := by
  induction n generalizing m calls with
  | zero => rw [Nat.zero_add, runs_zero.1 h, openCalls]
  | succ n ih =>
    obtain ⟨m₂, hstep, h⟩ := runs_succ.1 h
    rw [Nat.succ_add, openCalls, openCalls, hstep, ih h]

/-- Inside a block no step starts, so `openCalls` changes at its first step only. -/
theorem openCalls_of_inside {lo hi k : Nat} {m m' : Machine} {calls : List Activation}
    (hquiet : ∀ address, lo < address ∧ address < hi → ∀ j, address ≠ job.start j)
    (hin : Inside lo hi k m) (hpos : 0 < k) (h : Runs k m m') :
    job.openCalls k m calls = job.track m calls := by
  induction k generalizing m' with
  | zero => cases hpos
  | succ k ih =>
    rcases Nat.eq_zero_or_pos k with rfl | hk
    · rfl
    · obtain ⟨m₁, h₁, -⟩ := runs_add.1 h
      rw [openCalls_add h₁, ih (hin.mono (Nat.le_succ k)) hk h₁, openCalls, openCalls]
      exact track_of_ne (hquiet _ (hin k m₁ hk (Nat.lt_succ_self k) h₁))

/-- Inside the bootstrap `openCalls` does not change. -/
theorem openCalls_of_bootstrap {k : Nat} {m m' : Machine} {calls : List Activation}
    (hpc : m.pc.toNat < job.start 0) (hin : Inside 0 (job.start 0) k m) (h : Runs k m m') :
    job.openCalls k m calls = calls := by
  have hfirst : ∀ j, job.start 0 ≤ job.start j := fun j => job.start_mono (Nat.zero_le j)
  rcases Nat.eq_zero_or_pos k with rfl | hk
  · rfl
  · rw [openCalls_of_inside (fun _ hin j => (hin.2.trans_le (hfirst j)).ne) hin hk h]
    exact track_of_ne fun j => (hpc.trans_le (hfirst j)).ne

end Compile.Job

/-! ## From one command to the next -/

namespace Compile

/-- `pc` is at a step or at the end, the open calls are `Chained`, and their return addresses are
addresses of steps. -/
structure Job.Ordered (job : Job) (program : Program) (calls : List Activation) (m : Machine) :
    Prop where
  rom : m.rom = program.ops
  pc : ∃ i ≤ job.layout.length, m.pc.toNat = job.start i
  chained : Chained calls m.ram
  resumes : ∀ c ∈ calls, ∃ j ≤ job.layout.length, c.resume = job.start j

/-- The call of the bootstrap is `Chained`. -/
theorem Job.chained_boot (job : Job) :
    Chained [job.bootCall] (job.bootCall.ram.called 0 (UInt16.ofNat (job.start 0))) := by
  have hsp : job.bootCall.ram.reg .sp = 256 := Ram.reg_setReg_self ..
  have hargs : job.bootCall.args = 0 := rfl
  have hlcl : job.bootCall.ram.reg .lcl = 0 := by
    rw [Job.bootCall, Ram.reg_setReg_of_ne (by decide)]
    exact Ram.get_blank _
  refine ⟨Activation.holds_called job.bootCall ?_ ?_ ?_, hlcl⟩
  · rw [hsp, hargs]
    decide
  · rw [hsp, hlcl, hargs]
    decide
  · rw [hsp]
    decide

namespace Linkable

variable {job : Job} {program : Program}

/-- Step lemma: a disciplined, `Safe` action keeps the tracked calls `Chained`. -/
theorem chained_result (h : Linkable job program) (ht : job.Titled) {i bound : Nat}
    {action : Action} {calls : List Activation} {ram : Ram} (hact : job.ActionAt i action)
    (hsafe : action.Safe ram) (hd : action.Disciplined ram (argsOf calls) bound)
    (hsize : bound ≤ ramSize) (hchain : Chained calls ram) :
    Chained (action.track (job.start (i + 1)) ram calls)
      (action.result ram (UInt16.ofNat (job.start (i + 1)))) := by
  obtain ⟨hlow, hlcl, hbound, hconfined⟩ := id hd
  obtain ⟨c, rest, rfl⟩ := hchain.exists_cons hlow
  cases hlink : action.isLinkage with
  | false =>
    obtain ⟨code, hemits, -⟩ := h.emits ht hact
    have harg := hchain.1.toNat_arg
    have hroom := hchain.1.room
    rw [Action.track_of_not_linkage hlink]
    exact hchain.of_keeps (hemits.keeps hsafe hd hsize (by omega) hlink)
  | true =>
    cases action with
    | call callee count =>
      have hcount : (ram.reg .lcl).toNat + count.toNat ≤ (ram.reg .sp).toNat := hconfined
      have hfits : (ram.reg .sp).toNat + 5 ≤ ramSize :=
        Ram.OnStack.add_le ⟨by omega, by omega⟩ fun i hi =>
          (hsafe.1 _ (List.mem_map_of_mem (List.mem_range.2 hi))).inRange
      exact ⟨Activation.holds_called ⟨job.start (i + 1), count, ram⟩ (by simp only; omega) hcount
        hfits, hchain⟩
    | ret => exact hchain.returned
    | _ => cases hlink

/-- Step lemma: a disciplined command that is `Done` keeps the machine `Ordered`. -/
theorem ordered_of_done (h : Linkable job program) (ht : job.Titled) {i bound : Nat}
    {action : Action} {calls : List Activation} {m m₁ : Machine}
    (hs : job.Ordered program calls m) (hact : job.ActionAt i action) (hsafe : action.Safe m.ram)
    (hd : action.Disciplined m.ram (argsOf calls) bound) (hsize : bound ≤ ramSize)
    (hrom : m₁.rom = m.rom)
    (hdone : Done (labelsOf program.symbols) m action (job.start (i + 1)) m₁) :
    job.Ordered program (action.track (job.start (i + 1)) m.ram calls) m₁ := by
  obtain ⟨hi, -⟩ := id hact
  have hchain := h.chained_result ht hact hsafe hd hsize hs.chained
  rw [← hdone.1] at hchain
  refine ⟨hrom.trans hs.rom, ?_, hchain, ?_⟩
  · have hcontinues := h.continues_address ht hact m.ram
    rw [← hdone.2] at hcontinues
    cases hnext : action.next m.ram with
    | follow =>
      rw [hnext] at hcontinues
      exact ⟨i + 1, hi, hcontinues⟩
    | jump name =>
      rw [hnext] at hcontinues
      obtain ⟨j, ⟨hj, -⟩, hpc⟩ := hcontinues
      exact ⟨j, hj.le, hpc⟩
    | resume address =>
      rw [hnext] at hcontinues
      obtain ⟨rfl, rfl⟩ := Action.eq_ret_of_next hnext
      obtain ⟨c, rest, rfl⟩ := hs.chained.exists_cons hd.1
      obtain ⟨j, hj, hresume⟩ := hs.resumes c List.mem_cons_self
      refine ⟨j, hj, ?_⟩
      rw [show m₁.pc = m.ram.resumption from hcontinues, hs.chained.1.returned.1, hresume]
      exact h.toNat_start ht j
  · intro c hc
    cases action with
    | call callee count =>
      rcases List.mem_cons.1 hc with rfl | hc
      · exact ⟨i + 1, hi, rfl⟩
      · exact hs.resumes c hc
    | ret => exact hs.resumes c (List.mem_of_mem_tail hc)
    | _ => exact hs.resumes c hc

/-- Run lemma: if every command of a run is disciplined, the machine is `Ordered` at every command
that the run reaches. -/
theorem ordered_of_runs (h : Linkable job program) (ht : job.Titled)
    (hfuse : job.options.fuse = false) {bound j n : Nat} (hsize : bound ≤ ramSize)
    (hj : j < job.layout.length) (hcoded : job.start j < job.start (j + 1))
    {calls : List Activation} {m m' : Machine} (hs : job.Ordered program calls m)
    (hruns : Runs n m m') (hpc : m'.pc.toNat = job.start j)
    (hd : ∀ k ≤ n, ∀ m₁, Runs k m m₁ → job.Disciplined bound (job.openCalls k m calls) m₁) :
    job.Ordered program (job.openCalls n m calls) m' := by
  -- The run is cut at its first command, whose code it passes or ends in.
  induction n using Nat.strong_induction_on generalizing m calls with
  | _ n ih =>
  rcases Nat.eq_zero_or_pos n with rfl | hn
  · rwa [← runs_zero.1 hruns]
  obtain ⟨i₀, hi₀, hpc₀⟩ := hs.pc
  obtain ⟨i, -, hi, hstart, hbusy⟩ := exists_rise job.start_mono hi₀
  rw [← hstart] at hpc₀
  rcases hi.lt_or_eq with hi | rfl
  · obtain ⟨action, hact⟩ := h.exists_actionAt hfuse (h.length_layout hfuse ▸ hi)
    have hdisc := hd 0 hn.le m (.refl m) i action hact hpc₀
    have hout : ¬(job.start i < m'.pc.toNat ∧ m'.pc.toNat < job.start (i + 1)) := fun hin =>
      Job.start_ne_of_inside hin j hpc
    have hsafe : action.Safe m.ram := h.safe_of_runs ht hact hs.rom hpc₀
      (hdisc.rooted hsize hs.chained) hn hruns hout
    obtain ⟨k, m₁, hk, hkn, hruns₁, hin, hdone⟩ :=
      (h.leaves ht hact hs.rom hpc₀ hsafe.runnable).of_runs (hbusy hi) hn hruns hout
    have hcalls : job.openCalls k m calls = action.track (job.start (i + 1)) m.ram calls := by
      rw [Job.openCalls_of_inside (fun _ => Job.start_ne_of_inside) hin hk hruns₁,
        Job.track_of_actionAt hact (hbusy hi) hpc₀]
    have hs₁ := h.ordered_of_done ht hs hact hsafe hdisc hsize hruns₁.rom hdone
    have hadd : ∀ l, job.openCalls (k + l) m calls =
        job.openCalls l m₁ (action.track (job.start (i + 1)) m.ram calls) := fun l => by
      rw [Job.openCalls_add hruns₁, hcalls]
    rw [← Nat.add_sub_cancel' hkn, hadd]
    refine ih (n - k) (by omega) hs₁ (hruns₁.rest hkn hruns) fun l hl m₂ hm₂ => ?_
    rw [← hadd]
    exact hd (k + l) (by omega) m₂ (hruns₁.trans hm₂)
  · have hend := (h.of_runs_end ht hs.rom hpc₀ hruns).2
    have : job.start (j + 1) ≤ job.start job.layout.length := job.start_mono hj
    omega

theorem leaves_boot (h : Linkable job program) (ht : job.Titled) {entry : Entry}
    (hentry : job.entry = some entry) :
    (boot program).pc.toNat < job.start 0 ∧ Leaves 0 (job.start 0) (boot program) fun m' =>
      m'.ram = job.bootCall.ram.called 0 (UInt16.ofNat (job.start 0)) ∧
        m'.pc = labelsOf program.symbols entry.function := by
  have hbefore : job.before 0 = comments job.options ["bootstrap: call " ++ entry.function] ++
      bootstrap entry.function (Label.callReturn bootModule entry.function 0) := by
    rw [Job.before, List.take_zero, List.flatMap_nil, List.append_nil, Job.opening, hentry]
    rfl
  have hloaded := h.loaded ht
  rw [job.artifact_code_before 0, ← List.nil_append (job.before 0)] at hloaded
  obtain ⟨hholds, hbinds⟩ := hloaded.holdsAt
  rw [hbefore] at hholds hbinds
  have hholds := hholds.right
  have hbinds := hbinds.right
  rw [instructionCount_comments] at hholds hbinds
  have hcount : job.start 0 = instructionCount
      (bootstrap entry.function (Label.callReturn bootModule entry.function 0)) := by
    rw [Job.start, hbefore, instructionCount_append, instructionCount_comments, Nat.zero_add]
  have hleaves := leaves_bootstrap (m := boot program) hholds h.size hbinds
  rw [← hcount, show (boot program).pc.toNat = 0 from rfl, Nat.zero_add] at hleaves
  refine ⟨?_, hleaves⟩
  rw [hcount, bootstrap_eq, instructionCount_append]
  exact Nat.succ_pos _

/-- After the bootstrap the machine is `Ordered` with `bootCall` open. -/
theorem ordered_boot (h : Linkable job program) (ht : job.Titled) {entry : Entry}
    (hentry : job.entry = some entry) {m : Machine} (hrom : m.rom = program.ops)
    (hram : m.ram = job.bootCall.ram.called 0 (UInt16.ofNat (job.start 0)))
    (hpc : m.pc = labelsOf program.symbols entry.function) :
    job.Ordered program [job.bootCall] m := by
  obtain ⟨j, hj, command, hstep, hname⟩ := Job.exists_single_of_declares (h.entered entry hentry)
  refine ⟨hrom, ⟨j, hj.le, ?_⟩, ?_, ?_⟩
  · rw [hpc, h.address_of_declared ht hj hstep hname]
    exact h.toNat_start ht j
  · rw [hram]
    exact job.chained_boot
  · rintro c hc
    rw [List.mem_singleton.1 hc]
    exact ⟨0, Nat.zero_le _, rfl⟩

end Linkable

/-! ## Programs without data -/

/-- Opcodes that touch frames only: labels, `goto`, functions, returns, and calls without
arguments. -/
def bare : Opcode → Bool
  | .label _ | .goto _ | .function _ _ | .ret => true
  | .call _ args => args = 0
  | .arithmetic _ | .push _ _ | .pop _ _ | .ifGoto _ => false

/-- `bare` opcodes are disciplined if `256 ≤ LCL ≤ SP < bound`. -/
theorem Job.disciplined_of_bare {job : Job}
    (h : ∀ command ∈ job.commands, bare command.opcode = true) {bound : Nat} {m : Machine}
    (hlow : 256 ≤ (m.ram.reg .lcl).toNat)
    (hlcl : (m.ram.reg .lcl).toNat ≤ (m.ram.reg .sp).toNat) (hsp : (m.ram.reg .sp).toNat < bound)
    (calls : List Activation) : job.Disciplined bound calls m := by
  intro i action hact _
  obtain ⟨command, hmem, s, haction⟩ := hact.exists_mem
  refine ⟨hlow, hlcl, hsp, ?_⟩
  have hbare := h command hmem
  cases hop : command.opcode with
  | label name | goto name | function name locals | ret =>
    rw [hop] at haction
    cases haction
    trivial
  | call callee args =>
    rw [hop] at haction hbare
    cases haction
    have hzero : args = 0 := of_decide_eq_true hbare
    rw [hzero]
    exact hlcl
  | _ =>
    rw [hop] at hbare
    cases hbare

/-- A run through the bootstrap and one block is disciplined if it is so at the start of the block
and at its end. -/
theorem Job.disciplined_of_blocks {job : Job} {bound i k₁ k₂ : Nat} {m m₁ m₂ : Machine}
    {calls : List Activation} (hpc : m.pc.toNat < job.start 0) (h₁ : Runs k₁ m m₁)
    (hin₁ : Inside 0 (job.start 0) k₁ m) (h₂ : Runs k₂ m₁ m₂)
    (hin₂ : Inside (job.start i) (job.start (i + 1)) k₂ m₁)
    (hd₁ : job.Disciplined bound (job.openCalls k₁ m calls) m₁)
    (hd₂ : job.Disciplined bound (job.openCalls (k₁ + k₂) m calls) m₂) :
    ∀ k ≤ k₁ + k₂, ∀ m', Runs k m m' → job.Disciplined bound (job.openCalls k m calls) m' := by
  intro k hk m' hm'
  have hquiet : (∀ j, m'.pc.toNat ≠ job.start j) →
      job.Disciplined bound (job.openCalls k m calls) m' := fun hne j _ _ hj => absurd hj (hne j)
  have hfirst : ∀ j, job.start 0 ≤ job.start j := fun j => job.start_mono (Nat.zero_le j)
  rcases Nat.lt_trichotomy k k₁ with hlt | rfl | hgt
  · rcases Nat.eq_zero_or_pos k with rfl | hpos
    · rw [← runs_zero.1 hm'] at hquiet ⊢
      exact hquiet fun j => (hpc.trans_le (hfirst j)).ne
    · exact hquiet fun j => ((hin₁ k m' hpos hlt hm').2.trans_le (hfirst j)).ne
  · rwa [← h₁.unique hm']
  · have hrest := h₁.rest hgt.le hm'
    rcases (show k - k₁ ≤ k₂ by omega).lt_or_eq with hlt | heq
    · exact hquiet (start_ne_of_inside (hin₂ (k - k₁) m' (by omega) hlt hrest))
    · obtain rfl : k = k₁ + k₂ := by omega
      rw [heq] at hrest
      rwa [← h₂.unique hrest]

/-! ## The bootstrap and a call behind it -/

namespace Job

theorem reg_sp_booted (job : Job) (saved : Word) :
    (job.bootCall.ram.called 0 saved).reg .sp = 261 := by
  rw [Ram.called_sp, bootCall, Ram.reg_setReg_self]
  rfl

theorem reg_lcl_booted (job : Job) (saved : Word) :
    (job.bootCall.ram.called 0 saved).reg .lcl = 261 := by
  rw [Ram.called_lcl, bootCall, Ram.reg_setReg_self]
  rfl

theorem safe_call_booted (job : Job) (callee : String) (saved : Word) :
    (Action.call callee 0).Safe (job.bootCall.ram.called 0 saved) :=
  Action.safe_call (by rw [reg_sp_booted]; decide) (by rw [reg_sp_booted]; decide)

/-- `k₁` steps take `m` through the bootstrap to `m₁`, and `k₂` steps take `m₁` through the block of
command `i`, a call without arguments, to `m₂`. The frame of the call holds `saved` as its return
address. -/
structure BootsIntoCall (job : Job) (i : Nat) (saved : Word) (k₁ k₂ : Nat) (m m₁ m₂ : Machine) :
    Prop where
  pc : m.pc.toNat < job.start 0
  boots : Runs k₁ m m₁
  insideBoot : Inside 0 (job.start 0) k₁ m
  ram₁ : m₁.ram = job.bootCall.ram.called 0 (UInt16.ofNat (job.start 0))
  pc₁ : m₁.pc.toNat = job.start i
  call : ∃ callee, job.ActionAt i (.call callee 0)
  coded : job.start i < job.start (i + 1)
  calls : Runs k₂ m₁ m₂
  insideCall : Inside (job.start i) (job.start (i + 1)) k₂ m₁
  pos : 0 < k₂
  ram₂ : m₂.ram = m₁.ram.called 0 saved

namespace BootsIntoCall

variable {job : Job} {i k₁ k₂ : Nat} {saved : Word} {m m₁ m₂ : Machine}

theorem runs (h : job.BootsIntoCall i saved k₁ k₂ m m₁ m₂) : Runs (k₁ + k₂) m m₂ :=
  h.boots.trans h.calls

/-- The call of step `i` and `bootCall` are open at `m₂`. -/
theorem openCalls_eq (h : job.BootsIntoCall i saved k₁ k₂ m m₁ m₂) :
    job.openCalls (k₁ + k₂) m [job.bootCall] =
      [⟨job.start (i + 1), 0, m₁.ram⟩, job.bootCall] := by
  obtain ⟨callee, hact⟩ := h.call
  rw [openCalls_add h.boots, openCalls_of_bootstrap h.pc h.insideBoot h.boots,
    openCalls_of_inside (fun _ => start_ne_of_inside) h.insideCall h.pos h.calls,
    track_of_actionAt hact h.coded h.pc₁]
  rfl

/-- `SP` and `LCL` at `m₂`, two frames above 256. -/
theorem reg_after (h : job.BootsIntoCall i saved k₁ k₂ m m₁ m₂) :
    m₂.ram.reg .sp = 266 ∧ m₂.ram.reg .lcl = 266 := by
  rw [h.ram₂, Ram.called_sp, Ram.called_lcl, h.ram₁, reg_sp_booted]
  exact ⟨rfl, rfl⟩

theorem disciplined_after (h : job.BootsIntoCall i saved k₁ k₂ m m₁ m₂)
    (hbare : ∀ command ∈ job.commands, bare command.opcode = true) (calls : List Activation) :
    job.Disciplined ramSize calls m₂ := by
  obtain ⟨hsp, hlcl⟩ := h.reg_after
  exact disciplined_of_bare hbare (by rw [hlcl]; decide) (by rw [hlcl, hsp])
    (by rw [hsp]; decide) calls

/-- A job of `bare` opcodes is disciplined up to `m₂`. -/
theorem disciplined (h : job.BootsIntoCall i saved k₁ k₂ m m₁ m₂)
    (hbare : ∀ command ∈ job.commands, bare command.opcode = true) (calls : List Activation) :
    ∀ k ≤ k₁ + k₂, ∀ m', Runs k m m' → job.Disciplined ramSize (job.openCalls k m calls) m' := by
  have hsp : m₁.ram.reg .sp = 261 := by rw [h.ram₁, reg_sp_booted]
  have hlcl : m₁.ram.reg .lcl = 261 := by rw [h.ram₁, reg_lcl_booted]
  exact disciplined_of_blocks h.pc h.boots h.insideBoot h.calls h.insideCall
    (disciplined_of_bare hbare (by rw [hlcl]; decide) (by rw [hlcl, hsp]) (by rw [hsp]; decide) _)
    (h.disciplined_after hbare _)

/-- Both open calls are `Chained` at `m₂`, the inner one with return address `saved`. -/
theorem chained (h : job.BootsIntoCall i saved k₁ k₂ m m₁ m₂) :
    Chained [⟨saved.toNat, 0, m₁.ram⟩, job.bootCall] m₂.ram := by
  have hsp : m₁.ram.reg .sp = 261 := by rw [h.ram₁, reg_sp_booted]
  have hlcl : m₁.ram.reg .lcl = 261 := by rw [h.ram₁, reg_lcl_booted]
  constructor
  · have hholds := Activation.holds_called ⟨saved.toNat, 0, m₁.ram⟩
      (by simp only [hsp]; decide) (by simp only [hsp, hlcl]; decide) (by simp only [hsp]; decide)
    rwa [show UInt16.ofNat (Activation.resume ⟨saved.toNat, 0, m₁.ram⟩) = saved from
      UInt16.ofNat_toNat, ← h.ram₂] at hholds
  · rw [show Activation.ram ⟨saved.toNat, 0, m₁.ram⟩ = m₁.ram from rfl, h.ram₁]
    exact job.chained_boot

end BootsIntoCall

end Job

/-! ## Returns -/

/-- **Returns match calls.** Let a run from the start of a bootstrapped program be disciplined at
every command up to a return. Then some call is open, and the return goes to the address behind the
innermost one: `SP` is one above where the arguments began, with the result on top, and the four
pointers and the stack below the arguments are as before the call. -/
theorem returns_match_calls {job : Job} {program : Program} {entry : Entry}
    (h : Linkable job program) (hfuse : job.options.fuse = false) (htitled : job.Titled)
    (hentry : job.entry = some entry) {bound : Nat} (hbound : bound ≤ ramSize) {n i : Nat}
    {m : Machine} (hruns : Runs n (boot program) m)
    (hd : ∀ k ≤ n, ∀ m', Runs k (boot program) m' →
      job.Disciplined bound (job.openCalls k (boot program) [job.bootCall]) m')
    (hact : job.ActionAt i .ret) (hpc : m.pc.toNat = job.start i) :
    ∃ c rest, job.openCalls n (boot program) [job.bootCall] = c :: rest ∧
      Leaves (job.start i) (job.start (i + 1)) m fun m' =>
        m'.pc.toNat = c.resume ∧ m'.ram.reg .sp = c.ram.reg .sp - c.args + 1 ∧
        (∀ r ∈ [Register.lcl, .arg, .this, .that], m'.ram.reg r = c.ram.reg r) ∧
        m'.ram.get (m'.ram.reg .sp - 1) = m.ram.get (m.ram.reg .sp - 1) ∧
        ∀ a : Word, 256 ≤ a.toNat → a.toNat + c.args.toNat < (c.ram.reg .sp).toNat →
          m'.ram.get a = c.ram.get a := by
  obtain ⟨hi, -⟩ := id hact
  have hcoded : job.start i < job.start (i + 1) := by
    obtain ⟨code, hemits, hcount, -⟩ := h.emits htitled hact
    cases hemits
    rw [hcount]
    exact Nat.lt_add_of_pos_right (by decide)
  -- The run passes the bootstrap, which is no command.
  obtain ⟨hzero, hleaves⟩ := h.leaves_boot htitled hentry
  have hfirst : ∀ j, job.start 0 ≤ job.start j := fun j => job.start_mono (Nat.zero_le j)
  have hn : 0 < n := by
    rw [Nat.pos_iff_ne_zero]
    rintro rfl
    rw [← runs_zero.1 hruns] at hpc
    exact absurd (hfirst i) (by omega)
  obtain ⟨k, m₁, hk, hkn, hruns₁, hin, hram₁, hpc₁⟩ :=
    hleaves.of_runs hzero hn hruns fun hin => absurd (hfirst i) (by omega)
  have hadd : ∀ l, job.openCalls (k + l) (boot program) [job.bootCall] =
      job.openCalls l m₁ [job.bootCall] := fun l => by
    rw [Job.openCalls_add hruns₁, Job.openCalls_of_bootstrap hzero hin hruns₁]
  have hs : job.Ordered program (job.openCalls n (boot program) [job.bootCall]) m := by
    rw [← Nat.add_sub_cancel' hkn, hadd]
    refine h.ordered_of_runs htitled hfuse hbound hi hcoded
      (h.ordered_boot htitled hentry hruns₁.rom hram₁ hpc₁) (hruns₁.rest hkn hruns) hpc
      fun l hl m₂ hm₂ => ?_
    rw [← hadd]
    exact hd (k + l) (by omega) m₂ (hruns₁.trans hm₂)
  have hdisc := hd n le_rfl m hruns i .ret hact hpc
  have hsafe : Action.ret.Safe m.ram :=
    ⟨hdisc.rooted hbound hs.chained, fun cell hcell => absurd hcell List.not_mem_nil⟩
  obtain ⟨c, rest, heq⟩ := hs.chained.exists_cons hdisc.1
  have hchain := hs.chained
  rw [heq] at hchain
  obtain ⟨j, -, hresume⟩ := hs.resumes c (by rw [heq]; exact List.mem_cons_self)
  obtain ⟨hback, hreturned⟩ := hchain.1.returned
  refine ⟨c, rest, heq, (h.leaves htitled hact hs.rom hpc hsafe.runnable).imp fun m' hdone => ?_⟩
  rw [show m'.ram = m.ram.returned from hdone.1]
  refine ⟨?_, hreturned⟩
  rw [show m'.pc = m.ram.resumption from hdone.2, hback, hresume]
  exact h.toNat_start htitled j

/-- In `nestedJob` the bootstrap calls `f` and `f` calls `g`; `m₂` is at the return of `g`. -/
theorem bootsIntoCall_nestedJob {program : Program} (h : Linkable nestedJob program) :
    ∃ k₁ k₂ m₁ m₂, nestedJob.BootsIntoCall 1 (UInt16.ofNat (nestedJob.start 2)) k₁ k₂
        (boot program) m₁ m₂ ∧ m₂.pc.toNat = nestedJob.start 3 := by
  have ht := titled_nestedJob
  have hstarts : nestedJob.start 0 = nestedJob.start 1 ∧ nestedJob.start 1 < nestedJob.start 2 ∧
      nestedJob.start 2 = nestedJob.start 3 := by decide +kernel
  have hf : nestedJob.Marks 0 "f" :=
    Job.marks_of_step (by rw [← List.getElem?_map, steps_nestedJob]; rfl) rfl
  have hg : nestedJob.Marks 2 "g" :=
    Job.marks_of_step (by rw [← List.getElem?_map, steps_nestedJob]; rfl) rfl
  have hcall : nestedJob.ActionAt 1 (.call "g" 0) :=
    Job.actionAt_of_step (by rw [← List.getElem?_map, steps_nestedJob]; rfl) fun _ => rfl
  have hentry : nestedJob.entry = some ⟨"M", "f"⟩ := rfl
  obtain ⟨hzero, k₁, m₁, h₁, hin₁, -, hram₁, hpc₁⟩ := h.leaves_boot ht hentry
  have hpc₁ : m₁.pc.toNat = nestedJob.start 1 := by
    rw [hpc₁, h.labelsOf_of_marks ht hf, ← hstarts.1]
    exact h.toNat_start ht 0
  have hsafe : (Action.call "g" 0).Safe m₁.ram := hram₁ ▸ nestedJob.safe_call_booted ..
  obtain ⟨k₂, m₂, h₂, hin₂, hpos₂, hram₂, hpc₂⟩ := h.leaves ht hcall h₁.rom hpc₁ hsafe.runnable
  refine ⟨k₁, k₂, m₁, m₂, ⟨hzero, h₁, hin₁, hram₁, hpc₁, ⟨_, hcall⟩, hstarts.2.1, h₂, hin₂,
    hpos₂ hstarts.2.1, hram₂⟩, ?_⟩
  rw [hpc₂, ← hstarts.2.2]
  exact (congrArg UInt16.toNat (h.labelsOf_of_marks ht hg)).trans (h.toNat_start ht 2)

theorem returns_match_calls_nested : ∃ program, Linkable nestedJob program ∧
    ∃ n m, Runs n (boot program) m ∧ m.pc.toNat = nestedJob.start 3 ∧
      Leaves (nestedJob.start 3) (nestedJob.start 4) m fun m' =>
        m'.pc.toNat = nestedJob.start 2 ∧ m'.ram.reg .sp = 262 := by
  obtain ⟨program, h⟩ := exists_linkable_nestedJob
  obtain ⟨k₁, k₂, m₁, m₂, hboots, hpc⟩ := bootsIntoCall_nestedJob h
  have hret : nestedJob.ActionAt 3 .ret :=
    Job.actionAt_of_step (by rw [← List.getElem?_map, steps_nestedJob]; rfl) fun _ => rfl
  obtain ⟨c, rest, hcalls, hleaves⟩ := returns_match_calls h rfl titled_nestedJob rfl le_rfl
    hboots.runs (hboots.disciplined (by decide +kernel) _) hret hpc
  rw [hboots.openCalls_eq] at hcalls
  obtain ⟨rfl, -⟩ := List.cons.inj hcalls
  refine ⟨program, h, k₁ + k₂, m₂, hboots.runs, hpc, hleaves.imp ?_⟩
  rintro m' ⟨hpc', hsp', -⟩
  simp only [hboots.ram₁, Job.reg_sp_booted] at hpc' hsp'
  exact ⟨hpc', hsp'⟩

/-- A bootstrapped job whose module name cuts a return label short. -/
def cutCallJob : Job := ⟨{ fuse := false }, some ⟨"A", "f"⟩,
  [("A)//", "function f 0\ncall g 0\nlabel end\ngoto end\nfunction g 0\nreturn")]⟩

/-- The values of the names in the text of `cutCallJob`. -/
def cutCallLabels (name : String) : Word :=
  if name = "end" then 84 else if name = "g" then 86 else if name = "A)" then 16 else 44

/-- The code of `cutCallJob` as it is read. -/
def cutCallCode : List Inst :=
  bootSetup "f" "Boot.f$ret.0" ++ [.jump] ++
    (callSetup "g" 0 "A)" ++ [.jump] ++ (goto "end" ++ ret))

theorem exists_linkable_cutCallJob : ∃ program, Linkable cutCallJob program ∧
    program.ops.toList = cutCallCode.filterMap (Inst.op? cutCallLabels) := by
  refine exists_linkable_of_ops (by decide +kernel) ?_ (by decide +kernel) (by decide +kernel)
  rw [assemble, statements, Artifact.text, toList_render]
  decide +kernel

theorem steps_cutCallJob : cutCallJob.layout.map Placed.step =
    [.single ⟨.function "f" 0, "function f 0", ⟨"A)//", 1⟩⟩,
      .single ⟨.call "g" 0, "call g 0", ⟨"A)//", 2⟩⟩,
      .single ⟨.label "end", "label end", ⟨"A)//", 3⟩⟩,
      .single ⟨.goto "end", "goto end", ⟨"A)//", 4⟩⟩,
      .single ⟨.function "g" 0, "function g 0", ⟨"A)//", 5⟩⟩,
      .single ⟨.ret, "return", ⟨"A)//", 6⟩⟩] := by
  decide +kernel

theorem starts_cutCallJob : [0, 1, 2, 5, 6].map cutCallJob.start = [44, 44, 84, 86, 128] := by
  decide +kernel

/-- In `cutCallJob` the frame of `g` has the return address 16, that of a variable. -/
theorem bootsIntoCall_cutCallJob {program : Program}
    (hcode : HoldsAt cutCallLabels program.ops 0 cutCallCode) (hsize : program.ops.size < 65536) :
    ∃ k₁ k₂ m₁ m₂, cutCallJob.BootsIntoCall 1 16 k₁ k₂ (boot program) m₁ m₂ ∧
      m₂.pc.toNat = 86 := by
  have hstarts := starts_cutCallJob
  simp only [List.map_cons, List.map_nil, List.cons.injEq, and_true] at hstarts
  obtain ⟨hstart₀, hstart₁, hstart₂, -, -⟩ := hstarts
  have hcall : cutCallJob.ActionAt 1 (.call "g" 0) :=
    Job.actionAt_of_step (by rw [← List.getElem?_map, steps_cutCallJob]; rfl) fun _ => rfl
  obtain ⟨d, hexec⟩ := exec_bootSetup cutCallLabels "f" "Boot.f$ret.0" (boot program).store
  obtain ⟨k₁, m₁, h₁, hin₁, -, hram₁, hpc₁⟩ :=
    leaves_of_jump (m := boot program) hcode.left hsize hexec
  have hpc₁ : m₁.pc.toNat = 44 := congrArg UInt16.toNat hpc₁
  have hram₁ : m₁.ram = cutCallJob.bootCall.ram.called 0 (UInt16.ofNat (cutCallJob.start 0)) := by
    rw [hram₁, hstart₀]
    rfl
  have hcode₁ : HoldsAt cutCallLabels m₁.rom m₁.pc.toNat
      (callSetup "g" 0 "A)" ++ [.jump] ++ (goto "end" ++ ret)) := by
    rw [h₁.rom, hpc₁]
    exact hcode.right
  have hsafe : (Action.call "g" 0).Safe m₁.ram := hram₁ ▸ cutCallJob.safe_call_booted ..
  have hexec₁ : ∃ d, exec cutCallLabels (callSetup "g" 0 "A)") m₁.store =
      some ⟨m₁.ram.called 0 16, 86, d⟩ :=
    exec_callSetup cutCallLabels fun i hi => hsafe.1 _ (List.mem_map_of_mem (List.mem_range.2 hi))
  obtain ⟨d₁, hexec₁⟩ := hexec₁
  obtain ⟨k₂, m₂, h₂, hin₂, hpos₂, hram₂, hpc₂⟩ :=
    leaves_of_jump hcode₁.left (by rw [h₁.rom]; exact hsize) hexec₁
  have hend₁ : m₁.pc.toNat + instructionCount (callSetup "g" 0 "A)") + 1 = 84 := by
    rw [hpc₁]
    rfl
  rw [hend₁, hpc₁] at hin₂ hpos₂
  refine ⟨k₁, k₂, m₁, m₂, ⟨?_, h₁, ?_, hram₁, ?_, ⟨_, hcall⟩, ?_, h₂, ?_, hpos₂ (by decide),
    hram₂⟩, congrArg UInt16.toNat hpc₂⟩
  · rw [hstart₀]
    exact Nat.succ_pos 43
  · rw [hstart₀]
    exact hin₁
  · rw [hpc₁, hstart₁]
  · rw [hstart₁, hstart₂]
    decide
  · rw [hstart₁, hstart₂]
    exact hin₂

/-- Without `Titled` returns miss their calls: in `cutCallJob` the return goes to 16. -/
theorem not_returns_cut_return_label :
    ¬∀ (job : Job) (program : Program) (entry : Entry), Linkable job program →
      job.options.fuse = false → job.entry = some entry → ∀ bound ≤ ramSize, ∀ n i m,
      Runs n (boot program) m →
      (∀ k ≤ n, ∀ m', Runs k (boot program) m' →
        job.Disciplined bound (job.openCalls k (boot program) [job.bootCall]) m') →
      job.ActionAt i .ret → m.pc.toNat = job.start i →
      ∃ c rest, job.openCalls n (boot program) [job.bootCall] = c :: rest ∧
        Leaves (job.start i) (job.start (i + 1)) m fun m' =>
          m'.pc.toNat = c.resume ∧ m'.ram.reg .sp = c.ram.reg .sp - c.args + 1 ∧
          (∀ r ∈ [Register.lcl, .arg, .this, .that], m'.ram.reg r = c.ram.reg r) ∧
          m'.ram.get (m'.ram.reg .sp - 1) = m.ram.get (m.ram.reg .sp - 1) ∧
          ∀ a : Word, 256 ≤ a.toNat → a.toNat + c.args.toNat < (c.ram.reg .sp).toNat →
            m'.ram.get a = c.ram.get a := by
  intro hall
  obtain ⟨program, h, hops⟩ := exists_linkable_cutCallJob
  have hcode : HoldsAt cutCallLabels program.ops 0 cutCallCode := by
    refine ⟨[], [], ?_, rfl⟩
    rw [List.nil_append, List.append_nil]
    exact hops
  obtain ⟨k₁, k₂, m₁, m₂, hboots, hpc₂⟩ := bootsIntoCall_cutCallJob hcode h.size
  have hstarts := starts_cutCallJob
  simp only [List.map_cons, List.map_nil, List.cons.injEq, and_true] at hstarts
  obtain ⟨-, -, hstart₂, hstart₅, hstart₆⟩ := hstarts
  have hret : cutCallJob.ActionAt 5 .ret :=
    Job.actionAt_of_step (by rw [← List.getElem?_map, steps_cutCallJob]; rfl) fun _ => rfl
  have hpc : m₂.pc.toNat = cutCallJob.start 5 := by rw [hpc₂, hstart₅]
  have hbare : ∀ command ∈ cutCallJob.commands, bare command.opcode = true := by decide +kernel
  have hrom : m₂.rom = program.ops := hboots.runs.rom
  -- The return goes to what the frame of `g` holds.
  have hback : m₂.ram.resumption = 16 := hboots.chained.1.returned.1
  have hsafe : Action.ret.Safe m₂.ram :=
    ⟨(hboots.disciplined_after hbare [] 5 .ret hret hpc).rooted le_rfl hboots.chained,
      fun cell hcell => absurd hcell List.not_mem_nil⟩
  have hcode₂ : HoldsAt cutCallLabels m₂.rom m₂.pc.toNat ret := by
    rw [hrom, hpc₂]
    exact hcode.right.right.right
  have hactual := leaves_ret hcode₂ (by rw [hrom]; exact h.size) hsafe.runnable
  rw [hpc₂, show 86 + instructionCount ret = 128 from rfl] at hactual
  obtain ⟨c, rest, hcalls, hclaim⟩ := hall cutCallJob program ⟨"A", "f"⟩ h rfl rfl ramSize le_rfl
    (k₁ + k₂) 5 m₂ hboots.runs (hboots.disciplined hbare _) hret hpc
  rw [hboots.openCalls_eq] at hcalls
  obtain ⟨rfl, -⟩ := List.cons.inj hcalls
  simp only [hstart₂, hstart₅, hstart₆] at hclaim
  obtain ⟨m', hdone, hmissed⟩ := hactual.and hclaim (by decide)
    (fun m' hdone => by
      rw [show m'.pc = m₂.ram.resumption from hdone.2, hback]
      decide)
    (fun m' hmissed => by rw [hmissed.1]; decide)
  have hpc' := hmissed.1
  rw [show m'.pc = m₂.ram.resumption from hdone.2, hback] at hpc'
  exact absurd hpc' (by decide)

end Compile

end HackVM
