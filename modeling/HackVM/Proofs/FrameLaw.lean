/-
  The life of one frame. A call and the entry of its function give `Ram.Opened` memory: the frame,
  zeros for the locals behind it, and no other cell changed. A return in any memory that is still
  `Framed` leads to the return label and gives `Ram.Restored` memory. Lines of the program may be
  rejected, and pairs may be fused.
-/
import Mathlib
import HackVM.Proofs.Frames
import HackVM.Proofs.Simulation

namespace HackVM

open Assembly Compile

/-! ## Memory -/

namespace Ram

variable {ram : Ram} {args resume locals a : Word}

/-- `called` changes `SP`, `LCL`, `ARG` and the five cells of its frame only. -/
theorem get_called_of_other (ha : inRange a = true)
    (hne : ∀ r ∈ [Register.sp, .lcl, .arg], a ≠ r.address)
    (hfits : (ram.reg .sp).toNat + 5 ≤ ramSize)
    (hout : a.toNat < (ram.reg .sp).toNat ∨ (ram.reg .sp).toNat + 5 ≤ a.toNat) :
    (ram.called args resume).get a = ram.get a := by
  rw [called, get_setReg_of_ne ha (hne _ (by decide)), get_setReg_of_ne ha (hne _ (by decide)),
    get_setReg_of_ne ha (hne _ (by decide)), get_stored_of_outside hfits ha hout]

theorem called_arg : (ram.called args resume).reg .arg = ram.reg .sp - args := by
  rw [called, reg_setReg_of_ne (by decide), reg_setReg_self]

/-- `entered` changes `SP` and the cells of the locals only. -/
theorem get_entered_of_other (ha : inRange a = true) (hne : a ≠ Register.sp.address)
    (hfits : (ram.reg .sp).toNat + locals.toNat ≤ ramSize)
    (hout : a.toNat < (ram.reg .sp).toNat ∨ (ram.reg .sp).toNat + locals.toNat ≤ a.toNat) :
    (ram.entered locals).get a = ram.get a := by
  have hlength : (List.replicate locals.toNat (0 : Word)).length = locals.toNat :=
    List.length_replicate
  rw [entered, get_setReg_of_ne ha hne, zeroed_eq_stored,
    get_stored_of_outside (by rwa [hlength]) ha (by rwa [hlength])]

theorem get_entered (hsp : OnStack (ram.reg .sp))
    (hfits : (ram.reg .sp).toNat + locals.toNat ≤ ramSize) {i : Nat} (hi : i < locals.toNat) :
    (ram.entered locals).get (ram.reg .sp + UInt16.ofNat i) = 0 := by
  have hlength : (List.replicate locals.toNat (0 : Word)).length = locals.toNat :=
    List.length_replicate
  rw [entered, get_setReg_onStack (hsp.add (by omega)) (by decide), zeroed_eq_stored,
    get_stored (by rwa [hlength]) (by rwa [hlength]), List.getElem_replicate]

/-- `ram` is `before` after a call and the function's entry: it is `Framed`, `locals` zeros stand
behind the frame with `SP` above them, and no other cell has changed. -/
structure Opened (before : Ram) (args locals resume : Word) (ram : Ram) : Prop where
  framed : Framed before args resume ram
  sp : ram.reg .sp = before.reg .sp + 5 + locals
  zeros : ram.window (before.reg .sp + 5) locals.toNat = List.replicate locals.toNat 0
  other : ∀ a, inRange a = true → (∀ r ∈ [Register.sp, .lcl, .arg], a ≠ r.address) →
    a.toNat < (before.reg .sp).toNat ∨ (before.reg .sp).toNat + 5 + locals.toNat ≤ a.toNat →
    ram.get a = before.get a

/-- `called` followed by `entered` gives `Opened`. -/
theorem opened_called (before : Ram) (args resume : Word) {locals : Word}
    (hlow : 15 ≤ (before.reg .sp).toNat)
    (hfits : (before.reg .sp).toNat + 5 + locals.toNat ≤ ramSize) :
    Opened before args locals resume ((before.called args resume).entered locals) := by
  have hfive : (5 : Word) = UInt16.ofNat 5 := rfl
  have hcall : (before.reg .sp).toNat + 5 ≤ ramSize := by omega
  have hstack : OnStack (before.reg .sp) := ⟨hlow, by omega⟩
  have hsum : (before.reg .sp + 5).toNat = (before.reg .sp).toNat + 5 := by
    rw [hfive, hstack.toNat_add (by decide)]
  have hsp : ((before.called args resume).reg .sp).toNat = (before.reg .sp).toNat + 5 := by
    rw [called_sp, hsum]
  have henter : ((before.called args resume).reg .sp).toNat + locals.toNat ≤ ramSize := by omega
  have hreg : ∀ r : Register, r ≠ .sp → ((before.called args resume).entered locals).reg r =
      (before.called args resume).reg r := by
    intro r hr
    have := toNat_address_lt r
    exact get_entered_of_other (inRange_address r) (mt address_inj.1 hr) henter (.inl (by omega))
  refine ⟨⟨?_, ?_, ?_⟩, ?_, ?_, fun a ha hne hout => ?_⟩
  · rw [hreg _ (by decide), called_lcl]
  · rw [hreg _ (by decide), called_arg]
  · change window _ (before.reg .sp) (before.frame resume).length = _
    refine window_eq_iff.2 fun i hi => ?_
    have hlt : i < 5 := hi
    have hcell := hstack.toNat_add (i := i) (by simp only [ramSize]; omega)
    have hon : OnStack (before.reg .sp + UInt16.ofNat i) := hstack.add (by omega)
    rw [get_entered_of_other hon.inRange hon.ne_sp henter (.inl (by omega)),
      get_called_frame hstack hcall hi]
  · rw [entered, reg_setReg_self, called_sp]
  · refine List.ext_getElem (by simp [window]) fun i hi _ => ?_
    have hlt : i < locals.toNat := by simpa [window] using hi
    have hzero := get_entered (i := i) (⟨by omega, by omega⟩ :
      OnStack ((before.called args resume).reg .sp)) henter hlt
    rw [called_sp] at hzero
    rw [List.getElem_replicate, ← hzero]
    simp [window]
  · rw [get_entered_of_other ha (hne _ (by decide)) henter (by omega),
      get_called_of_other ha hne hcall (by omega)]

/-- A return is `Runnable` in a `Framed` memory. -/
theorem Framed.runnable {before : Ram} (h : Framed before args resume ram)
    (hlow : 15 + args.toNat ≤ (before.reg .sp).toNat)
    (hfits : (before.reg .sp).toNat + 5 ≤ ramSize) (htop : OnStack (ram.reg .sp - 1)) :
    Action.ret.Runnable ram := by
  have hsp : OnStack (before.reg .sp) := ⟨by omega, by omega⟩
  have hsaved : ∀ {w : Word} {i : Nat}, 5 - w = UInt16.ofNat i → i < 5 →
      OnStack (ram.reg .lcl - w) := by
    intro w i hi hlt
    rw [(h.get_frame hi hlt).1]
    exact hsp.add (by omega)
  refine Action.Safe.runnable ⟨fun cell hcell => ?_, fun _ hcell => absurd hcell List.not_mem_nil⟩
  simp only [Action.stackCells, List.map_cons, List.map_nil, List.mem_append, List.mem_cons,
    List.not_mem_nil, or_false] at hcell
  rcases hcell with (rfl | rfl) | rfl | rfl | rfl | rfl | rfl
  · exact htop
  · exact (h.onStack_arg hlow hfits).1
  · exact hsaved (i := 4) rfl (by decide)
  · exact hsaved (i := 3) rfl (by decide)
  · exact hsaved (i := 2) rfl (by decide)
  · exact hsaved (i := 1) rfl (by decide)
  · exact hsaved (i := 0) rfl (by decide)

end Ram

/-! ## Code -/

namespace Compile

open Rom Machine

namespace Job

/-- Step `i` is a single command with the given opcode. -/
def OpcodeAt (job : Job) (i : Nat) (opcode : Opcode) : Prop :=
  ∃ (hi : i < job.layout.length) (command : Command),
    job.layout[i].step = .single command ∧ command.opcode = opcode

theorem opcodeAt_of_steps {job : Job} {steps : List Step} {i : Nat} {command : Command}
    (hsteps : job.layout.map Placed.step = steps) (hstep : steps[i]? = some (.single command)) :
    job.OpcodeAt i command.opcode := by
  rw [← hsteps, List.getElem?_map] at hstep
  obtain ⟨placed, hplaced, hsingle⟩ := Option.map_eq_some_iff.1 hstep
  obtain ⟨hi, rfl⟩ := List.getElem?_eq_some_iff.1 hplaced
  exact ⟨hi, command, hsingle, rfl⟩

/-- The return label of a call at step `i`. -/
def returnLabel (job : Job) (i : Nat) (callee : String) : String :=
  let s := (job.layout[i]?.map Placed.state).getD {}
  Label.callReturn s.moduleName callee s.calls

end Job

namespace Linked

variable {job : Job} {program : Program}

/-- An opcode that is never refused `Stands` in the ROM. -/
theorem stands_of_lower (h : Linked job program) (ht : job.Titled) {i : Nat} {opcode : Opcode}
    (hi : job.OpcodeAt i opcode) (hlower : ∀ s, ∃ lowered, lower s opcode = .ok lowered)
    {action : Action} (haction : ∀ s, Action.of s opcode = .ok action) :
    job.Stands program i action := by
  obtain ⟨hi, command, hstep, rfl⟩ := hi
  obtain ⟨lowered, hlowered⟩ := hlower job.layout[i].state
  exact h.stands ht hi (lowers_of_lower hlowered) (Job.code_of_lower hi hstep hlowered) (haction _)

theorem stands_call (h : Linked job program) (ht : job.Titled) {i : Nat} {callee : String}
    {args : Word} (hi : job.OpcodeAt i (.call callee args)) (hargs : args.toNat < argumentLimit) :
    job.Stands program i (.call callee args) :=
  h.stands_of_lower ht hi (fun _ => ⟨_, if_pos hargs⟩) fun _ => rfl

/-- The return label of a call has the address `job.start (i + 1)`. -/
theorem labelsOf_returnLabel (h : Linked job program) (ht : job.Titled) {i : Nat} {callee : String}
    {args : Word} (hi : job.OpcodeAt i (.call callee args)) (hargs : args.toNat < argumentLimit) :
    labelsOf program.symbols (job.returnLabel i callee) = UInt16.ofNat (job.start (i + 1)) := by
  obtain ⟨hi, command, hstep, hopcode⟩ := hi
  have hlower : lower job.layout[i].state command.opcode = .ok
      ⟨call callee args (job.returnLabel i callee),
        { job.layout[i].state with calls := job.layout[i].state.calls + 1 },
        [.numberedCall callee args (job.returnLabel i callee)]⟩ := by
    rw [hopcode, Job.returnLabel, List.getElem?_eq_getElem hi]
    exact if_pos hargs
  obtain ⟨hcount, -, hbinds⟩ := h.holdsAt_uncommented ht hi (Job.code_of_lower hi hstep hlower)
  rw [call_eq] at hcount hbinds
  rw [hcount, hbinds (callSetup callee args (job.returnLabel i callee) ++ [.jump])
    (job.returnLabel i callee) [] (by simp)]
  rw [instructionCount_append, instructionCount_append]
  rfl

/-- The block of a call is left at the callee, with memory `called`. -/
theorem leaves_call (h : Linked job program) (ht : job.Titled) {i j : Nat} {callee : String}
    {args : Word} (hi : job.OpcodeAt i (.call callee args)) (hargs : args.toNat < argumentLimit)
    (hj : job.Marks j callee) {m : Machine} (hrom : m.rom = program.ops)
    (hpc : m.pc.toNat = job.start i) (hsp : Ram.OnStack (m.ram.reg .sp))
    (hfits : (m.ram.reg .sp).toNat + 5 ≤ ramSize) :
    Leaves (job.start i) (job.start (i + 1)) m fun m' => m'.pc.toNat = job.start j ∧
      m'.ram = m.ram.called args (UInt16.ofNat (job.start (i + 1))) := by
  have hrun : (Action.call callee args).Runnable m.ram := (Action.safe_call hsp hfits).runnable
  refine ((h.stands_call ht hi hargs).leaves h.size hrom hpc hrun).imp fun m' hdone => ?_
  refine ⟨?_, hdone.1⟩
  rw [hdone.2, show (Action.call callee args).next m.ram = .jump callee from rfl, Next.address,
    h.labelsOf_of_marks ht hj, h.toNat_start ht j]

/-- The block of a function is left behind it, with memory `entered`. -/
theorem leaves_function (h : Linked job program) (ht : job.Titled) {j : Nat} {name : String}
    {locals : Word} (hj : job.OpcodeAt j (.function name locals)) {m : Machine}
    (hrom : m.rom = program.ops) (hpc : m.pc.toNat = job.start j)
    (hsp : Ram.OnStack (m.ram.reg .sp))
    (hfits : (m.ram.reg .sp).toNat + locals.toNat ≤ ramSize) :
    Leaves (job.start j) (job.start (j + 1)) m fun m' => m'.pc.toNat = job.start (j + 1) ∧
      m'.ram = m.ram.entered locals := by
  have hrun : (Action.function name locals).Runnable m.ram := by
    refine Action.Safe.runnable ⟨fun cell hcell => ?_, fun _ hcell => absurd hcell List.not_mem_nil⟩
    obtain ⟨i, hi, rfl⟩ := List.mem_map.1 hcell
    have := List.mem_range.1 hi
    exact hsp.add (by omega)
  have hstands : job.Stands program j (.function name locals) :=
    h.stands_of_lower ht hj (fun _ => ⟨_, rfl⟩) fun _ => rfl
  refine (hstands.leaves h.size hrom hpc hrun).imp fun m' hdone => ⟨?_, hdone.1⟩
  rw [hdone.2]
  exact h.toNat_start ht (j + 1)

end Linked

/-- **Frames.** In a `Linked`, `Titled` job, a call of `f` with `k` arguments followed by the entry
of `f` with `n` locals gives `Opened` memory, whose frame holds the address of the return label
behind the call. A return in any later state that is still `Framed` leads to the return label and
gives `Restored` memory. -/
theorem frame_law {job : Job} {program : Program} (h : Linked job program) (ht : job.Titled)
    {i j : Nat} {f : String} {k n : Word} (hcall : job.OpcodeAt i (.call f k))
    (hk : k.toNat < argumentLimit) (hfunction : job.OpcodeAt j (.function f n)) {m : Machine}
    (hrom : m.rom = program.ops) (hpc : m.pc.toNat = job.start i)
    (hlow : 15 + k.toNat ≤ (m.ram.reg .sp).toNat)
    (hhigh : (m.ram.reg .sp).toNat + 5 + n.toNat ≤ 32767) :
    labelsOf program.symbols (job.returnLabel i f) = UInt16.ofNat (job.start (i + 1)) ∧
    (Leaves (job.start i) (job.start (i + 1)) m fun m₁ => m₁.pc.toNat = job.start j ∧
      Leaves (job.start j) (job.start (j + 1)) m₁ fun m₂ => m₂.pc.toNat = job.start (j + 1) ∧
        Ram.Opened m.ram k n (UInt16.ofNat (job.start (i + 1))) m₂.ram) ∧
    ∀ r, job.OpcodeAt r .ret → ∀ m₁ : Machine, m₁.rom = program.ops → m₁.pc.toNat = job.start r →
      Ram.Framed m.ram k (UInt16.ofNat (job.start (i + 1))) m₁.ram →
      16 ≤ (m₁.ram.reg .sp).toNat → (m₁.ram.reg .sp).toNat ≤ 32768 →
      Leaves (job.start r) (job.start (r + 1)) m₁ fun m₂ => m₂.pc.toNat = job.start (i + 1) ∧
        Ram.Restored m.ram k m₁.ram m₂.ram := by
  have hsize : ramSize = 32768 := rfl
  have hsp : Ram.OnStack (m.ram.reg .sp) := ⟨by omega, by omega⟩
  refine ⟨h.labelsOf_returnLabel ht hcall hk, ?_, ?_⟩
  · have hmark : job.Marks j f := by
      obtain ⟨hj, command, hstep, hopcode⟩ := hfunction
      exact ⟨hj, command, hstep, by rw [hopcode]; rfl⟩
    obtain ⟨count, m₁, hruns, hin, hpos, hpc₁, hram₁⟩ :=
      h.leaves_call ht hcall hk hmark hrom hpc hsp (by omega)
    refine ⟨count, m₁, hruns, hin, hpos, hpc₁, ?_⟩
    have hsp₁ : (m₁.ram.reg .sp).toNat = (m.ram.reg .sp).toNat + 5 := by
      rw [hram₁, Ram.called_sp]
      exact hsp.toNat_add (i := 5) (by decide)
    refine (h.leaves_function ht hfunction (hruns.rom.trans hrom) hpc₁ ⟨by omega, by omega⟩
      (by omega)).imp fun m₂ hm₂ => ⟨hm₂.1, ?_⟩
    rw [hm₂.2, hram₁]
    exact Ram.opened_called m.ram k _ hsp.1 (by omega)
  · intro r hr m₁ hrom₁ hpc₁ hframed hmin hmax
    have htop : Ram.OnStack (m₁.ram.reg .sp - 1) := by
      have hone : (1 : Word).toNat = 1 := rfl
      have hle : 1 ≤ m₁.ram.reg .sp := UInt16.le_iff_toNat_le.2 (by omega)
      have hnat := UInt16.toNat_sub_of_le (m₁.ram.reg .sp) 1 hle
      exact ⟨by omega, by omega⟩
    have hstands : job.Stands program r .ret :=
      h.stands_of_lower ht hr (fun _ => ⟨_, rfl⟩) fun _ => rfl
    obtain ⟨hback, hrestored⟩ := hframed.restored hlow (by omega)
    refine (hstands.leaves h.size hrom₁ hpc₁ (hframed.runnable hlow (by omega) htop)).imp
      fun m₂ hdone => ⟨?_, ?_⟩
    · rw [hdone.2, show Action.ret.next m₁.ram = .resume m₁.ram.resumption from rfl, Next.address,
        hback, h.toNat_start ht (i + 1)]
    · rw [hdone.1]
      exact hrestored

/-- A job with a call that passes an argument, a rejected line, and a function with locals. -/
def frameJob : Job :=
  ⟨{}, none, [("M",
    "push constant 7\ncall f 1\npush here 3\nfunction f 2\npush constant 1\nreturn")]⟩

theorem frame_law_frameJob : ∃ program, Linked frameJob program ∧ frameJob.Titled ∧
    frameJob.artifact.report.diagnostics.length = 1 ∧
    ∃ n m₁ k m₂, Runs n { boot program with
        pc := UInt16.ofNat (frameJob.start 1), ram := Ram.blank.setReg .sp 257 } m₁ ∧
      m₁.pc.toNat = frameJob.start 4 ∧
      Ram.Opened (Ram.blank.setReg .sp 257) 1 2 (UInt16.ofNat (frameJob.start 2)) m₁.ram ∧
      Runs k { m₁ with pc := UInt16.ofNat (frameJob.start 5) } m₂ ∧
      m₂.pc.toNat = frameJob.start 2 ∧
      Ram.Restored (Ram.blank.setReg .sp 257) 1 m₁.ram m₂.ram := by
  obtain ⟨program, hprogram, hsmall⟩ : ∃ program,
      (assemble frameJob.artifact.text).1 = .ok program ∧
        decide (program.ops.size < 65536) = true := by
    refine exists_assembled ?_
    rw [assemble, statements, Artifact.text, toList_render]
    decide +kernel
  have hlink : Linked frameJob program :=
    ⟨by decide +kernel, hprogram, of_decide_eq_true hsmall⟩
  have htitled : frameJob.Titled := Job.titled_of_inline (by decide +kernel)
  have hsteps : frameJob.layout.map Placed.step =
      [.single ⟨.push "constant" 7, "push constant 7", ⟨"M", 1⟩⟩,
        .single ⟨.call "f" 1, "call f 1", ⟨"M", 2⟩⟩,
        .single ⟨.push "here" 3, "push here 3", ⟨"M", 3⟩⟩,
        .single ⟨.function "f" 2, "function f 2", ⟨"M", 4⟩⟩,
        .single ⟨.push "constant" 1, "push constant 1", ⟨"M", 5⟩⟩,
        .single ⟨.ret, "return", ⟨"M", 6⟩⟩] := by decide +kernel
  have hcall := Job.opcodeAt_of_steps hsteps (i := 1) rfl
  have hfunction := Job.opcodeAt_of_steps hsteps (i := 3) rfl
  have hret := Job.opcodeAt_of_steps hsteps (i := 5) rfl
  have hsp : (Ram.blank.setReg .sp 257).reg .sp = 257 := Ram.reg_setReg_self ..
  obtain ⟨-, ⟨count, m₀, hruns₀, -, -, -, count', m₁, hruns₁, -, -, hpc₁, hopened⟩, hback⟩ :=
    frame_law hlink htitled hcall (by decide) hfunction
      (m := { boot program with
        pc := UInt16.ofNat (frameJob.start 1), ram := Ram.blank.setReg .sp 257 }) rfl
      (hlink.toNat_start htitled 1) (by rw [hsp]; decide) (by rw [hsp]; decide)
  have htop : m₁.ram.reg .sp = 264 := by
    rw [hopened.sp, hsp]
    rfl
  obtain ⟨k, m₂, hruns₂, -, -, hpc₂, hrestored⟩ := hback 5 hret
    { m₁ with pc := UInt16.ofNat (frameJob.start 5) } ((hruns₀.trans hruns₁).rom.trans rfl)
    (hlink.toNat_start htitled 5) hopened.framed
    (by rw [show Ram.reg _ _ = 264 from htop]; decide)
    (by rw [show Ram.reg _ _ = 264 from htop]; decide)
  exact ⟨program, hlink, htitled, by decide +kernel, _, m₁, k, m₂, hruns₀.trans hruns₁, hpc₁,
    hopened, hruns₂, hpc₂, hrestored⟩

/-- Without `Titled` the frame is wrong: its first word is 16, the address of a variable. -/
theorem not_frame_law_cut_return_label :
    ¬∀ (job : Job) (program : Program), Linked job program →
      ∀ (i j : Nat) (f : String) (k n : Word), job.OpcodeAt i (.call f k) →
        k.toNat < argumentLimit → job.OpcodeAt j (.function f n) →
        ∀ m : Machine, m.rom = program.ops → m.pc.toNat = job.start i →
          15 + k.toNat ≤ (m.ram.reg .sp).toNat →
          (m.ram.reg .sp).toNat + 5 + n.toNat ≤ 32767 →
          Leaves (job.start i) (job.start (i + 1)) m fun m₁ => m₁.pc.toNat = job.start j ∧
            Leaves (job.start j) (job.start (j + 1)) m₁ fun m₂ =>
              m₂.pc.toNat = job.start (j + 1) ∧
                Ram.Opened m.ram k n (UInt16.ofNat (job.start (i + 1))) m₂.ram := by
  intro hall
  obtain ⟨program, hlink, hops⟩ := exists_linkable_cutJob
  have hstarts : cutJob.start 0 = 0 ∧ cutJob.start 1 = 40 ∧ cutJob.start 2 = 40 := by
    decide +kernel
  let m : Machine := { boot program with ram := Ram.blank.setReg .sp 256 }
  have hsp : m.ram.reg .sp = 256 := Ram.reg_setReg_self ..
  obtain ⟨count, m₁, hruns₁, -, -, -, count', m₂, hruns₂, -, -, hpc₂, hopened⟩ :=
    hall cutJob program hlink.toLinked 0 1 "f" 0 0 (Job.opcodeAt_of_steps steps_cutJob (i := 0) rfl)
      (by decide) (Job.opcodeAt_of_steps steps_cutJob (i := 1) rfl) m rfl hstarts.1.symm
      (by rw [hsp]; decide) (by rw [hsp]; decide)
  have hfar : 40 ≤ m₂.pc.toNat := by rw [hpc₂, hstarts.2.2]
  have hsaved := get_frame_cutJob hops hlink.size rfl hsp (hruns₁.trans hruns₂) hfar
  have hfound : m₂.ram.get (m.ram.reg .sp + UInt16.ofNat 0) = UInt16.ofNat (cutJob.start 1) :=
    (hopened.framed.get_frame (w := 5) (i := 0) rfl (Nat.succ_pos _)).2
  rw [hsp, hstarts.2.1] at hfound
  exact absurd (hfound.symm.trans hsaved) (by decide)

end Compile

end HackVM
