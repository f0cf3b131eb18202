/-
  Simulation of commands. A machine at the first ROM word of a command whose action is `Safe` runs
  without a fault to the first word of the command that comes next, with memory exactly
  `Action.result` (`simulates_commands`). Pairs are not fused here.
-/
import Mathlib
import HackVM.Proofs.Blocks
import HackVM.Proofs.Layout

namespace HackVM.Compile

open Assembly Rom Machine

/-! ## Commands and what comes next -/

namespace Job

variable (job : Job)

/-- Step `i` is a single command with the given action. -/
def ActionAt (i : Nat) (action : Action) : Prop :=
  ∃ (hi : i < job.layout.length) (command : Command),
    job.layout[i].step = .single command ∧
      Action.of job.layout[i].state command.opcode = .ok action

/-- Step `i` is a single command that declares `name`. -/
def Marks (i : Nat) (name : String) : Prop :=
  ∃ (hi : i < job.layout.length) (command : Command),
    job.layout[i].step = .single command ∧ command.opcode.declared? = some name

/-- `pc` after step `i`: at step `i + 1`, at a step that declares the name, or at the given
address. -/
def Continues (i : Nat) : Next → Word → Prop
  | .follow, pc => pc.toNat = job.start (i + 1)
  | .jump name, pc => ∃ j, job.Marks j name ∧ pc.toNat = job.start j
  | .resume address, pc => pc = address

/-- The step after step `i`, for each `Next`. -/
def Leads (i : Nat) : Next → Nat → Prop
  | .follow, j => j = i + 1
  | .jump name, j => job.Marks j name
  | .resume address, j => address.toNat = job.start j

/-- One `Safe` action on step number and memory. -/
def Goes (c c' : Nat × Ram) : Prop :=
  ∃ action, job.ActionAt c.1 action ∧ action.Safe c.2 ∧
    c'.2 = action.result c.2 (UInt16.ofNat (job.start (c.1 + 1))) ∧
    job.Leads c.1 (action.next c.2) c'.1

variable {job}

theorem ActionAt.of_step {i : Nat} {action : Action} (h : job.ActionAt i action) {command : Command}
    (hstep : job.layout[i]?.map Placed.step = some (.single command)) :
    ∃ s, Action.of s command.opcode = .ok action := by
  obtain ⟨hi, found, hfound, haction⟩ := h
  rw [List.getElem?_eq_getElem hi, Option.map_some, hfound] at hstep
  cases hstep
  exact ⟨_, haction⟩

theorem actionAt_of_step {i : Nat} {action : Action} {command : Command}
    (hstep : job.layout[i]?.map Placed.step = some (.single command))
    (haction : ∀ s, Action.of s command.opcode = .ok action) : job.ActionAt i action := by
  obtain ⟨placed, hplaced, hsingle⟩ := Option.map_eq_some_iff.1 hstep
  obtain ⟨hi, rfl⟩ := List.getElem?_eq_some_iff.1 hplaced
  exact ⟨hi, command, hsingle, haction _⟩

/-- The action of a step is that of a command of the job. -/
theorem ActionAt.exists_mem {i : Nat} {action : Action} (h : job.ActionAt i action) :
    ∃ command ∈ job.commands, ∃ s, Action.of s command.opcode = .ok action := by
  obtain ⟨hi, command, hstep, haction⟩ := h
  obtain ⟨entry, hentry, hof, -⟩ := of_mem_placeModules (List.getElem_mem hi)
  have hitem : .ok command ∈ entry.2 :=
    Step.mem_items_of_mem_ofItems hof (by rw [hstep]; exact List.mem_singleton_self _)
  exact ⟨command, List.mem_flatMap.2 ⟨entry, hentry, List.mem_filterMap.2 ⟨_, hitem, rfl⟩⟩, _,
    haction⟩

theorem marks_of_step {i : Nat} {command : Command} {name : String}
    (hstep : job.layout[i]?.map Placed.step = some (.single command))
    (hname : command.opcode.declared? = some name) : job.Marks i name := by
  obtain ⟨placed, hplaced, hsingle⟩ := Option.map_eq_some_iff.1 hstep
  obtain ⟨hi, rfl⟩ := List.getElem?_eq_some_iff.1 hplaced
  exact ⟨hi, command, hsingle, hname⟩

end Job

/-- The ROM holds emitted code of `action` at step `i`, with its labels bound. -/
def Job.Stands (job : Job) (program : Program) (i : Nat) (action : Action) : Prop :=
  ∃ code, Emits action code ∧ job.start (i + 1) = job.start i + instructionCount code ∧
    HoldsAt (labelsOf program.symbols) program.ops (job.start i) code ∧
    Binds (labelsOf program.symbols) (job.start i) code

/-- Code that `Stands` in the ROM leaves its block in a state that is `Done`. -/
theorem Job.Stands.leaves {job : Job} {program : Program} {i : Nat} {action : Action}
    (h : job.Stands program i action) (hsize : program.ops.size < 65536) {m : Machine}
    (hrom : m.rom = program.ops) (hpc : m.pc.toNat = job.start i) (hrun : action.Runnable m.ram) :
    Leaves (job.start i) (job.start (i + 1)) m
      (Done (labelsOf program.symbols) m action (job.start (i + 1))) := by
  obtain ⟨code, hemits, hcount, hholds, hbinds⟩ := h
  rw [hcount]
  rw [← hpc] at hholds hbinds ⊢
  rw [← hrom] at hholds
  exact hemits.leaves hholds (by rw [hrom]; exact hsize) hbinds hrun

namespace Linked

variable {job : Job} {program : Program}

/-- A lowered single step `Stands` in the ROM. -/
theorem stands (h : Linked job program) (ht : job.Titled) {i : Nat} (hi : i < job.layout.length)
    {command : Command} {code : List Inst} {s' : State}
    (hlowers : Lowers job.layout[i].state command.opcode code s')
    (hcode : job.layout[i].code job.options = comments job.options [command.sourceText] ++ code)
    {action : Action} (haction : Action.of job.layout[i].state command.opcode = .ok action) :
    job.Stands program i action := by
  obtain ⟨action', haction', hemits⟩ := emits_of_lowers hlowers
  cases haction.symm.trans haction'
  exact ⟨code, hemits, h.holdsAt_uncommented ht hi hcode⟩

theorem labelsOf_of_marks (h : Linked job program) (ht : job.Titled) {j : Nat} {name : String}
    (hj : job.Marks j name) : labelsOf program.symbols name = UInt16.ofNat (job.start j) := by
  obtain ⟨hj, command, hstep, hname⟩ := hj
  exact h.address_of_declared ht hj hstep hname

end Linked

/-- The name that an action jumps to is a target of its opcode. -/
theorem mem_targets_of_next {s : State} {opcode : Opcode} {action : Action} {ram : Ram}
    {name : String} (haction : Action.of s opcode = .ok action)
    (hnext : action.next ram = .jump name) : name ∈ opcode.targets := by
  cases opcode with
  | arithmetic word =>
    obtain ⟨arith, -, rfl⟩ := map_eq_ok_iff.1 haction
    cases hnext
  | push segment index =>
    obtain ⟨found, -, rfl⟩ := map_eq_ok_iff.1 haction
    cases hnext
  | pop segment index =>
    obtain ⟨found, -, rfl⟩ := map_eq_ok_iff.1 haction
    cases hnext
  | label other => cases haction; cases hnext
  | goto other => cases haction; cases hnext; exact List.mem_singleton_self _
  | ifGoto other =>
    cases haction
    simp only [Action.next] at hnext
    split_ifs at hnext
    cases hnext
    exact List.mem_singleton_self _
  | function other locals => cases haction; cases hnext
  | call callee args => cases haction; cases hnext; exact List.mem_singleton_self _
  | ret => cases haction; cases hnext

namespace Linkable

variable {job : Job} {program : Program}

/-- The action of a step `Stands` in the ROM. -/
theorem emits (h : Linkable job program) (ht : job.Titled) {i : Nat} {action : Action}
    (hact : job.ActionAt i action) : job.Stands program i action := by
  obtain ⟨hi, command, hstep, haction⟩ := hact
  obtain ⟨code, s', hlowers, hcode⟩ := Job.lowers_of_single h.clean hi hstep
  exact h.toLinked.stands ht hi hlowers hcode haction

/-- The block of a step with a `Runnable` action is left in a state that is `Done`. -/
theorem leaves (h : Linkable job program) (ht : job.Titled) {i : Nat} {action : Action}
    (hact : job.ActionAt i action) {m : Machine} (hrom : m.rom = program.ops)
    (hpc : m.pc.toNat = job.start i) (hrun : action.Runnable m.ram) :
    Leaves (job.start i) (job.start (i + 1)) m
      (Done (labelsOf program.symbols) m action (job.start (i + 1))) :=
  (h.emits ht hact).leaves h.size hrom hpc hrun

/-- If a run comes out of the block of a `Rooted` action, the action is `Safe`. -/
theorem safe_of_runs (h : Linkable job program) (ht : job.Titled) {i n : Nat} {action : Action}
    (hact : job.ActionAt i action) {m m' : Machine} (hrom : m.rom = program.ops)
    (hpc : m.pc.toNat = job.start i) (hroot : action.Rooted m.ram) (hn : 0 < n)
    (hruns : Runs n m m')
    (hout : ¬(job.start i < m'.pc.toNat ∧ m'.pc.toNat < job.start (i + 1))) :
    action.Safe m.ram := by
  obtain ⟨code, hemits, hcount, hholds, -⟩ := h.emits ht hact
  rw [hcount, ← hpc] at hout
  rw [← hpc, ← hrom] at hholds
  refine (hemits.safe_or_fails hholds (by rw [hrom]; exact h.size) hroot).resolve_right
    fun hfails => ?_
  exact hfails.not_runs hn hout hruns

theorem exists_marks (h : Linkable job program) {i : Nat} {action : Action}
    (hact : job.ActionAt i action) {ram : Ram} {name : String}
    (hnext : action.next ram = .jump name) : ∃ j, job.Marks j name := by
  obtain ⟨command, hmem, s, haction⟩ := hact.exists_mem
  obtain ⟨j, hj, declarer, hdecl, hname⟩ :=
    Job.exists_single_of_declares (h.targeted command hmem name (mem_targets_of_next haction hnext))
  exact ⟨j, hj, declarer, hdecl, hname⟩

/-- The address of `Action.next` satisfies `Continues`. -/
theorem continues_address (h : Linkable job program) (ht : job.Titled) {i : Nat} {action : Action}
    (hact : job.ActionAt i action) (ram : Ram) :
    job.Continues i (action.next ram) ((action.next ram).address (labelsOf program.symbols)
      (UInt16.ofNat (job.start (i + 1)))) := by
  cases hnext : action.next ram with
  | follow => exact h.toNat_start ht (i + 1)
  | jump name =>
    obtain ⟨j, hj⟩ := h.exists_marks hact hnext
    refine ⟨j, hj, ?_⟩
    rw [Next.address, h.labelsOf_of_marks ht hj]
    exact h.toNat_start ht j
  | resume address => rfl

/-- `Continues` and `Leads` agree on the address. -/
theorem start_of_leads (h : Linkable job program) (ht : job.Titled) {i j : Nat} {next : Next}
    {pc : Word} (hpc : job.Continues i next pc) (hj : job.Leads i next j) :
    pc.toNat = job.start j := by
  cases next with
  | follow =>
    cases hj
    exact hpc
  | jump name =>
    obtain ⟨k, hk, hpc⟩ := hpc
    have heq := (h.labelsOf_of_marks ht hk).symm.trans (h.labelsOf_of_marks ht hj)
    rw [hpc, ← h.toNat_start ht k, heq, h.toNat_start ht j]
  | resume address =>
    cases hpc
    exact hj

/-- Without fusing, the steps are the commands, in order. -/
theorem map_step_layout (h : Linkable job program) (hfuse : job.options.fuse = false) :
    job.layout.map Placed.step = job.commands.map Step.single := by
  have hsingle : ∀ step ∈ job.layout.map Placed.step, ∃ command, step = .single command := by
    intro step hstep
    obtain ⟨placed, hmem, rfl⟩ := List.mem_map.1 hstep
    refine (h.step_of_mem hmem).resolve_right ?_
    rintro ⟨first, second, hkind⟩
    obtain ⟨entry, -, hof, -⟩ := of_mem_placeModules hmem
    rw [hfuse, hkind] at hof
    cases (Step.of_fused_mem_ofItems hof).1
  have hcommands : job.commands =
      ((job.layout.map Placed.step).flatMap Step.items).filterMap Except.toOption := by
    rw [job.map_step_layout, List.flatMap_assoc, List.filterMap_flatMap]
    simp only [Step.flatMap_items_ofItems]
    rfl
  rw [hcommands]
  generalize job.layout.map Placed.step = steps at hsingle
  induction steps with
  | nil => rfl
  | cons step steps ih =>
    obtain ⟨command, rfl⟩ := hsingle step (by simp)
    exact congrArg (Step.single command :: ·) (ih fun s hs => hsingle s (by simp [hs]))

theorem length_layout (h : Linkable job program) (hfuse : job.options.fuse = false) :
    job.layout.length = job.commands.length := by
  have := congrArg List.length (h.map_step_layout hfuse)
  rwa [List.length_map, List.length_map] at this

theorem exists_actionAt_of_single (h : Linkable job program) {i : Nat} (hi : i < job.layout.length)
    {command : Command} (hstep : job.layout[i].step = .single command) :
    ∃ action, job.ActionAt i action := by
  obtain ⟨code, s', hlowers, -⟩ := Job.lowers_of_single h.clean hi hstep
  obtain ⟨action, haction, -⟩ := emits_of_lowers hlowers
  exact ⟨action, hi, command, hstep, haction⟩

theorem exists_actionAt (h : Linkable job program) (hfuse : job.options.fuse = false) {i : Nat}
    (hi : i < job.commands.length) : ∃ action, job.ActionAt i action := by
  have hsteps := h.map_step_layout hfuse
  have hlen : i < job.layout.length := by rwa [h.length_layout hfuse]
  have hstep : job.layout[i].step = .single job.commands[i] := by
    have := congrArg (·[i]?) hsteps
    simpa [hi, hlen] using this
  exact h.exists_actionAt_of_single hlen hstep

end Linkable

/-! ## Boundaries -/

/-- From `i` on, a monotone `f` keeps its value up to some `j` at which it rises or which is `len`.
For addresses of steps: behind steps without code there is one with code, or the end. -/
theorem exists_rise {f : Nat → Nat} (hf : Monotone f) {i len : Nat} (hi : i ≤ len) :
    ∃ j, i ≤ j ∧ j ≤ len ∧ f j = f i ∧ (j < len → f j < f (j + 1)) := by
  induction hrest : len - i generalizing i with
  | zero => exact ⟨i, le_rfl, hi, rfl, fun hlt => by omega⟩
  | succ rest ih =>
    rcases (hf (Nat.le_succ i)).lt_or_eq with hlt | heq
    · exact ⟨i, le_rfl, hi, rfl, fun _ => hlt⟩
    · obtain ⟨j, hij, hj, hfj, hrise⟩ := ih (i := i + 1) (by omega) (by omega)
      exact ⟨j, by omega, hj, hfj.trans heq.symm, hrise⟩

namespace Job

variable {job : Job}

/-- No step starts strictly inside the code of another. -/
theorem start_ne_of_inside {i address : Nat}
    (h : job.start i < address ∧ address < job.start (i + 1)) (j : Nat) :
    address ≠ job.start j := by
  rintro rfl
  rcases Nat.lt_or_ge j (i + 1) with hj | hj
  · have := job.start_mono (Nat.le_of_lt_succ hj)
    omega
  · have := job.start_mono hj
    omega

/-- Steps with code have distinct addresses. -/
theorem eq_of_start_eq {i j : Nat} (hi : job.start i < job.start (i + 1))
    (hj : job.start j < job.start (j + 1)) (h : job.start i = job.start j) : i = j := by
  rcases Nat.lt_trichotomy i j with hlt | heq | hgt
  · have : job.start (i + 1) ≤ job.start j := job.start_mono hlt
    omega
  · exact heq
  · have : job.start (j + 1) ≤ job.start i := job.start_mono hgt
    omega

end Job

/-- Behind the last step memory does not change, and `pc` does not go back. -/
theorem Linkable.of_runs_end {job : Job} {program : Program} (h : Linkable job program)
    (ht : job.Titled) {n : Nat} {m m' : Machine} (hrom : m.rom = program.ops)
    (hpc : m.pc.toNat = job.start job.layout.length) (hruns : Runs n m m') :
    m'.ram = m.ram ∧ job.start job.layout.length ≤ m'.pc.toNat := by
  have hloaded := h.loaded ht
  have hcode := job.artifact_code_before job.layout.length
  rw [List.drop_length, List.flatMap_nil, List.nil_append] at hcode
  unfold compileEnd at hcode
  split_ifs at hcode
  · have hsize : program.ops.size = job.start job.layout.length := by
      rw [← Array.length_toList, hloaded.ops, length_ops, hcode, Job.start]
      simp
    rw [hruns.eq_of_outside (by rw [hrom, hsize, hpc])]
    exact ⟨rfl, hpc.ge⟩
  · have hend : Loaded (labelsOf program.symbols) (job.before job.layout.length ++
        (comments job.options ["halt"] ++ halt) ++ []) program.ops := by
      rw [List.append_nil, ← hcode]
      exact hloaded
    obtain ⟨hholds, hbinds⟩ := hend.holdsAt
    have hholds := hholds.right
    have hbinds := hbinds.right
    rw [instructionCount_comments, Nat.add_zero, ← Job.start, ← hpc] at hholds hbinds
    rw [← hrom] at hholds
    have hloop : HoldsAt (labelsOf program.symbols) m.rom m.pc.toNat (goto Label.halt) :=
      HoldsAt.skip hholds rfl
    have hsize : m.rom.size < 65536 := by rw [hrom]; exact h.size
    have hname := hbinds.head
    rw [UInt16.ofNat_toNat] at hname
    obtain ⟨hram, hpc'⟩ := of_runs_loop hloop hsize hname hruns
    refine ⟨hram, ?_⟩
    have hsucc := toNat_pc_succ (hloop.head rfl) hsize
    rcases hpc' with hpc' | ⟨hpc', -⟩ <;> rw [hpc'] <;> omega

/-! ## Simulation -/

/-- **Simulation.** Let a `Linkable`, `Titled` job be compiled without fusing. Its steps are the
commands of its sources. From every machine at `job.start i` whose memory is `Safe` for the action
of command `i`, a run without a fault leads to memory that is exactly `Action.result` and to the
command that comes next (`Continues`). Runs over any number of commands compose. -/
theorem simulates_commands {job : Job} {program : Program} (h : Linkable job program)
    (hfuse : job.options.fuse = false) (htitled : job.Titled) :
    job.layout.map Placed.step = job.commands.map Step.single ∧
    (∀ i < job.commands.length, ∃ action, job.ActionAt i action ∧
      ∀ m : Machine, m.rom = program.ops → m.pc.toNat = job.start i → action.Safe m.ram →
        ∃ n m', Runs n m m' ∧
          m'.ram = action.result m.ram (UInt16.ofNat (job.start (i + 1))) ∧
          job.Continues i (action.next m.ram) m'.pc) ∧
    ∀ i ram j ram', Relation.ReflTransGen job.Goes (i, ram) (j, ram') →
      ∀ m : Machine, m.rom = program.ops → m.pc.toNat = job.start i → m.ram = ram →
        ∃ n m', Runs n m m' ∧ m'.ram = ram' ∧ m'.pc.toNat = job.start j := by
  have hcommand : ∀ i action, job.ActionAt i action → ∀ m : Machine, m.rom = program.ops →
      m.pc.toNat = job.start i → action.Safe m.ram →
        ∃ n m', Runs n m m' ∧
          m'.ram = action.result m.ram (UInt16.ofNat (job.start (i + 1))) ∧
          job.Continues i (action.next m.ram) m'.pc := by
    intro i action hact m hrom hpc hsafe
    obtain ⟨n, m', hruns, -, -, hram, hpc'⟩ := h.leaves htitled hact hrom hpc hsafe.runnable
    refine ⟨n, m', hruns, hram, ?_⟩
    rw [hpc']
    exact h.continues_address htitled hact m.ram
  refine ⟨h.map_step_layout hfuse, fun i hi => ?_, fun i ram j ram' hgoes => ?_⟩
  · obtain ⟨action, hact⟩ := h.exists_actionAt hfuse hi
    exact ⟨action, hact, hcommand i action hact⟩
  · -- Induction on the run: its last command starts where the machine has come to.
    intro m hrom hpc hram
    generalize hend : (j, ram') = c at hgoes
    induction hgoes generalizing j ram' with
    | refl =>
      cases hend
      exact ⟨0, m, .refl m, hram, hpc⟩
    | tail hprev hlast ih =>
      rename_i d e
      subst hend
      obtain ⟨n, m₁, hruns, hram₁, hpc₁⟩ := ih d.1 d.2 rfl
      obtain ⟨action, hact, hsafe, hresult, hleads⟩ := hlast
      rw [← hram₁] at hsafe hresult hleads
      obtain ⟨k, m₂, hruns₂, hram₂, hnext⟩ :=
        hcommand _ action hact m₁ (hruns.rom.trans hrom) hpc₁ hsafe
      exact ⟨n + k, m₂, hruns.trans hruns₂, hram₂.trans hresult.symm,
        h.start_of_leads htitled hnext hleads⟩

/-- A job whose entry function calls another one. -/
def nestedJob : Job :=
  ⟨{ fuse := false }, some ⟨"M", "f"⟩, [("M", "function f 0\ncall g 0\nfunction g 0\nreturn")]⟩

theorem exists_linkable_nestedJob : ∃ program, Linkable nestedJob program := by
  refine exists_linkable (by decide +kernel) ?_ (by decide +kernel)
  rw [assemble, statements, Artifact.text, toList_render]
  decide +kernel

theorem titled_nestedJob : nestedJob.Titled := Job.titled_of_inline (by decide +kernel)

theorem steps_nestedJob : nestedJob.layout.map Placed.step =
    [.single ⟨.function "f" 0, "function f 0", ⟨"M", 1⟩⟩,
      .single ⟨.call "g" 0, "call g 0", ⟨"M", 2⟩⟩,
      .single ⟨.function "g" 0, "function g 0", ⟨"M", 3⟩⟩, .single ⟨.ret, "return", ⟨"M", 4⟩⟩] := by
  decide +kernel

theorem simulates_commands_nested : ∃ program, Linkable nestedJob program ∧ nestedJob.Titled ∧
    ∃ n m', Runs n { boot program with
        pc := UInt16.ofNat (nestedJob.start 1), ram := Ram.blank.setReg .sp 256 } m' ∧
      m'.ram = (Ram.blank.setReg .sp 256).called 0 (UInt16.ofNat (nestedJob.start 2)) ∧
      m'.pc.toNat = nestedJob.start 2 := by
  obtain ⟨program, hlink⟩ := exists_linkable_nestedJob
  have hsafe : (Action.call "g" 0).Safe (Ram.blank.setReg .sp 256) :=
    Action.safe_call (by rw [Ram.reg_setReg_self]; decide) (by rw [Ram.reg_setReg_self]; decide)
  have hlt : nestedJob.start 1 < 65536 := by decide +kernel
  obtain ⟨-, hcommands, -⟩ := simulates_commands hlink rfl titled_nestedJob
  obtain ⟨action, hact, hruns⟩ := hcommands 1 (by decide +kernel)
  obtain ⟨s, haction⟩ := hact.of_step (by rw [← List.getElem?_map, steps_nestedJob]; rfl)
  cases haction
  obtain ⟨n, m', hruns, hram, hpc⟩ := hruns { boot program with
    pc := UInt16.ofNat (nestedJob.start 1), ram := Ram.blank.setReg .sp 256 } rfl
    (word_toNat_ofNat hlt) hsafe
  have hg : nestedJob.Marks 2 "g" :=
    Job.marks_of_step (by rw [← List.getElem?_map, steps_nestedJob]; rfl) rfl
  exact ⟨program, hlink, titled_nestedJob, n, m', hruns, hram,
    hlink.start_of_leads titled_nestedJob hpc hg⟩

/-! ## Module names that end a line -/

/-- A job whose module name cuts its return label short. -/
def cutJob : Job := ⟨{ fuse := false }, none, [("A)//", "call f 0\nfunction f 0\ngoto f")]⟩

/-- The values of the names in the text of `cutJob`. The load of the return label is cut to `@A)`, a
variable. -/
def cutLabels (name : String) : Word :=
  if name = "f" then 40 else if name = Label.halt then 42 else 16

/-- The code of `cutJob` as it is read. -/
def cutCode : List Inst := callSetup "f" 0 "A)" ++ [.jump] ++ (goto "f" ++ goto Label.halt)

theorem exists_linkable_cutJob : ∃ program, Linkable cutJob program ∧
    program.ops.toList = cutCode.filterMap (Inst.op? cutLabels) := by
  refine exists_linkable_of_ops (by decide +kernel) ?_ (by decide +kernel) (by decide +kernel)
  rw [assemble, statements, Artifact.text, toList_render]
  decide +kernel

theorem steps_cutJob : cutJob.layout.map Placed.step =
    [.single ⟨.call "f" 0, "call f 0", ⟨"A)//", 1⟩⟩,
      .single ⟨.function "f" 0, "function f 0", ⟨"A)//", 2⟩⟩,
      .single ⟨.goto "f", "goto f", ⟨"A)//", 3⟩⟩] := by decide +kernel

/-- In `cutJob`, started with `SP = 256`, the frame of the call has the return address 16, that of a
variable, as long as the run goes on: `f` loops and leaves memory alone. -/
theorem get_frame_cutJob {m m' : Machine} {n : Nat}
    (hops : m.rom.toList = cutCode.filterMap (Inst.op? cutLabels)) (hsize : m.rom.size < 65536)
    (hpc : m.pc = 0) (hsp : m.ram.reg .sp = 256) (hruns : Runs n m m')
    (hfar : 40 ≤ m'.pc.toNat) : m'.ram.get 256 = 16 := by
  have hcode : HoldsAt cutLabels m.rom m.pc.toNat cutCode := by
    rw [hpc]
    refine ⟨[], [], ?_, rfl⟩
    rw [List.nil_append, List.append_nil]
    exact hops
  have hstack : ∀ i < 5, Ram.OnStack (m.ram.reg .sp + UInt16.ofNat i) := by
    rw [hsp]
    decide
  obtain ⟨d, hexec⟩ : ∃ d, exec cutLabels (callSetup "f" 0 "A)") m.store =
      some ⟨m.ram.called 0 16, 40, d⟩ := exec_callSetup cutLabels hstack
  have hleaves : Leaves 0 40 m fun m₁ => m₁.ram = m.ram.called 0 16 ∧ m₁.pc = 40 := by
    have hjump := leaves_of_jump hcode.left hsize hexec
    rw [hpc] at hjump
    exact hjump
  have hn : 0 < n := by
    rw [Nat.pos_iff_ne_zero]
    rintro rfl
    rw [← runs_zero.1 hruns, hpc] at hfar
    cases hfar
  obtain ⟨k, m₁, -, hk, hruns₁, -, hram₁, hpc₁⟩ :=
    hleaves.of_runs (by decide) hn hruns fun hin => absurd hin.2 (by omega)
  have hloop : HoldsAt cutLabels m₁.rom m₁.pc.toNat (goto "f") := by
    rw [hruns₁.rom, hpc₁]
    rw [hpc] at hcode
    exact hcode.right.left
  have hkept := (of_runs_loop hloop (by rw [hruns₁.rom]; exact hsize) hpc₁.symm
    (hruns₁.rest hk hruns)).1
  have hsaved : (m.ram.called 0 16).get (m.ram.reg .sp + UInt16.ofNat 0) = 16 :=
    Ram.get_called_frame (by rw [hsp]; decide) (by rw [hsp]; decide) (Nat.succ_pos _)
  rw [hsp] at hsaved
  rw [hkept, hram₁]
  exact hsaved

/-- Without `Titled` simulation fails: in `cutJob` the call saves `16`, the address of a variable,
instead of `40`. -/
theorem not_simulates_cut_return_label :
    ¬∀ (job : Job) (program : Program), Linkable job program → job.options.fuse = false →
      ∀ i < job.commands.length, ∃ action, job.ActionAt i action ∧
        ∀ m : Machine, m.rom = program.ops → m.pc.toNat = job.start i → action.Safe m.ram →
          ∃ n m', Runs n m m' ∧
            m'.ram = action.result m.ram (UInt16.ofNat (job.start (i + 1))) ∧
            job.Continues i (action.next m.ram) m'.pc := by
  intro hall
  obtain ⟨program, hlink, hops⟩ := exists_linkable_cutJob
  have hstart : cutJob.start 1 = 40 := by decide +kernel
  obtain ⟨action, hact, hruns⟩ := hall cutJob program hlink rfl 0 (by decide +kernel)
  obtain ⟨s, haction⟩ := hact.of_step (by rw [← List.getElem?_map, steps_cutJob]; rfl)
  cases haction
  let m : Machine := { boot program with ram := Ram.blank.setReg .sp 256 }
  have hsp : m.ram.reg .sp = 256 := Ram.reg_setReg_self ..
  have hsafe : (Action.call "f" 0).Safe m.ram :=
    Action.safe_call (by rw [hsp]; decide) (by rw [hsp]; decide)
  obtain ⟨n, m', hn, hram, j, hj, hpc⟩ := hruns m rfl rfl hsafe
  have hpos : 1 ≤ j := by
    rw [Nat.one_le_iff_ne_zero]
    rintro rfl
    obtain ⟨hi, command, hstep, hname⟩ := hj
    have hcall : (cutJob.layout.map Placed.step)[0]? = some (.single command) := by
      rw [List.getElem?_map, List.getElem?_eq_getElem hi, Option.map_some, hstep]
    rw [steps_cutJob] at hcall
    cases hcall
    cases hname
  have hfar : 40 ≤ m'.pc.toNat := by
    rw [hpc, ← hstart]
    exact cutJob.start_mono hpos
  have hfound := get_frame_cutJob hops hlink.size rfl hsp hn hfar
  -- The meaning of the call asks for the address behind it in the same cell.
  have hframe : (m.ram.called 0 40).get (m.ram.reg .sp + UInt16.ofNat 0) = 40 :=
    Ram.get_called_frame (by rw [hsp]; decide) (by rw [hsp]; decide) (Nat.succ_pos _)
  rw [hsp] at hframe
  rw [hram, hstart] at hfound
  exact absurd (hframe.symm.trans hfound) (by decide)

end HackVM.Compile
