/-
  The layout of a compiled program: the opening, the code of one step behind the other, and the end.
  `layout` lists the steps with their compiler states, and `start` gives the ROM address of each.
  The text of a `Linked` job is legible, so its ROM holds every step at its address
  (`Linked.holdsAt`); `Linkable` extends `Linked` by the absence of diagnostics.
-/
import Mathlib
import HackVM.Compile.Program
import HackVM.Proofs.Legibility
import HackVM.Proofs.Linking
import HackVM.Proofs.Steps

namespace HackVM.Compile

open Assembly Rom

/-! ## Placed steps -/

/-- A step and the state from which it is compiled. -/
structure Placed where
  state : State
  step : Step

/-- `compileStep` of a placed step. -/
def Placed.emission (options : Options) (placed : Placed) : Emission :=
  (compileStep options placed.state placed.step).1

/-- The code of a placed step. -/
def Placed.code (options : Options) (placed : Placed) : List Inst := (placed.emission options).code

/-- `steps` with their states, from `s` on. -/
def placeSteps (options : Options) : State → List Step → List Placed
  | _, [] => []
  | s, step :: steps => ⟨s, step⟩ :: placeSteps options (compileStep options s step).2 steps

/-- The steps of `modules` with their states, from `s` on. -/
def placeModules (options : Options) : State → List (String × List Item) → List Placed
  | _, [] => []
  | s, (name, items) :: modules =>
    placeSteps options (s.enter name).1 (Step.ofItems options.fuse items) ++
      placeModules options (compileModule options s name items).2 modules

theorem sweep_placeSteps (options : Options) (s : State) (steps : List Step) :
    (sweep (compileStep options) s steps).1 =
      (placeSteps options s steps).map (Placed.emission options) := by
  induction steps generalizing s with
  | nil => rfl
  | cons step steps ih =>
    rw [sweep_cons, ih]
    rfl

theorem compileCommand_options (options others : Options) (s : State) (command : Command) :
    (compileCommand options s command).2 = (compileCommand others s command).2 := by
  unfold compileCommand
  cases lower s command.opcode <;> rfl

/-- The state after a step does not depend on the options. -/
theorem compileStep_options (options others : Options) (s : State) (step : Step) :
    (compileStep options s step).2 = (compileStep others s step).2 := by
  cases step with
  | single command => exact compileCommand_options options others s command
  | fault reason => rfl
  | fused first second =>
    simp only [compileStep, compilePair]
    split
    · rfl
    · rename_i events s₁ hmove
      rw [compileCommand_options options others s₁ first]
      exact compileCommand_options options others _ second

theorem placeSteps_options (options others : Options) (s : State) (steps : List Step) :
    placeSteps options s steps = placeSteps others s steps := by
  induction steps generalizing s with
  | nil => rfl
  | cons step steps ih => rw [placeSteps, placeSteps, compileStep_options options others, ih]

theorem sweep_options (options others : Options) (s : State) (steps : List Step) :
    (sweep (compileStep options) s steps).2 = (sweep (compileStep others) s steps).2 := by
  induction steps generalizing s with
  | nil => rfl
  | cons step steps ih => rw [sweep_cons, sweep_cons, compileStep_options options others, ih]

/-- A component of the emission of a module is the concatenation over its placed steps. -/
theorem flatMap_compileModule {α : Type} {f : Emission → List α}
    (hf : ∀ before emissions after, f (({ events := before } : Emission) ++
      Emission.concat emissions ++ { events := after }) = emissions.flatMap f)
    (options : Options) (s : State) (name : String) (items : List Item) :
    f (compileModule options s name items).1 =
      (placeSteps options (s.enter name).1 (Step.ofItems options.fuse items)).flatMap
        fun placed => f (placed.emission options) := by
  rw [← List.flatMap_map, ← sweep_placeSteps]
  exact hf _ _ _

theorem compileModules_cons (options : Options) (s : State) (name : String) (items : List Item)
    (modules : List (String × List Item)) :
    compileModules options s ((name, items) :: modules) =
      ((compileModule options s name items).1 ::
          (compileModules options (compileModule options s name items).2 modules).1,
        (compileModules options (compileModule options s name items).2 modules).2) := sweep_cons ..

theorem flatMap_compileModules {α : Type} {f : Emission → List α}
    (hf : ∀ before emissions after, f (({ events := before } : Emission) ++
      Emission.concat emissions ++ { events := after }) = emissions.flatMap f)
    (options : Options) (s : State) (modules : List (String × List Item)) :
    (compileModules options s modules).1.flatMap f =
      (placeModules options s modules).flatMap fun placed => f (placed.emission options) := by
  induction modules generalizing s with
  | nil => rfl
  | cons first modules ih =>
    rw [compileModules_cons, List.flatMap_cons, ih, flatMap_compileModule hf, placeModules,
      List.flatMap_append]

/-! ## Placed steps and their modules -/

theorem map_step_placeSteps (options : Options) (s : State) (steps : List Step) :
    (placeSteps options s steps).map Placed.step = steps := by
  induction steps generalizing s with
  | nil => rfl
  | cons step steps ih => exact congrArg (step :: ·) (ih _)

theorem map_step_placeModules (options : Options) (s : State)
    (modules : List (String × List Item)) :
    (placeModules options s modules).map Placed.step =
      modules.flatMap fun entry => Step.ofItems options.fuse entry.2 := by
  induction modules generalizing s with
  | nil => rfl
  | cons first modules ih =>
    rw [placeModules, List.map_append, map_step_placeSteps, ih, List.flatMap_cons]

theorem enter_current (s : State) (name : String) : (s.enter name).1.current = some name := by
  unfold State.enter
  split_ifs with h
  · exact h
  · rfl

theorem of_mem_placeSteps {options : Options} {s : State} {steps : List Step} {placed : Placed}
    (h : placed ∈ placeSteps options s steps) :
    placed.step ∈ steps ∧ placed.state.current = s.current := by
  induction steps generalizing s with
  | nil => cases h
  | cons step steps ih =>
    rcases List.mem_cons.1 h with rfl | h
    · exact ⟨List.mem_cons_self, rfl⟩
    · obtain ⟨hstep, hcurrent⟩ := ih h
      exact ⟨List.mem_cons_of_mem _ hstep, hcurrent.trans (compileStep_current ..)⟩

/-- A placed step belongs to a module, which is current in its state. -/
theorem of_mem_placeModules {options : Options} {s : State} {modules : List (String × List Item)}
    {placed : Placed} (h : placed ∈ placeModules options s modules) :
    ∃ entry ∈ modules, placed.step ∈ Step.ofItems options.fuse entry.2 ∧
      placed.state.current = some entry.1 := by
  induction modules generalizing s with
  | nil => cases h
  | cons first modules ih =>
    rcases List.mem_append.1 h with h | h
    · obtain ⟨hstep, hcurrent⟩ := of_mem_placeSteps h
      exact ⟨first, List.mem_cons_self, hstep, hcurrent.trans (enter_current ..)⟩
    · obtain ⟨entry, hentry, hrest⟩ := ih h
      exact ⟨entry, List.mem_cons_of_mem _ hentry, hrest⟩

/-! ## Programs -/

/-- The state after the last module. -/
def finalState (options : Options) (entry : Option Entry) (modules : List (String × List Item)) :
    State :=
  (compileModules options (opening options entry).2 modules).2

/-- The steps of a program with their states. -/
def layoutOf (options : Options) (entry : Option Entry) (modules : List (String × List Item)) :
    List Placed :=
  placeModules options (opening options entry).2 modules

section

variable (options : Options) (entry : Option Entry) (modules : List (String × List Item))

theorem compileProgram_eq : compileProgram options entry modules =
    finishProgram options (finalState options entry modules) modules.length
      ((opening options entry).1 ++
        Emission.concat (compileModules options (opening options entry).2 modules).1) := rfl

/-- The code of a program is that of `opening`, of `layoutOf` and of `compileEnd`. -/
theorem code_compileProgram : (compileProgram options entry modules).code =
    (opening options entry).1.code ++
      (layoutOf options entry modules).flatMap (Placed.code options) ++
      (compileEnd options (finalState options entry modules)).code := by
  have hsteps := flatMap_compileModules (f := Emission.code)
    (fun before emissions after => (List.append_nil _).trans (List.nil_append _))
    options (opening options entry).2 modules
  rw [compileProgram_eq]
  exact congrArg (fun code => (opening options entry).1.code ++ code ++ _) hsteps

/-- The diagnostics of a program are those of `layoutOf`. -/
theorem diagnostics_compileProgram : (compileProgram options entry modules).report.diagnostics =
    (layoutOf options entry modules).flatMap
      fun placed => (placed.emission options).diagnostics := by
  have hsteps := flatMap_compileModules (f := Emission.diagnostics)
    (fun before emissions after => (List.append_nil _).trans (List.nil_append _))
    options (opening options entry).2 modules
  have hstart : (opening options entry).1.diagnostics = [] := by
    unfold opening
    cases entry <;> rfl
  have hend : ∀ s, (compileEnd options s).diagnostics = [] := by
    intro s
    unfold compileEnd
    split <;> rfl
  rw [compileProgram_eq]
  change (opening options entry).1.diagnostics ++ _ ++ (compileEnd options _).diagnostics = _
  rw [hstart, hend, List.nil_append, List.append_nil]
  exact hsteps

end

/-- The input of `compileSources`. -/
structure Job where
  options : Options
  entry : Option Entry
  sources : List (String × String)

namespace Job

variable (job : Job)

/-- `compileSources` of the job. -/
def artifact : Artifact := compileSources job.options job.entry job.sources

/-- `readModules` of the job. -/
def modules : List (String × List Item) := readModules job.sources

/-- The commands of all modules in order, without the malformed lines. -/
def commands : List Command :=
  job.modules.flatMap fun entry => entry.2.filterMap Except.toOption

/-- `Compile.opening` of the job. -/
def opening : Emission × State := Compile.opening job.options job.entry

/-- `layoutOf` the job. -/
def layout : List Placed := layoutOf job.options job.entry job.modules

/-- `Compile.finalState` of the job. -/
def finalState : State := Compile.finalState job.options job.entry job.modules

/-- The code before step `i`. -/
def before (i : Nat) : List Inst :=
  job.opening.1.code ++ (job.layout.take i).flatMap (Placed.code job.options)

/-- The number of instructions before step `i`: its ROM address where the text is legible. -/
def start (i : Nat) : Nat := instructionCount (job.before i)

theorem artifact_code : job.artifact.code =
    job.opening.1.code ++ job.layout.flatMap (Placed.code job.options) ++
      (compileEnd job.options job.finalState).code :=
  code_compileProgram job.options job.entry job.modules

/-- The code of a job is that of its opening, of `compileModules` and of `compileEnd`. -/
theorem artifact_code_modules : job.artifact.code = job.opening.1.code ++
    (compileModules job.options job.opening.2 job.modules).1.flatMap Emission.code ++
      (compileEnd job.options job.finalState).code :=
  congrArg Artifact.code (compileProgram_eq job.options job.entry job.modules)

theorem artifact_diagnostics : job.artifact.report.diagnostics =
    job.layout.flatMap fun placed => (placed.emission job.options).diagnostics :=
  diagnostics_compileProgram job.options job.entry job.modules

theorem artifact_diagnostics_modules : job.artifact.report.diagnostics =
    (compileModules job.options job.opening.2 job.modules).1.flatMap Emission.diagnostics := by
  rw [artifact_diagnostics, flatMap_compileModules]
  · rfl
  · intro before emissions after
    exact (List.append_nil _).trans (List.nil_append _)

end Job

theorem Job.map_step_layout (job : Job) : job.layout.map Placed.step =
    job.modules.flatMap fun entry => Step.ofItems job.options.fuse entry.2 :=
  map_step_placeModules ..

theorem Job.clean_of_mem {job : Job} (h : job.artifact.report.diagnostics = []) {placed : Placed}
    (hmem : placed ∈ job.layout) : (placed.emission job.options).diagnostics = [] := by
  rw [job.artifact_diagnostics, List.flatMap_eq_nil_iff] at h
  exact h placed hmem

/-- A command that is neither push nor pop is a single step. -/
theorem Job.single_of_mem_items {job : Job} {placed : Placed} (hmem : placed ∈ job.layout)
    {command : Command} (hitem : .ok command ∈ placed.step.items)
    (hpush : command.opcode.isPush = false) (hpop : command.opcode.isPop = false) :
    placed.step = .single command := by
  obtain ⟨entry, -, hof, -⟩ := of_mem_placeModules hmem
  cases hkind : placed.step with
  | single other =>
    rw [hkind] at hitem
    cases List.mem_singleton.1 hitem
    rfl
  | fault reason =>
    rw [hkind] at hitem
    cases List.mem_singleton.1 hitem
  | fused first second =>
    rw [hkind] at hitem hof
    obtain ⟨-, hfirst, hsecond⟩ := Step.of_fused_mem_ofItems hof
    simp only [Step.items, List.mem_cons, Except.ok.injEq, List.not_mem_nil, or_false] at hitem
    rcases hitem with rfl | rfl
    · rw [hpush] at hfirst
      cases hfirst
    · rw [hpop] at hsecond
      cases hsecond

/-- Without diagnostics, a single step is lowered; its code follows its comment. -/
theorem Job.lowers_of_single {job : Job} (h : job.artifact.report.diagnostics = []) {i : Nat}
    (hi : i < job.layout.length) {command : Command}
    (hstep : job.layout[i].step = .single command) :
    ∃ code s', Lowers job.layout[i].state command.opcode code s' ∧
      job.layout[i].code job.options =
        comments job.options [command.sourceText] ++ code := by
  have hclean := Job.clean_of_mem h (List.getElem_mem hi)
  rw [Placed.emission, hstep] at hclean
  obtain ⟨code, hlowers, hcode⟩ := compileCommand_of_clean hclean
  refine ⟨code, _, hlowers, ?_⟩
  rw [Placed.code, Placed.emission, hstep]
  exact hcode

/-! ## Conditions -/

/-- The code of an opcode that declares `name` starts with the label `name`. -/
theorem Lowers.head_of_declared {s s' : State} {opcode : Opcode} {code : List Inst} {name : String}
    (h : Lowers s opcode code s') (hname : opcode.declared? = some name) :
    ∃ rest, code = .label name :: rest := by
  cases h with
  | label other =>
    cases hname
    exact ⟨[], rfl⟩
  | function other locals =>
    cases hname
    unfold Compile.function
    split_ifs
    · exact ⟨[], rfl⟩
    · exact ⟨_, rfl⟩
  | _ => cases hname

/-- An opcode that declares a name is not refused. -/
theorem exists_lower_of_declared (s : State) {opcode : Opcode} {name : String}
    (h : opcode.declared? = some name) : ∃ lowered, lower s opcode = .ok lowered := by
  cases opcode with
  | label other | function other locals => exact ⟨_, rfl⟩
  | _ => cases h

namespace Job

/-- Some command of the job declares `name`. -/
def Declares (job : Job) (name : String) : Prop :=
  ∃ command ∈ job.commands, command.opcode.declared? = some name

instance (job : Job) (name : String) : Decidable (job.Declares name) :=
  inferInstanceAs (Decidable (∃ command ∈ job.commands, command.opcode.declared? = some name))

/-- The entry function and the names that the commands jump to. -/
def targets (job : Job) : List String :=
  job.entry.toList.map Entry.function ++ job.commands.flatMap fun command => command.opcode.targets

/-- Every module with a call has an `Inline` name; it is part of the return labels. -/
def Titled (job : Job) : Prop :=
  ∀ entry ∈ job.modules, (∃ command, .ok command ∈ entry.2 ∧ isCall command.opcode = true) →
    Text.Inline entry.1.toList

variable {job : Job}

theorem titled_of_inline (h : ∀ entry ∈ job.modules, Text.Inline entry.1.toList) : job.Titled :=
  fun entry hentry _ => h entry hentry

/-- The commands of a layout are `Printable`. -/
theorem printable_of_mem {placed : Placed} (hmem : placed ∈ job.layout) {command : Command}
    (hitem : .ok command ∈ placed.step.items) : command.Printable := by
  obtain ⟨entry, hentry, hstep, -⟩ := of_mem_placeModules hmem
  obtain ⟨source, -, rfl⟩ := List.mem_map.1 hentry
  exact printable_of_mem_readModule (Step.mem_items_of_mem_ofItems hstep hitem)

/-- The names in the commands of a job are words. -/
theorem isWord_of_mem_commands {command : Command} (h : command ∈ job.commands) {name : String}
    (hname : name ∈ command.opcode.names) : Text.IsWord name.toList := by
  obtain ⟨entry, hentry, hitem⟩ := List.mem_flatMap.1 h
  obtain ⟨source, -, rfl⟩ := List.mem_map.1 hentry
  obtain ⟨item, hread, hok⟩ := List.mem_filterMap.1 hitem
  cases item with
  | error fault => cases hok
  | ok found =>
    cases hok
    exact (printable_of_mem_readModule hread).1 name hname

theorem mem_commands {placed : Placed} (hmem : placed ∈ job.layout) {command : Command}
    (hitem : .ok command ∈ placed.step.items) : command ∈ job.commands := by
  obtain ⟨entry, hentry, hstep, -⟩ := of_mem_placeModules hmem
  exact List.mem_flatMap.2
    ⟨entry, hentry, List.mem_filterMap.2 ⟨_, Step.mem_items_of_mem_ofItems hstep hitem, rfl⟩⟩

/-- The commands of a `Titled` job are `Writable` in their modules. -/
theorem writable_of_mem (ht : job.Titled) {placed : Placed} (hmem : placed ∈ job.layout)
    {command : Command} (hitem : .ok command ∈ placed.step.items) :
    Writable placed.state.moduleName command.opcode := by
  obtain ⟨entry, hentry, hstep, hcurrent⟩ := of_mem_placeModules hmem
  refine ⟨(printable_of_mem hmem hitem).1, fun hcall => ?_⟩
  rw [State.moduleName, hcurrent]
  exact ht entry hentry ⟨command, Step.mem_items_of_mem_ofItems hstep hitem, hcall⟩

/-- Induction over the code of a job: the opening, the code of each step, and the end. -/
theorem artifact_induction {p : List Inst → Prop} (hnil : p [])
    (happend : ∀ code rest, p code → p rest → p (code ++ rest))
    (hstart : ∀ entry ∈ job.entry,
      p (comments job.options ["bootstrap: call " ++ entry.function] ++
        bootstrap entry.function (Label.callReturn bootModule entry.function 0)))
    (hstep : ∀ placed ∈ job.layout, p (placed.code job.options))
    (hend : p (comments job.options ["halt"] ++ halt)) : p job.artifact.code := by
  rw [job.artifact_code]
  refine happend _ _ (happend _ _ ?_ ?_) ?_
  · unfold opening Compile.opening
    cases hentry : job.entry with
    | none => exact hnil
    | some entry => exact hstart entry hentry
  · generalize job.layout = layout at hstep
    induction layout with
    | nil => exact hnil
    | cons placed layout ih =>
      exact happend _ _ (hstep placed List.mem_cons_self)
        (ih fun other hother => hstep other (List.mem_cons_of_mem _ hother))
  · unfold compileEnd
    split_ifs
    · exact hnil
    · exact hend

/-- The code of a `Titled` job is legible, except loads of its targets. -/
theorem allSound (ht : job.Titled)
    (hentry : ∀ entry ∈ job.entry, Text.IsWord entry.function.toList) :
    AllSound job.targets job.artifact.code := by
  refine artifact_induction (fun _ hnil => absurd hnil List.not_mem_nil)
    (fun code rest hcode hrest => allSound_append.2 ⟨hcode, hrest⟩) ?_ ?_ ?_
  · intro entry hmem
    refine allSound_append.2 ⟨AllLegible.allSound (allLegible_comments fun text htext => ?_) _, ?_⟩
    · rw [List.mem_singleton.1 htext, String.toList_append, List.mem_append, not_or]
      exact ⟨by decide, (hentry entry hmem).inline.1⟩
    · intro inst hinst
      refine (allSound_bootstrap 0 (hentry entry hmem) inst hinst).imp_right ?_
      rintro ⟨name, hname, rfl⟩
      rw [List.mem_singleton.1 hname]
      refine ⟨_, List.mem_append_left _ (List.mem_map_of_mem ?_), rfl⟩
      exact Option.mem_toList.2 hmem
  · intro placed hmem
    refine allSound_compileStep fun command hitem =>
      ⟨printable_of_mem hmem hitem, writable_of_mem ht hmem hitem, fun name hname => ?_⟩
    exact List.mem_append_right _ (List.mem_flatMap.2 ⟨command, mem_commands hmem hitem, hname⟩)
  · exact AllLegible.allSound
      (allLegible_append.2 ⟨allLegible_comments (by decide), allLegible_halt⟩) _

end Job

/-- A declared name is declared by a single step. -/
theorem Job.exists_single_of_declares {job : Job} {name : String} (hname : job.Declares name) :
    ∃ (i : Nat) (hi : i < job.layout.length) (command : Command),
      job.layout[i].step = .single command ∧ command.opcode.declared? = some name := by
  obtain ⟨command, hcommand, hdeclared⟩ := hname
  obtain ⟨entry, hentry, hitem⟩ := List.mem_flatMap.1 hcommand
  obtain ⟨item, hread, hok⟩ := List.mem_filterMap.1 hitem
  rw [← Step.flatMap_items_ofItems job.options.fuse entry.2] at hread
  obtain ⟨step, hstep, hread⟩ := List.mem_flatMap.1 hread
  have hmem : step ∈ job.layout.map Placed.step := by
    rw [job.map_step_layout]
    exact List.mem_flatMap.2 ⟨entry, hentry, hstep⟩
  obtain ⟨placed, hplaced, rfl⟩ := List.mem_map.1 hmem
  obtain ⟨i, hi, rfl⟩ := List.mem_iff_getElem.1 hplaced
  refine ⟨i, hi, command, ?_, hdeclared⟩
  cases item with
  | error fault => cases hok
  | ok found =>
    cases hok
    obtain ⟨hpush, hpop⟩ := Opcode.not_move_of_declared hdeclared
    exact Job.single_of_mem_items hplaced hread hpush hpop

/-- No name in a command is all digits or predefined, and all targets and the entry function are
declared. -/
structure Job.WellNamed (job : Job) : Prop where
  named : ∀ command ∈ job.commands, ∀ name ∈ command.opcode.names,
    name.toList.all Text.isDigit = false ∧ predefined? name = none
  targeted : ∀ command ∈ job.commands, ∀ name ∈ command.opcode.targets, job.Declares name
  entered : ∀ entry ∈ job.entry, job.Declares entry.function

instance (job : Job) : Decidable job.WellNamed :=
  decidable_of_iff (_ ∧ _ ∧ _)
    ⟨fun ⟨hnamed, htargeted, hentered⟩ => ⟨hnamed, htargeted, hentered⟩,
      fun ⟨hnamed, htargeted, hentered⟩ => ⟨hnamed, htargeted, hentered⟩⟩

/-- A `WellNamed` job whose text assembles to `program`, with fewer than 65536 ROM words. Lines may
have been rejected. -/
structure Linked (job : Job) (program : Program) : Prop extends Job.WellNamed job where
  assembled : (assemble job.artifact.text).1 = .ok program
  size : program.ops.size < 65536

/-- A `Linked` job without diagnostics. -/
structure Linkable (job : Job) (program : Program) : Prop extends Linked job program where
  clean : job.artifact.report.diagnostics = []

/-- `Linkable` from a Boolean test of `assemble`. -/
theorem exists_linkable {job : Job} (hclean : job.artifact.report.diagnostics = [])
    (hsize : (assemble job.artifact.text).1.toOption.any
      (fun program => program.ops.size < 65536) = true) (hnames : job.WellNamed) :
    ∃ program, Linkable job program := by
  obtain ⟨program, hprogram, hsmall⟩ := exists_assembled hsize
  exact ⟨program, ⟨hnames, hprogram, of_decide_eq_true hsmall⟩, hclean⟩

/-- `Linkable` with the ROM words that `assemble` gives. -/
theorem exists_linkable_of_ops {job : Job} {ops : List Op}
    (hclean : job.artifact.report.diagnostics = [])
    (hops : (assemble job.artifact.text).1.toOption.map (fun program => program.ops.toList) =
      some ops)
    (hsize : ops.length < 65536) (hnames : job.WellNamed) :
    ∃ program, Linkable job program ∧ program.ops.toList = ops := by
  obtain ⟨program, hprogram, hlist⟩ := Option.map_eq_some_iff.1 hops
  obtain ⟨found, hlink⟩ := exists_linkable hclean (by
    rw [hprogram, Option.any_some, decide_eq_true_iff, ← Array.length_toList, hlist]
    exact hsize) hnames
  rw [hlink.assembled] at hprogram
  cases hprogram
  exact ⟨program, hlink, hlist⟩

namespace Linked

variable {job : Job} {program : Program}

theorem isLabel_of_declares (h : Linked job program) {name : String} (hname : job.Declares name) :
    IsLabel name := by
  obtain ⟨command, hcommand, hdeclared⟩ := hname
  have hmem := Opcode.mem_names_of_declared hdeclared
  exact ⟨Job.isWord_of_mem_commands hcommand hmem, (h.named command hcommand name hmem).1⟩

theorem isLabel_of_mem_targets (h : Linked job program) {name : String}
    (hname : name ∈ job.targets) : IsLabel name := by
  refine h.isLabel_of_declares ?_
  rcases List.mem_append.1 hname with hname | hname
  · obtain ⟨entry, hentry, rfl⟩ := List.mem_map.1 hname
    exact h.entered entry (Option.mem_toList.1 hentry)
  · obtain ⟨command, hcommand, hname⟩ := List.mem_flatMap.1 hname
    exact h.targeted command hcommand name hname

/-- The code of a `Linked`, `Titled` job is legible. -/
theorem allLegible (h : Linked job program) (ht : job.Titled) : AllLegible job.artifact.code := by
  refine (Job.allSound ht fun entry hentry => ?_).allLegible fun name => h.isLabel_of_mem_targets
  exact (h.isLabel_of_declares (h.entered entry hentry)).1

theorem loaded (h : Linked job program) (ht : job.Titled) :
    Loaded (labelsOf program.symbols) job.artifact.code program.ops :=
  loaded_of_assemble (h.allLegible ht) h.assembled

end Linked

/-! ## Addresses -/

theorem instructionCount_comments (options : Options) (texts : List String) :
    instructionCount (comments options texts) = 0 := by
  unfold comments
  split_ifs
  · rw [instructionCount, List.countP_eq_zero]
    intro inst hinst
    obtain ⟨text, -, rfl⟩ := List.mem_map.1 hinst
    exact Bool.false_ne_true
  · rfl

namespace Job

variable (job : Job)

theorem start_succ {i : Nat} (hi : i < job.layout.length) :
    job.start (i + 1) = job.start i + instructionCount (job.layout[i].code job.options) := by
  rw [start, before, List.take_succ_eq_append_getElem hi, List.flatMap_append, ← List.append_assoc,
    instructionCount_append, ← before, ← start, List.flatMap_singleton]

theorem start_zero (h : job.entry = none) : job.start 0 = 0 := by
  rw [start, before, opening, h, Compile.opening]
  rfl

theorem start_mono : Monotone job.start := by
  refine monotone_nat_of_le_succ fun i => ?_
  by_cases hi : i < job.layout.length
  · rw [job.start_succ hi]
    exact Nat.le_add_right _ _
  · rw [start, start, before, before, List.take_of_length_le (Nat.le_of_not_lt hi),
      List.take_of_length_le (Nat.le_succ_of_le (Nat.le_of_not_lt hi))]

/-- The code of a job, split before step `i`. -/
theorem artifact_code_before (i : Nat) : job.artifact.code = job.before i ++
    ((job.layout.drop i).flatMap (Placed.code job.options) ++
      (compileEnd job.options job.finalState).code) := by
  rw [artifact_code, before]
  nth_rewrite 1 [← List.take_append_drop i job.layout]
  simp only [List.flatMap_append, List.append_assoc]

/-- The code of a job, split around step `i`. -/
theorem artifact_code_split {i : Nat} (hi : i < job.layout.length) :
    ∃ after, job.artifact.code = job.before i ++ job.layout[i].code job.options ++ after := by
  rw [job.artifact_code_before i, List.drop_eq_getElem_cons hi, List.flatMap_cons,
    List.append_assoc, ← List.append_assoc (job.before i)]
  exact ⟨_, rfl⟩

/-- The code of a lowered single step: its comment and the lowered code. -/
theorem code_of_lower {job : Job} {i : Nat} (hi : i < job.layout.length) {command : Command}
    (hstep : job.layout[i].step = .single command) {lowered : Lowered}
    (hlower : lower job.layout[i].state command.opcode = .ok lowered) :
    job.layout[i].code job.options =
      comments job.options [command.sourceText] ++ lowered.code := by
  rw [Placed.code, Placed.emission, hstep, compileStep, compileCommand, hlower]

/-- The code of a single step that declares `name`: its comment and the label `name` in front. -/
theorem code_of_declared {job : Job} {i : Nat} (hi : i < job.layout.length) {command : Command}
    (hstep : job.layout[i].step = .single command) {name : String}
    (hname : command.opcode.declared? = some name) :
    ∃ rest, job.layout[i].code job.options =
      comments job.options [command.sourceText] ++ .label name :: rest := by
  obtain ⟨lowered, hlower⟩ := exists_lower_of_declared job.layout[i].state hname
  obtain ⟨rest, hrest⟩ := (lowers_of_lower hlower).head_of_declared hname
  exact ⟨rest, by rw [code_of_lower hi hstep hlower, hrest]⟩

end Job

namespace Linked

variable {job : Job} {program : Program}

/-- Step `i` stands in the ROM at `job.start i`. -/
theorem holdsAt (h : Linked job program) (ht : job.Titled) {i : Nat}
    (hi : i < job.layout.length) :
    HoldsAt (labelsOf program.symbols) program.ops (job.start i) (job.layout[i].code job.options) ∧
      Binds (labelsOf program.symbols) (job.start i) (job.layout[i].code job.options) := by
  obtain ⟨after, hcode⟩ := job.artifact_code_split hi
  have hloaded := h.loaded ht
  rw [hcode] at hloaded
  exact hloaded.holdsAt

theorem start_lt (h : Linked job program) (ht : job.Titled) (i : Nat) : job.start i < 65536 := by
  refine lt_of_le_of_lt ?_ h.size
  rw [← Array.length_toList, (h.loaded ht).ops, length_ops, job.artifact_code_before i,
    instructionCount_append, ← Job.start]
  exact Nat.le_add_right _ _

/-- `job.start i < 2 ^ 16`. -/
theorem toNat_start (h : Linked job program) (ht : job.Titled) (i : Nat) :
    (UInt16.ofNat (job.start i)).toNat = job.start i :=
  UInt16.toNat_ofNat_of_lt' (h.start_lt ht i)

/-- The code of step `i` without its comments stands in the ROM at `job.start i`, and its labels are
bound. -/
theorem holdsAt_uncommented (h : Linked job program) (ht : job.Titled) {i : Nat}
    (hi : i < job.layout.length) {texts : List String} {code : List Inst}
    (hcode : job.layout[i].code job.options = comments job.options texts ++ code) :
    job.start (i + 1) = job.start i + instructionCount code ∧
      HoldsAt (labelsOf program.symbols) program.ops (job.start i) code ∧
      Binds (labelsOf program.symbols) (job.start i) code := by
  have hcount := job.start_succ hi
  obtain ⟨hholds, hbinds⟩ := h.holdsAt ht hi
  rw [hcode] at hholds hbinds hcount
  have hholds := hholds.right
  have hbinds := hbinds.right
  rw [instructionCount_append, instructionCount_comments, Nat.zero_add] at hcount
  rw [instructionCount_comments, Nat.add_zero] at hholds hbinds
  exact ⟨hcount, hholds, hbinds⟩

/-- A declared name has the address `job.start i` of its step. -/
theorem address_of_declared (h : Linked job program) (ht : job.Titled) {i : Nat}
    (hi : i < job.layout.length) {command : Command} (hstep : job.layout[i].step = .single command)
    {name : String} (hname : command.opcode.declared? = some name) :
    labelsOf program.symbols name = UInt16.ofNat (job.start i) := by
  obtain ⟨rest, hcode⟩ := Job.code_of_declared hi hstep hname
  exact (h.holdsAt_uncommented ht hi hcode).2.2.head

end Linked

namespace Linkable

variable {job : Job} {program : Program}

/-- The steps of a `Linkable` job are single or fused, none is a malformed line. -/
theorem step_of_mem (h : Linkable job program) {placed : Placed} (hmem : placed ∈ job.layout) :
    (∃ command, placed.step = .single command) ∨
      ∃ first second, placed.step = .fused first second := by
  have hclean := Job.clean_of_mem h.clean hmem
  cases hkind : placed.step with
  | single command => exact .inl ⟨command, rfl⟩
  | fused first second => exact .inr ⟨first, second, rfl⟩
  | fault reason =>
    rw [Placed.emission, hkind] at hclean
    cases hclean

end Linkable

end HackVM.Compile
