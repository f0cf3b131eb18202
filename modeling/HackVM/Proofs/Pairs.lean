/-
  Fused pairs and their commands. Compiled one by one, the commands of a program meet the same
  compiler states as in pairs (`compilePair_state`), so the unfused layout is the fused one taken
  apart (`Job.layout_unfused`). `Job.position` gives the index of the first command of a step.
-/
import Mathlib
import HackVM.Proofs.Layout

namespace HackVM

open Assembly Compile

namespace Compile

/-- `compileStep` does not depend on the option `fuse`. -/
theorem compileStep_fuse (options : Options) (fuse : Bool) (s : State) (step : Step) :
    compileStep { options with fuse } s step = compileStep options s step := by
  cases step <;> rfl

theorem placeSteps_append (options : Options) (s : State) (steps others : List Step) :
    placeSteps options s (steps ++ others) = placeSteps options s steps ++
      placeSteps options (sweep (compileStep options) s steps).2 others := by
  induction steps generalizing s with
  | nil => rfl
  | cons step steps ih => rw [List.cons_append, placeSteps, placeSteps, ih, sweep_cons]; rfl

/-- `move` and `pop` succeed on the same targets. -/
theorem exists_move_iff (source : Operand) {target : Resolved} :
    (∃ code, move source target = .ok code) ↔ ∃ code, pop target = .ok code := by
  unfold move pop
  split
  · simp
  · exact ⟨fun _ => ⟨_, rfl⟩, fun _ => ⟨_, rfl⟩⟩
  · split_ifs <;> exact ⟨fun _ => ⟨_, rfl⟩, fun _ => ⟨_, rfl⟩⟩

/-- If a push and a pop are both lowered, `lowerMove` succeeds. -/
theorem exists_lowerMove {s s₁ s₂ : State} {first second : Opcode} {one two : List Inst}
    (hfirst : first.isPush = true) (hsecond : second.isPop = true) (hone : Lowers s first one s₁)
    (htwo : Lowers s₁ second two s₂) : ∃ lowered, lowerMove s first second = .ok lowered := by
  cases hone with
  | @push _ _ source _ hsource =>
    cases htwo with
    | @pop _ _ target _ _ htarget hpop =>
      obtain ⟨code, hmove⟩ := (exists_move_iff source.operand).2 ⟨_, hpop⟩
      exact ⟨⟨code, s₂, source.events ++ target.events⟩, by
        simp only [lowerMove, hsource, htarget, hmove]⟩
    | _ => cases hsecond
  | _ => cases hfirst

/-- A pair without diagnostics is one move. -/
theorem lowersMove_of_clean {options : Options} {s : State} {first second : Command}
    (hfirst : first.opcode.isPush = true) (hsecond : second.opcode.isPop = true)
    (h : (compilePair options s first second).1.diagnostics = []) :
    ∃ code, LowersMove s first.opcode second.opcode code (compilePair options s first second).2 ∧
      (compilePair options s first second).1.code =
        comments options [first.sourceText, second.sourceText] ++ code := by
  rcases compilePair_of_clean h with hmove | ⟨s₁, one, two, hone, htwo, -⟩
  · exact hmove
  · obtain ⟨lowered, hmove⟩ := exists_lowerMove hfirst hsecond hone htwo
    unfold compilePair
    rw [hmove]
    exact ⟨lowered.code, lowersMove_of_lowerMove hmove, rfl⟩

theorem compileCommand_state {options : Options} {s : State} {command : Command} {lowered : Lowered}
    (h : lower s command.opcode = .ok lowered) :
    (compileCommand options s command).2 = lowered.state := by
  rw [compileCommand, h]

/-- If `lowerMove` succeeds, the push and the pop are both lowered, with the same final state. -/
theorem LowersMove.exists_lower {s s₂ : State} {first second : Opcode} {code : List Inst}
    (h : LowersMove s first second code s₂) :
    ∃ (source target : Resolved) (s₁ : State) (popped : List Inst),
      lower s first = .ok ⟨push source.operand, s₁, source.events⟩ ∧
      lower s₁ second = .ok ⟨popped, s₂, target.events⟩ ∧
      pop target = .ok popped ∧ move source.operand target = .ok code := by
  cases h with
  | @intro segment segment' index index' source target s₁ _ _ hsource htarget hcode =>
    obtain ⟨popped, hpop⟩ := (exists_move_iff source.operand).1 ⟨_, hcode⟩
    refine ⟨source, target, s₁, popped, ?_, ?_, hpop, hcode⟩
    · rw [lower, hsource]
    · simp only [lower, htarget, hpop]

/-- A pair leaves the state of its two commands one by one. -/
theorem compilePair_state (options : Options) (s : State) (first second : Command) :
    (compilePair options s first second).2 =
      (compileCommand options (compileCommand options s first).2 second).2 := by
  cases hmove : lowerMove s first.opcode second.opcode with
  | error attempt => rw [compilePair_of_error options hmove]
  | ok lowered =>
    obtain ⟨source, target, s₁, popped, hone, htwo, -⟩ :=
      (lowersMove_of_lowerMove hmove).exists_lower
    rw [compilePair, hmove, compileCommand_state hone, compileCommand_state htwo]

/-- A step leaves the state of its commands one by one. -/
theorem sweep_singles (options : Options) (s : State) (step : Step) :
    (sweep (compileStep options) s step.singles).2 = (compileStep options s step).2 := by
  cases step with
  | single command => rfl
  | fault reason => rfl
  | fused first second => exact (compilePair_state options s first second).symm

/-- The commands of a step with their states. -/
def Placed.singles (options : Options) (placed : Placed) : List Placed :=
  placeSteps options placed.state placed.step.singles

theorem Placed.singles_single (options : Options) {placed : Placed} {command : Command}
    (h : placed.step = .single command) : placed.singles options = [placed] := by
  obtain ⟨s, step⟩ := placed
  cases h
  rfl

theorem Placed.singles_fused (options : Options) {placed : Placed} {first second : Command}
    (h : placed.step = .fused first second) : placed.singles options =
      [⟨placed.state, .single first⟩,
        ⟨(compileCommand options placed.state first).2, .single second⟩] := by
  rw [Placed.singles, h]
  rfl

theorem length_singles (options : Options) (placed : Placed) :
    (placed.singles options).length = placed.step.items.length := by
  rw [← List.length_map Placed.step, Placed.singles, map_step_placeSteps, Step.singles,
    List.length_map]

theorem placeSteps_singles (options : Options) (s : State) (steps : List Step) :
    placeSteps options s (steps.flatMap Step.singles) =
      (placeSteps options s steps).flatMap (Placed.singles options) := by
  induction steps generalizing s with
  | nil => rfl
  | cons step steps ih =>
    rw [List.flatMap_cons, placeSteps_append, sweep_singles, ih]
    rfl

theorem sweep_flatMap_singles (options : Options) (s : State) (steps : List Step) :
    (sweep (compileStep options) s (steps.flatMap Step.singles)).2 =
      (sweep (compileStep options) s steps).2 := by
  induction steps generalizing s with
  | nil => rfl
  | cons step steps ih =>
    rw [List.flatMap_cons, sweep_append, sweep_cons, ← sweep_singles, ih]

/-- The state after a module does not depend on the option `fuse`. -/
theorem compileModule_state (options : Options) (s : State) (name : String) (items : List Item) :
    (compileModule { options with fuse := false } s name items).2 =
      (compileModule { options with fuse := true } s name items).2 := by
  change (sweep (compileStep _) (s.enter name).1 (Step.ofItems false items)).2 =
    (sweep (compileStep _) (s.enter name).1 (Step.ofItems true items)).2
  rw [sweep_options _ options, sweep_options { options with fuse := true } options,
    ← Step.flatMap_singles, sweep_flatMap_singles]

theorem placeModules_singles (options : Options) (s : State) (modules : List (String × List Item)) :
    placeModules { options with fuse := false } s modules =
      (placeModules { options with fuse := true } s modules).flatMap (Placed.singles options) := by
  induction modules generalizing s with
  | nil => rfl
  | cons first modules ih =>
    obtain ⟨name, items⟩ := first
    rw [placeModules, placeModules, List.flatMap_append, compileModule_state, ih,
      placeSteps_options _ options, placeSteps_options { options with fuse := true } options]
    simp only
    rw [← Step.flatMap_singles, placeSteps_singles]

/-! ## The two layouts -/

section

variable (options : Options) (entry : Option Entry) (modules : List (String × List Item))

theorem opening_fuse (fuse : Bool) :
    opening { options with fuse } entry = opening options entry := by
  unfold opening
  cases entry <;> rfl

/-- The layout without fusing is the fused one, taken apart by `singles`. -/
theorem layoutOf_unfused : layoutOf { options with fuse := false } entry modules =
    (layoutOf { options with fuse := true } entry modules).flatMap (Placed.singles options) := by
  unfold layoutOf
  rw [opening_fuse options entry true, opening_fuse options entry false, placeModules_singles]

end

namespace Job

variable (job : Job)

/-- The job with the option `fuse` set. -/
def fusing (fuse : Bool) : Job := { job with options := { job.options with fuse } }

/-- The number of commands before step `j`. -/
def position (j : Nat) : Nat :=
  ((job.layout.take j).flatMap fun placed => placed.step.items).length

/-- The layout without fusing is the fused one, taken apart by `singles`. -/
theorem layout_unfused : (job.fusing false).layout =
    (job.fusing true).layout.flatMap (Placed.singles job.options) :=
  layoutOf_unfused job.options job.entry job.modules

variable {job}

theorem position_eq (j : Nat) : (job.fusing true).position j =
    (((job.fusing true).layout.take j).flatMap (Placed.singles job.options)).length := by
  rw [position, List.length_flatMap, List.length_flatMap]
  simp only [length_singles]

theorem position_succ {j : Nat} (hj : j < job.layout.length) :
    job.position (j + 1) = job.position j + job.layout[j].step.items.length := by
  rw [position, position, List.take_succ_eq_append_getElem hj, List.flatMap_append,
    List.length_append, List.flatMap_singleton]

theorem position_length :
    (job.fusing true).position (job.fusing true).layout.length =
      (job.fusing false).layout.length := by
  rw [position_eq, List.take_length, layout_unfused]

theorem position_mono : Monotone job.position := by
  refine monotone_nat_of_le_succ fun j => ?_
  by_cases hj : j < job.layout.length
  · rw [position_succ hj]
    exact Nat.le_add_right _ _
  · rw [position, position, List.take_of_length_le (Nat.le_of_not_lt hj),
      List.take_of_length_le (Nat.le_succ_of_le (Nat.le_of_not_lt hj))]

/-- Command `r` of fused step `j` is step `position j + r` without fusing. -/
theorem getElem?_position {j : Nat} (hj : j < (job.fusing true).layout.length) {r : Nat}
    (hr : r < ((job.fusing true).layout[j].singles job.options).length) :
    (job.fusing false).layout[(job.fusing true).position j + r]? =
      ((job.fusing true).layout[j].singles job.options)[r]? := by
  have hsplit : (job.fusing true).layout = (job.fusing true).layout.take j ++
      (job.fusing true).layout[j] :: (job.fusing true).layout.drop (j + 1) := by
    rw [← List.drop_eq_getElem_cons hj, List.take_append_drop]
  rw [layout_unfused, position_eq]
  nth_rewrite 1 [hsplit]
  rw [List.flatMap_append, List.flatMap_cons, List.getElem?_append_right (Nat.le_add_right _ _),
    Nat.add_sub_cancel_left, List.getElem?_append_left hr]

theorem unfused_single {j : Nat} (hj : j < (job.fusing true).layout.length) {command : Command}
    (hstep : (job.fusing true).layout[j].step = .single command) :
    (job.fusing false).layout[(job.fusing true).position j]? = some (job.fusing true).layout[j] ∧
      (job.fusing true).position (j + 1) = (job.fusing true).position j + 1 := by
  have hplaced := Placed.singles_single job.options hstep
  constructor
  · have hget := getElem?_position hj (r := 0) (by rw [hplaced]; exact Nat.one_pos)
    rwa [hplaced] at hget
  · rw [position_succ hj, hstep]
    rfl

theorem unfused_fused {j : Nat} (hj : j < (job.fusing true).layout.length) {first second : Command}
    (hstep : (job.fusing true).layout[j].step = .fused first second) :
    (job.fusing false).layout[(job.fusing true).position j]? =
        some ⟨(job.fusing true).layout[j].state, .single first⟩ ∧
      (job.fusing false).layout[(job.fusing true).position j + 1]? = some
        ⟨(compileCommand job.options (job.fusing true).layout[j].state first).2, .single second⟩ ∧
      (job.fusing true).position (j + 1) = (job.fusing true).position j + 2 := by
  have hplaced := Placed.singles_fused job.options hstep
  refine ⟨?_, ?_, ?_⟩
  · have hget := getElem?_position hj (r := 0) (by rw [hplaced]; exact Nat.two_pos)
    rwa [hplaced] at hget
  · have hget := getElem?_position hj (r := 1) (by rw [hplaced]; exact Nat.one_lt_two)
    rwa [hplaced] at hget
  · rw [position_succ hj, hstep]
    rfl

end Job

end Compile

end HackVM
