/-
  The cost of fusing. Diagnostics and compiler states do not depend on the option `fuse`
  (`diagnostics_singles`, `compileModules_state`). A pair that cannot be moved compiles as its two
  commands, and a move is shorter than its push and pop (`instructionCount_move_lt`); so fused code
  is never longer, and shorter iff some push and the pop behind it both compile
  (`fusion_only_shortens`).
-/
import Mathlib
import HackVM.Proofs.Pairs

namespace HackVM

open Assembly Compile

namespace Compile

/-- A placed step has the state after the steps before it. -/
theorem mem_placeSteps_iff {options : Options} {s : State} {steps : List Step} {placed : Placed} :
    placed ∈ placeSteps options s steps ↔ ∃ before after, steps = before ++ placed.step :: after ∧
      placed.state = (sweep (compileStep options) s before).2 := by
  constructor
  · intro h
    induction steps generalizing s with
    | nil => cases h
    | cons step steps ih =>
      rcases List.mem_cons.1 h with rfl | h
      · exact ⟨[], steps, rfl, rfl⟩
      · obtain ⟨before, after, rfl, hstate⟩ := ih h
        refine ⟨step :: before, after, rfl, ?_⟩
        rw [hstate, sweep_cons]
  · rintro ⟨before, after, rfl, hstate⟩
    rw [placeSteps_append, List.mem_append, ← hstate]
    exact .inr List.mem_cons_self

/-- A placed step has the state after the modules and steps before it. -/
theorem mem_placeModules_iff {options : Options} {s : State} {modules : List (String × List Item)}
    {placed : Placed} :
    placed ∈ placeModules options s modules ↔ ∃ before name items after,
      modules = before ++ (name, items) :: after ∧
      placed ∈ placeSteps options ((compileModules options s before).2.enter name).1
        (Step.ofItems options.fuse items) := by
  induction modules generalizing s with
  | nil => simp [placeModules]
  | cons first modules ih =>
    obtain ⟨name, items⟩ := first
    rw [placeModules, List.mem_append, ih]
    constructor
    · rintro (h | ⟨before, other, found, after, rfl, h⟩)
      · exact ⟨[], name, items, modules, rfl, h⟩
      · refine ⟨(name, items) :: before, other, found, after, rfl, ?_⟩
        rwa [compileModules_cons]
    · rintro ⟨before, other, found, after, hmodules, h⟩
      rcases List.cons_eq_append_iff.1 hmodules with ⟨rfl, hhead⟩ | ⟨rest, rfl, htail⟩
      · cases hhead
        exact .inl h
      · rw [compileModules_cons] at h
        exact .inr ⟨rest, other, found, after, htail, h⟩

/-! ## One pair -/

/-- A command has no diagnostics iff it is lowered. -/
theorem compileCommand_clean_iff {options : Options} {s : State} {command : Command} :
    (compileCommand options s command).1.diagnostics = [] ↔
      ∃ lowered, lower s command.opcode = .ok lowered := by
  unfold compileCommand
  cases lower s command.opcode with
  | ok lowered => exact ⟨fun _ => ⟨lowered, rfl⟩, fun _ => rfl⟩
  | error fault => exact ⟨fun h => absurd h (List.cons_ne_nil _ _), nofun⟩

/-- `lowerMove` succeeds iff both commands compile without diagnostics. -/
theorem exists_lowerMove_iff (options : Options) {s : State} {first second : Command}
    (hfirst : first.opcode.isPush = true) (hsecond : second.opcode.isPop = true) :
    (∃ lowered, lowerMove s first.opcode second.opcode = .ok lowered) ↔
      (compileCommand options s first).1.diagnostics = [] ∧
        (compileCommand options (compileCommand options s first).2 second).1.diagnostics = [] := by
  constructor
  · rintro ⟨lowered, hmove⟩
    obtain ⟨source, target, s₁, popped, hone, htwo, -⟩ :=
      (lowersMove_of_lowerMove hmove).exists_lower
    rw [compileCommand_state hone]
    exact ⟨compileCommand_clean_iff.2 ⟨_, hone⟩, compileCommand_clean_iff.2 ⟨_, htwo⟩⟩
  · rintro ⟨hone, htwo⟩
    obtain ⟨one, hone, -⟩ := compileCommand_of_clean hone
    obtain ⟨two, htwo, -⟩ := compileCommand_of_clean htwo
    exact exists_lowerMove hfirst hsecond hone htwo

/-- `move` is shorter than `push` and `pop` together. -/
theorem instructionCount_move_lt {source : Operand} {target : Resolved} {moved popped : List Inst}
    (hmove : move source target = .ok moved) (hpop : pop target = .ok popped) :
    instructionCount moved < instructionCount (push source) + instructionCount popped := by
  have hpush : instructionCount (push source) = instructionCount (operandToD source) + 4 := by
    rw [push, instructionCount_append]
    rfl
  have hsum : ∀ pops, instructionCount (storeViaSum pops) = 5 := by
    intro pops
    cases pops <;> rfl
  rw [hpush]
  unfold move at hmove
  unfold pop at hpop
  split at hmove
  · cases hmove
  · rename_i address htarget
    rw [htarget] at hpop
    cases hmove
    cases hpop
    simp only [instructionCount_append]
    rw [show instructionCount popToD = 3 from rfl, show
      instructionCount [Inst.load address, Inst.assign .m .d] = 2 from rfl]
    omega
  · rename_i base index htarget
    rw [htarget] at hpop
    dsimp only at hpop
    split_ifs at hmove hpop
    · cases hmove
      cases hpop
      simp only [instructionCount_append]
      rw [show instructionCount popToD = 3 from rfl]
      omega
    · cases hmove
      cases hpop
      simp only [instructionCount_append, hsum]
      rw [show instructionCount [Inst.reg .sp, Inst.assign .a (.src .m), Inst.assign .m .d] = 3
        from rfl]
      omega

/-- The emissions of the two commands of a pair. -/
theorem flatMap_singles_fused {α : Type} (f : Emission → List α) (options : Options) (s : State)
    (first second : Command) :
    ((Placed.mk s (.fused first second)).singles options).flatMap
        (fun placed => f (placed.emission options)) =
      f (compileCommand options s first).1 ++
        f (compileCommand options (compileCommand options s first).2 second).1 := by
  rw [Placed.singles_fused options rfl]
  exact congrArg (f (compileCommand options s first).1 ++ ·) (List.append_nil _)

/-- A step has the diagnostics of its commands one by one. -/
theorem diagnostics_singles (options : Options) (placed : Placed) :
    (placed.singles options).flatMap (fun single => (single.emission options).diagnostics) =
      (placed.emission options).diagnostics := by
  obtain ⟨s, step⟩ := placed
  cases step with
  | single command | fault reason => exact List.append_nil _
  | fused first second =>
    rw [flatMap_singles_fused Emission.diagnostics]
    change _ = (compilePair options s first second).1.diagnostics
    cases hmove : lowerMove s first.opcode second.opcode with
    | error attempt =>
      rw [compilePair_of_error options hmove]
      rfl
    | ok lowered =>
      obtain ⟨source, target, s₁, popped, hone, htwo, -⟩ :=
        (lowersMove_of_lowerMove hmove).exists_lower
      rw [compilePair, hmove, compileCommand_clean_iff.2 ⟨_, hone⟩, compileCommand_state hone,
        compileCommand_clean_iff.2 ⟨_, htwo⟩]
      rfl

/-- A fused step for which `lowerMove` succeeds. -/
def Placed.Moved (placed : Placed) : Prop :=
  ∃ first second lowered, placed.step = .fused first second ∧
    lowerMove placed.state first.opcode second.opcode = .ok lowered

theorem instructionCount_compileCommand {options : Options} {s : State} {command : Command}
    {lowered : Lowered} (h : lower s command.opcode = .ok lowered) :
    instructionCount (compileCommand options s command).1.code = instructionCount lowered.code := by
  rw [compileCommand, h]
  simp only [instructionCount_append, instructionCount_comments, Nat.zero_add]

/-- A `Moved` step is shorter than its commands one by one; any other step is as long. -/
theorem instructionCount_singles (options : Options) (placed : Placed) :
    (placed.Moved ∧ instructionCount (placed.code options) <
        instructionCount ((placed.singles options).flatMap (Placed.code options))) ∨
      (¬placed.Moved ∧ instructionCount (placed.code options) =
        instructionCount ((placed.singles options).flatMap (Placed.code options))) := by
  obtain ⟨s, step⟩ := placed
  cases step with
  | single command | fault reason =>
    refine .inr ⟨?_, congrArg instructionCount (List.append_nil _).symm⟩
    rintro ⟨first, second, lowered, hstep, -⟩
    cases hstep
  | fused first second =>
    change _ ∧ _ < instructionCount (((Placed.mk s (.fused first second)).singles options).flatMap
        fun placed => Emission.code (placed.emission options)) ∨
      _ ∧ _ = instructionCount (((Placed.mk s (.fused first second)).singles options).flatMap
        fun placed => Emission.code (placed.emission options))
    rw [flatMap_singles_fused Emission.code, instructionCount_append]
    change _ ∧ instructionCount (compilePair options s first second).1.code < _ ∨
      _ ∧ instructionCount (compilePair options s first second).1.code = _
    cases hmove : lowerMove s first.opcode second.opcode with
    | error attempt =>
      refine .inr ⟨?_, ?_⟩
      · rintro ⟨other, behind, lowered, hstep, hlowered⟩
        cases hstep
        rw [hmove] at hlowered
        cases hlowered
      · rw [compilePair_of_error options hmove, ← instructionCount_append]
        rfl
    | ok lowered =>
      obtain ⟨source, target, s₁, popped, hone, htwo, hpop, hcode⟩ :=
        (lowersMove_of_lowerMove hmove).exists_lower
      refine .inl ⟨⟨first, second, lowered, rfl, hmove⟩, ?_⟩
      rw [compileCommand_state hone, instructionCount_compileCommand hone,
        instructionCount_compileCommand htwo, compilePair, hmove]
      simp only [instructionCount_append, instructionCount_comments, Nat.zero_add]
      exact instructionCount_move_lt hcode hpop

/-- The code of `steps` is at most as long as that of their commands, and as long iff no step is
`Moved`. -/
theorem instructionCount_flatMap_singles (options : Options) (steps : List Placed) :
    instructionCount (steps.flatMap (Placed.code options)) ≤
        instructionCount ((steps.flatMap (Placed.singles options)).flatMap (Placed.code options)) ∧
      (instructionCount (steps.flatMap (Placed.code options)) =
        instructionCount ((steps.flatMap (Placed.singles options)).flatMap (Placed.code options)) ↔
          ¬∃ placed ∈ steps, placed.Moved) := by
  induction steps with
  | nil => simp
  | cons placed steps ih =>
    obtain ⟨hle, hiff⟩ := ih
    simp only [List.flatMap_cons, List.flatMap_append, instructionCount_append,
      List.exists_mem_cons_iff, not_or]
    rcases instructionCount_singles options placed with ⟨hmoved, hlt⟩ | ⟨hmoved, heq⟩
    · refine ⟨by omega, fun h => by omega, fun h => absurd hmoved h.1⟩
    · rw [heq, Nat.add_left_cancel_iff, hiff]
      exact ⟨by omega, fun h => ⟨hmoved, h⟩, And.right⟩

/-! ## Programs -/

section

variable (options : Options) (entry : Option Entry) (modules : List (String × List Item))

theorem compileModules_state (s : State) :
    (compileModules { options with fuse := true } s modules).2 =
      (compileModules { options with fuse := false } s modules).2 := by
  induction modules generalizing s with
  | nil => rfl
  | cons first modules ih =>
    obtain ⟨name, items⟩ := first
    rw [compileModules_cons, compileModules_cons, compileModule_state, ih]

theorem finalState_fused : finalState { options with fuse := true } entry modules =
    finalState { options with fuse := false } entry modules := by
  unfold finalState
  rw [opening_fuse options entry true, opening_fuse options entry false, compileModules_state]

/-- The state of the item behind `earlier` in module `name`, after the modules `before`, without
fusing. -/
def stateAt (before : List (String × List Item)) (name : String) (earlier : List Item) : State :=
  (sweep (compileStep { options with fuse := false })
    ((finalState { options with fuse := false } entry before).enter name).1
    (Step.ofItems false earlier)).2

/-- Some module has a push directly before a pop, and both compile without diagnostics in their
states. -/
def HasMovablePair : Prop :=
  ∃ before name earlier push pop later after,
    modules = before ++ (name, earlier ++ .ok push :: .ok pop :: later) :: after ∧
    push.opcode.isPush = true ∧ pop.opcode.isPop = true ∧
    (compileCommand options (stateAt options entry before name earlier) push).1.diagnostics = [] ∧
    (compileCommand options (compileCommand options (stateAt options entry before name earlier)
      push).2 pop).1.diagnostics = []

/-- The fused layout has a `Moved` step iff `HasMovablePair`. -/
theorem exists_moved_iff :
    (∃ placed ∈ layoutOf { options with fuse := true } entry modules, placed.Moved) ↔
      HasMovablePair options entry modules := by
  constructor
  · rintro ⟨⟨s, step⟩, hmem, first, second, lowered, hstep, hmove⟩
    cases hstep
    obtain ⟨before, name, items, after, rfl, hplaced⟩ := mem_placeModules_iff.1 hmem
    have hfused := (of_mem_placeSteps hplaced).1
    obtain ⟨-, hfirst, hsecond⟩ := Step.of_fused_mem_ofItems hfused
    obtain ⟨steps, others, hsteps, hstate⟩ := mem_placeSteps_iff.1 hplaced
    have hitems : items = steps.flatMap Step.items ++ .ok first :: .ok second ::
        others.flatMap Step.items := by
      rw [← Step.flatMap_items_ofItems true items, hsteps, List.flatMap_append, List.flatMap_cons]
      rfl
    have hs : s = stateAt options entry before name (steps.flatMap Step.items) := by
      refine hstate.trans ?_
      rw [stateAt, ← finalState_fused, sweep_options _ options,
        sweep_options { options with fuse := false } options, Step.ofItems_false, List.map_flatMap]
      exact (sweep_flatMap_singles options _ steps).symm
    subst hs
    rw [hitems]
    exact ⟨before, name, _, first, second, _, after, rfl, hfirst, hsecond,
      (exists_lowerMove_iff options hfirst hsecond).1 ⟨lowered, hmove⟩⟩
  · rintro ⟨before, name, earlier, push, pop, later, after, rfl, hpush, hpop, hclean⟩
    obtain ⟨lowered, hmove⟩ := (exists_lowerMove_iff options hpush hpop).2 hclean
    refine ⟨⟨stateAt options entry before name earlier, .fused push pop⟩, ?_,
      push, pop, lowered, rfl, hmove⟩
    refine mem_placeModules_iff.2 ⟨before, name, _, after, rfl, mem_placeSteps_iff.2
      ⟨Step.ofItems true earlier, Step.ofItems true later, ?_, ?_⟩⟩
    · exact Step.ofItems_append_pair hpush hpop
    · rw [stateAt, ← finalState_fused, sweep_options _ options,
        sweep_options { options with fuse := true } options, ← Step.flatMap_singles,
        sweep_flatMap_singles]
      rfl

/-- The length of a program, by opening, layout and end. -/
theorem instructionCount_compileProgram (fuse : Bool) :
    (compileProgram { options with fuse } entry modules).instructionCount =
      instructionCount (opening options entry).1.code +
        instructionCount ((layoutOf { options with fuse } entry modules).flatMap
          (Placed.code options)) +
        instructionCount (compileEnd options
          (finalState { options with fuse } entry modules)).code := by
  have hcode : Placed.code { options with fuse } = Placed.code options := by
    funext placed
    rw [Placed.code, Placed.emission, compileStep_fuse]
    rfl
  rw [Artifact.instructionCount, code_compileProgram, instructionCount_append,
    instructionCount_append, opening_fuse, hcode]
  rfl

theorem diagnostics_fused :
    (compileProgram { options with fuse := true } entry modules).report.diagnostics =
      (compileProgram { options with fuse := false } entry modules).report.diagnostics := by
  have hemission : ∀ fuse, Placed.emission { options with fuse } = Placed.emission options := by
    intro fuse
    funext placed
    rw [Placed.emission, compileStep_fuse]
    rfl
  rw [diagnostics_compileProgram, diagnostics_compileProgram, layoutOf_unfused, hemission true,
    hemission false, List.flatMap_assoc]
  simp only [diagnostics_singles]

/-- **Fusing pairs.** The option `fuse` changes neither the report nor the final state. With it the
code is at most as long as without, and as long iff no push and pop in a row both compile without
diagnostics. -/
theorem fusion_only_shortens :
    (compileProgram { options with fuse := true } entry modules).report =
        (compileProgram { options with fuse := false } entry modules).report ∧
      finalState { options with fuse := true } entry modules =
        finalState { options with fuse := false } entry modules ∧
      (compileProgram { options with fuse := true } entry modules).instructionCount ≤
        (compileProgram { options with fuse := false } entry modules).instructionCount ∧
      ((compileProgram { options with fuse := true } entry modules).instructionCount =
          (compileProgram { options with fuse := false } entry modules).instructionCount ↔
        ¬HasMovablePair options entry modules) := by
  obtain ⟨hle, hiff⟩ := instructionCount_flatMap_singles options
    (layoutOf { options with fuse := true } entry modules)
  rw [← layoutOf_unfused, exists_moved_iff] at hiff
  rw [← layoutOf_unfused] at hle
  refine ⟨congrArg Report.mk (diagnostics_fused options entry modules),
    finalState_fused options entry modules, ?_, ?_⟩
  · rw [instructionCount_compileProgram, instructionCount_compileProgram, finalState_fused]
    omega
  · rw [← hiff, instructionCount_compileProgram, instructionCount_compileProgram, finalState_fused]
    omega

end

end Compile

end HackVM
