/-
  Targets of jumps. Module names are arbitrary here, so a line of code may be read as several
  statements or as another one; `romWords` counts the words of code as it is read. A target that is
  not all digits is loaded as the number of words before its declaration (`jump_loads_declaration`);
  a number is loaded as it stands (`not_jump_loads_number`).
-/
import Mathlib
import HackVM.Proofs.Simulation

namespace HackVM

open Assembly Rom

namespace Rom

/-! ## Loads of labels -/

/-- A legible line in code whose lines are all read. -/
theorem exists_statement {before after : List Inst} {inst : Inst} {statement : Statement}
    {listed : List Statement} (hlisted : readings (before ++ inst :: after) = listed.map .ok)
    (hlegible : inst.Legible) (hinst : inst.statement? = some statement) :
    ∃ first rest, listed = first ++ statement :: rest ∧
      first.countP Statement.isInstruction = romWords before := by
  rw [← List.singleton_append, readings_append, readings_append, readings_of_legible hlegible,
    hinst] at hlisted
  obtain ⟨first, others, rfl, hfirst, hothers⟩ := List.map_eq_append_iff.1 hlisted.symm
  obtain ⟨found, rest, rfl, hfound, -⟩ := List.map_eq_cons_iff.1 hothers
  cases hfound
  refine ⟨first, rest, rfl, ?_⟩
  rw [romWords, ← hfirst, List.countP_map]
  rfl

/-- A load of a label stands in the ROM with the value `romWords` of the code before the label. -/
theorem load_of_assemble {code : List Inst} {program : Program}
    (h : (assemble (render code)).1 = .ok program) {name : String} (hname : Compile.IsLabel name)
    {before after first rest : List Inst} (hlabel : code = before ++ .label name :: after)
    (hload : code = first ++ .symbol name :: rest) :
    program.ops[romWords first]? = some (.load (UInt16.ofNat (romWords before))) ∧
      romWords before ≤ program.ops.size := by
  obtain ⟨listed, hlisted⟩ := exists_listed h
  obtain ⟨hops, hlabels⟩ := assemble_eq_ok hlisted h
  rw [← readings] at hlisted
  obtain ⟨earlier, later, hdefined, hbefore⟩ := exists_statement
    (by rw [← hlabel]; exact hlisted) (Compile.legible_label hname.1) rfl
  obtain ⟨above, below, hloaded, hfirst⟩ := exists_statement
    (by rw [← hload]; exact hlisted) (Compile.legible_symbol hname) rfl
  have hvalue := hlabels earlier _ later hdefined
  rw [hbefore] at hvalue
  constructor
  · rw [← Array.getElem?_toList, hops, hloaded, List.filterMap_append, List.getElem?_append_right,
      length_filterMap_op?, hfirst, Nat.sub_self]
    · rw [List.filterMap_cons, Statement.op?, hvalue]
      rfl
    · rw [length_filterMap_op?, hfirst]
  · rw [← Array.length_toList, hops, length_filterMap_op?, hdefined, List.countP_append, hbefore]
    exact Nat.le_add_right _ _

end Rom

/-! ## Jumps -/

namespace Compile

/-- The code of an opcode with target `name` loads it directly before a branch. -/
theorem Lowers.loads_target {s s' : State} {opcode : Opcode} {code : List Inst} {name : String}
    (h : Lowers s opcode code s') (hname : name ∈ opcode.targets) :
    ∃ first comp jump rest, code = first ++ .symbol name :: .branch comp jump :: rest := by
  cases h with
  | goto other =>
    cases List.mem_singleton.1 hname
    exact ⟨[], _, _, [], rfl⟩
  | ifGoto other =>
    cases List.mem_singleton.1 hname
    exact ⟨popToD, _, _, [], rfl⟩
  | call hargs =>
    cases List.mem_singleton.1 hname
    exact ⟨_, _, _, _, (List.append_assoc _ [_, _, _, _, _, _, _, _] _).symm⟩
  | _ => cases hname

/-- The comment before a command has no ROM word. -/
theorem romWords_comments (options : Options) {command : Command} (h : command.Printable) :
    romWords (comments options [command.sourceText]) = 0 := by
  unfold comments
  split_ifs
  · have hlegible : (Inst.comment command.sourceText).Legible := h.2
    rw [List.map_singleton, romWords, readings_of_legible hlegible]
    rfl
  · rfl

namespace Job

variable {job : Job}

/-- The code of a job, split at the label of a declaration. -/
theorem exists_declaration (hclean : job.artifact.report.diagnostics = []) {j : Nat} {name : String}
    (hmark : job.Marks j name) :
    ∃ before after, job.artifact.code = before ++ .label name :: after ∧
      romWords before = romWords (job.before j) := by
  obtain ⟨hj, command, hstep, hdeclared⟩ := hmark
  obtain ⟨code, s', hlowers, hcode⟩ := Job.lowers_of_single hclean hj hstep
  obtain ⟨rest, rfl⟩ := hlowers.head_of_declared hdeclared
  obtain ⟨after, hsplit⟩ := job.artifact_code_split hj
  refine ⟨job.before j ++ comments job.options [command.sourceText], rest ++ after, ?_, ?_⟩
  · rw [hsplit, hcode]
    simp
  · have hprint : command.Printable :=
      printable_of_mem (List.getElem_mem hj) (by rw [hstep]; exact List.mem_singleton_self _)
    rw [romWords_append, romWords_comments job.options hprint, Nat.add_zero]

end Job

/-- **Jumps.** Let a job compile without diagnostics and assemble to fewer than 65536 words. A
command that jumps to a declared name, not all digits, loads the number of ROM words before the
declaration, for any module names. -/
theorem jump_loads_declaration {job : Job} {program : Program}
    (hclean : job.artifact.report.diagnostics = [])
    (hassembled : (assemble job.artifact.text).1 = .ok program) (hsize : program.ops.size < 65536)
    {i : Nat} (hi : i < job.layout.length) {command : Command}
    (hitem : .ok command ∈ job.layout[i].step.items) {name : String}
    (htarget : name ∈ command.opcode.targets) (hdeclared : job.Declares name)
    (hname : name.toList.all Text.isDigit = false) :
    (∃ j, job.Marks j name) ∧
      (∃ first comp jump rest, job.layout[i].code job.options =
        first ++ .symbol name :: .branch comp jump :: rest) ∧
      ∀ j, job.Marks j name → ∀ first rest,
        job.layout[i].code job.options = first ++ .symbol name :: rest →
          ∃ address, program.ops[romWords (job.before i ++ first)]? = some (.load address) ∧
            address.toNat = romWords (job.before j) := by
  obtain ⟨hpush, hpop⟩ := Opcode.not_move_of_mem_targets htarget
  have hstep := Job.single_of_mem_items (List.getElem_mem hi) hitem hpush hpop
  have hlabel : IsLabel name :=
    ⟨(Job.printable_of_mem (List.getElem_mem hi) hitem).1 name
      (Opcode.mem_names_of_mem_targets htarget), hname⟩
  refine ⟨?_, ?_, fun j hmark first rest hload => ?_⟩
  · obtain ⟨j, hj, declaring, hsingle, hmarked⟩ := Job.exists_single_of_declares hdeclared
    exact ⟨j, hj, declaring, hsingle, hmarked⟩
  · obtain ⟨code, s', hlowers, hcode⟩ := Job.lowers_of_single hclean hi hstep
    obtain ⟨first, comp, jump, rest, rfl⟩ := hlowers.loads_target htarget
    exact ⟨_, comp, jump, rest, by rw [hcode, ← List.append_assoc]⟩
  · obtain ⟨before, after, hbefore, hwords⟩ := Job.exists_declaration hclean hmark
    obtain ⟨behind, hsplit⟩ := job.artifact_code_split hi
    have hfirst : job.artifact.code =
        (job.before i ++ first) ++ .symbol name :: (rest ++ behind) := by
      rw [hsplit, hload]
      simp
    obtain ⟨hop, hle⟩ := load_of_assemble hassembled hlabel hbefore hfirst
    rw [hwords] at hop hle
    exact ⟨_, hop, word_toNat_ofNat (hle.trans_lt hsize)⟩

/-- A job whose module name cuts return labels short, with a call and a jump back. -/
def againJob : Job :=
  ⟨{ comments := true }, none,
    [("A)//", "label again\ncall f 0\ngoto again\nfunction f 0\nreturn")]⟩

theorem jump_loads_declaration_again :
    ∃ program, (assemble againJob.artifact.text).1 = .ok program ∧
      ∃ hi : 1 < againJob.layout.length, ∃ first rest,
        againJob.layout[1].code againJob.options = first ++ .symbol "f" :: rest ∧
        ∃ address, program.ops[romWords (againJob.before 1 ++ first)]? = some (.load address) ∧
          address.toNat = romWords (againJob.before 3) := by
  obtain ⟨program, hprogram, hsize⟩ : ∃ program, (assemble againJob.artifact.text).1 = .ok program ∧
      decide (program.ops.size < 65536) = true := by
    refine exists_assembled ?_
    rw [assemble, statements, Artifact.text, toList_render]
    decide +kernel
  have hsteps : againJob.layout.map Placed.step =
      [.single ⟨.label "again", "label again", ⟨"A)//", 1⟩⟩,
        .single ⟨.call "f" 0, "call f 0", ⟨"A)//", 2⟩⟩,
        .single ⟨.goto "again", "goto again", ⟨"A)//", 3⟩⟩,
        .single ⟨.function "f" 0, "function f 0", ⟨"A)//", 4⟩⟩,
        .single ⟨.ret, "return", ⟨"A)//", 5⟩⟩] := by decide +kernel
  have hstep : againJob.layout[1].step = .single ⟨.call "f" 0, "call f 0", ⟨"A)//", 2⟩⟩ := by
    decide +kernel
  have hi : 1 < againJob.layout.length := by decide +kernel
  obtain ⟨-, ⟨first, comp, jump, rest, hcode⟩, hloads⟩ := jump_loads_declaration
    (by decide +kernel) hprogram (of_decide_eq_true hsize) hi
    (by rw [hstep]; exact List.mem_singleton_self _) (List.mem_singleton_self "f")
    (by decide +kernel) (by decide +kernel)
  have hmark : againJob.Marks 3 "f" :=
    Job.marks_of_step (by rw [← List.getElem?_map, hsteps]; rfl) rfl
  exact ⟨program, hprogram, hi, first, _, hcode, hloads 3 hmark first _ hcode⟩

/-- A job that declares a number and jumps to it. -/
def numberJob : Job := ⟨{}, none, [("M", "label 7\ngoto 7")]⟩

/-- `goto 7` loads 7, although `label 7` is declared at address 0. -/
theorem not_jump_loads_number :
    ¬∀ (job : Job) (program : Program), job.artifact.report.diagnostics = [] →
      (assemble job.artifact.text).1 = .ok program → program.ops.size < 65536 →
      ∀ (i : Nat) (hi : i < job.layout.length) (command : Command),
        .ok command ∈ job.layout[i].step.items → ∀ name ∈ command.opcode.targets,
          ∀ j, job.Marks j name → ∀ first rest,
            job.layout[i].code job.options = first ++ .symbol name :: rest →
              ∃ address, program.ops[romWords (job.before i ++ first)]? = some (.load address) ∧
                address.toNat = romWords (job.before j) := by
  intro hall
  obtain ⟨program, hprogram, hops⟩ : ∃ program,
      (assemble numberJob.artifact.text).1 = .ok program ∧ decide (program.ops.toList =
        [.load 7, .compute none .zero (some .jmp), .load 2, .compute none .zero (some .jmp)]) =
          true := by
    refine exists_assembled ?_
    rw [assemble, statements, Artifact.text, toList_render]
    decide +kernel
  rw [decide_eq_true_iff] at hops
  have hsize : program.ops.size < 65536 := by
    rw [← Array.length_toList, hops]
    decide
  have hstep : numberJob.layout[1].step = .single ⟨.goto "7", "goto 7", ⟨"M", 2⟩⟩ := by
    decide +kernel
  have hmark : numberJob.Marks 0 "7" :=
    ⟨by decide +kernel, ⟨.label "7", "label 7", ⟨"M", 1⟩⟩, by decide +kernel, rfl⟩
  obtain ⟨address, hload, hvalue⟩ := hall numberJob program (by decide +kernel) hprogram hsize 1
    (by decide +kernel) _ (by rw [hstep]; exact List.mem_singleton_self _) "7"
    (List.mem_singleton_self _) 0 hmark [] [.jump] (by decide +kernel)
  have hfirst : romWords (numberJob.before 1 ++ []) = 0 := by
    rw [romWords, readings_eq, toList_render]
    decide +kernel
  have hlabel : romWords (numberJob.before 0) = 0 := by
    rw [romWords, readings_eq, toList_render]
    decide +kernel
  rw [hfirst, ← Array.getElem?_toList, hops] at hload
  cases hload
  rw [hlabel] at hvalue
  cases hvalue

end Compile

end HackVM
