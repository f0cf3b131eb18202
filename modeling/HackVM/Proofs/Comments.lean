/-
  Comments are cosmetic. `assemble` depends on the statements of a text only, up to the line numbers
  in errors (`assemble_alike`), and a comment without a line feed is no statement
  (`readings_withoutComments`). Compiler states do not depend on the option `comments`, so the code
  with comments is the code without them and comment lines in between (`Job.comments_cosmetic`).
-/
import Mathlib
import HackVM.Proofs.Layout
import HackVM.Proofs.Lines

namespace HackVM

open Assembly Rom

namespace Rom

/-! ## Line numbers -/

/-- The scan with all line numbers of its duplicates zero. -/
def LabelScan.unnumbered (scan : LabelScan) : LabelScan :=
  { scan with duplicates := scan.duplicates.map fun error => ⟨0, error.problem⟩ }

theorem LabelScan.unnumbered_add (scan : LabelScan) (line : Nat) (statement : Statement) :
    (scan.add line statement).unnumbered = scan.unnumbered.add 0 statement := by
  cases statement with
  | label name =>
    by_cases h : (scan.symbols.contains name || (predefined? name).isSome) = true
    · have hadd : scan.add line (.label name) =
          { scan with duplicates := scan.duplicates.push ⟨line, .duplicateLabel name⟩ } := if_pos h
      have hadd' : scan.unnumbered.add 0 (.label name) = { scan.unnumbered with
          duplicates := scan.unnumbered.duplicates.push ⟨0, .duplicateLabel name⟩ } := if_pos h
      rw [hadd, hadd', unnumbered, Array.map_push]
      rfl
    · have hadd : scan.add line (.label name) =
          { scan with symbols := scan.symbols.insert name scan.address } := if_neg h
      have hadd' : scan.unnumbered.add 0 (.label name) = { scan.unnumbered with
          symbols := scan.symbols.insert name scan.address } := if_neg h
      rw [hadd, hadd']
      rfl
  | _ => rfl

theorem LabelScan.unnumbered_addAll (scan : LabelScan) (numbered : List (Nat × Statement)) :
    (scan.addAll numbered).unnumbered =
      scan.unnumbered.addAll ((numbered.map Prod.snd).map fun statement => (0, statement)) := by
  induction numbered generalizing scan with
  | nil => rfl
  | cons entry rest ih =>
    rw [addAll_cons, ih, unnumbered_add, List.map_cons, List.map_cons, addAll_cons]

/-- A scan depends on the line numbers only in those of its duplicates. -/
theorem LabelScan.addAll_alike {numbered others : List (Nat × Statement)}
    (h : numbered.map Prod.snd = others.map Prod.snd) :
    (addAll {} numbered).symbols = (addAll {} others).symbols ∧
      (addAll {} numbered).duplicates.toList.map AssemblyError.problem =
        (addAll {} others).duplicates.toList.map AssemblyError.problem := by
  have hscan : (addAll {} numbered).unnumbered = (addAll {} others).unnumbered := by
    rw [unnumbered_addAll, unnumbered_addAll, h]
  have hproblems : ∀ scan : LabelScan, scan.duplicates.toList.map AssemblyError.problem =
      scan.unnumbered.duplicates.toList.map AssemblyError.problem := by
    intro scan
    rw [unnumbered, Array.toList_map, List.map_map]
    rfl
  constructor
  · change (addAll {} numbered).unnumbered.symbols = _
    rw [hscan]
    rfl
  · rw [hproblems (addAll {} numbered), hproblems (addAll {} others), hscan]

theorem programOf_alike {numbered others : List (Nat × Statement)}
    (h : numbered.map Prod.snd = others.map Prod.snd) : programOf numbered = programOf others := by
  have hresolve : ∀ (naming : Naming) (entries : List (Nat × Statement)),
      naming.resolveAll entries = sweep Naming.resolve naming (entries.map Prod.snd) :=
    fun naming entries => (sweep_map Naming.resolve Prod.snd naming entries).symm
  simp only [programOf, hresolve, h, (LabelScan.addAll_alike h).1]

/-- The same program, or the same problems in the same order, with any line numbers. -/
def Alike : Except (List AssemblyError) Program → Except (List AssemblyError) Program → Prop
  | .ok program, .ok other => program = other
  | .error errors, .error others =>
    errors.map AssemblyError.problem = others.map AssemblyError.problem
  | .ok _, .error _ | .error _, .ok _ => False

/-- Texts with the same statements assemble `Alike`. -/
theorem assemble_alike {source other : String}
    (h : (statements source).map Prod.snd = (statements other).map Prod.snd) :
    Alike (assemble source).1 (assemble other).1 := by
  have hformed : (wellFormed (statements source)).map Prod.snd =
      (wellFormed (statements other)).map Prod.snd := by
    rw [map_snd_wellFormed, map_snd_wellFormed, h]
  have herrors : (errorsOf (statements source)).map AssemblyError.problem =
      (errorsOf (statements other)).map AssemblyError.problem := by
    rw [errorsOf, errorsOf, List.map_append, List.map_append, map_problem_malformed,
      map_problem_malformed, h, (LabelScan.addAll_alike hformed).2]
  by_cases hnone : errorsOf (statements source) = []
  · have hnone' : errorsOf (statements other) = [] := by
      rwa [hnone, List.map_nil, eq_comm, List.map_eq_nil_iff] at herrors
    rw [assemble_of_no_errors hnone, assemble_of_no_errors hnone']
    exact programOf_alike hformed
  · have hsome : errorsOf (statements other) ≠ [] := by
      intro hnil
      rw [hnil, List.map_nil, List.map_eq_nil_iff] at herrors
      exact hnone herrors
    rw [assemble_of_errors hnone, assemble_of_errors hsome]
    exact herrors

/-! ## Comments in a listing -/

/-- Comments without `'\n'` do not change the `readings`. -/
theorem readings_withoutComments {code : List Inst}
    (h : ∀ text, .comment text ∈ code → '\n' ∉ text.toList) :
    readings code = readings (withoutComments code) := by
  induction code with
  | nil => rfl
  | cons inst code ih =>
    have hrest := ih fun text htext => h text (List.mem_cons_of_mem _ htext)
    rw [← List.singleton_append, readings_append, withoutComments_append, readings_append, hrest]
    cases inst with
    | comment text =>
      have hlegible : (Inst.comment text).Legible := h text List.mem_cons_self
      rw [readings_of_legible hlegible]
      rfl
    | _ => rfl

end Rom

namespace Compile

/-! ## Comments in a program -/

theorem withoutComments_comments (options : Options) (texts : List String) :
    withoutComments (comments options texts) = [] := by
  unfold comments
  split_ifs
  · rw [withoutComments, List.filter_eq_nil_iff]
    intro inst hinst
    obtain ⟨text, -, rfl⟩ := List.mem_map.1 hinst
    exact Bool.false_ne_true
  · rfl

/-- The same code up to comments, and the same diagnostics. -/
structure Emission.Matches (emission other : Emission) : Prop where
  code : withoutComments emission.code = withoutComments other.code
  diagnostics : emission.diagnostics = other.diagnostics

theorem Emission.Matches.append {first other second another : Emission} (h : first.Matches other)
    (h' : second.Matches another) : (first ++ second).Matches (other ++ another) := by
  constructor
  · exact (withoutComments_append ..).trans
      ((congrArg₂ (· ++ ·) h.code h'.code).trans (withoutComments_append ..).symm)
  · exact congrArg₂ (· ++ ·) h.diagnostics h'.diagnostics

theorem compileCommand_matches (options others : Options) (s : State) (command : Command) :
    (compileCommand options s command).1.Matches (compileCommand others s command).1 := by
  unfold compileCommand
  cases lower s command.opcode with
  | error fault => exact ⟨rfl, rfl⟩
  | ok lowered =>
    refine ⟨?_, rfl⟩
    simp only [withoutComments_append, withoutComments_comments]

/-- `compileStep` with other options gives a matching emission. -/
theorem compileStep_matches (options others : Options) (s : State) (step : Step) :
    (compileStep options s step).1.Matches (compileStep others s step).1 := by
  cases step with
  | single command => exact compileCommand_matches options others s command
  | fault reason => exact ⟨rfl, rfl⟩
  | fused first second =>
    simp only [compileStep, compilePair]
    split
    · refine ⟨?_, rfl⟩
      simp only [withoutComments_append, withoutComments_comments]
    · rename_i events s₁ hmove
      rw [compileCommand_options options others s₁ first]
      have hone := compileCommand_matches options others s₁ first
      have htwo := compileCommand_matches options others (compileCommand others s₁ first).2 second
      exact (Emission.Matches.append ⟨rfl, rfl⟩ hone).append htwo

theorem placeModules_options (options others : Options) (hfuse : options.fuse = others.fuse)
    (s : State) (modules : List (String × List Item)) :
    placeModules options s modules = placeModules others s modules ∧
      (compileModules options s modules).2 = (compileModules others s modules).2 := by
  induction modules generalizing s with
  | nil => exact ⟨rfl, rfl⟩
  | cons first modules ih =>
    obtain ⟨name, items⟩ := first
    have hstate : (compileModule options s name items).2 =
        (compileModule others s name items).2 := by
      unfold compileModule
      rw [hfuse]
      exact sweep_options ..
    rw [placeModules, placeModules, placeSteps_options options others, hfuse, hstate,
      compileModules_cons, compileModules_cons, hstate]
    exact ⟨congrArg _ (ih _).1, (ih _).2⟩

namespace Job

/-- The job with the option `comments` set to `wanted`. -/
def commenting (job : Job) (wanted : Bool) : Job :=
  { job with options := { job.options with comments := wanted } }

variable (job : Job)

theorem opening_commenting (wanted other : Bool) :
    (job.commenting wanted).opening.1.Matches (job.commenting other).opening.1 ∧
      (job.commenting wanted).opening.2 = (job.commenting other).opening.2 := by
  unfold opening Compile.opening commenting
  cases job.entry with
  | none => exact ⟨⟨rfl, rfl⟩, rfl⟩
  | some entry =>
    refine ⟨⟨?_, rfl⟩, rfl⟩
    have hcode : ∀ options, (startProgram options {} entry).1.code =
        comments options ["bootstrap: call " ++ entry.function] ++
          bootstrap entry.function (Label.callReturn bootModule entry.function 0) := fun _ => rfl
    simp only [hcode, withoutComments_append, withoutComments_comments]

theorem layout_commenting (wanted other : Bool) :
    (job.commenting wanted).layout = (job.commenting other).layout := by
  change placeModules _ (job.commenting wanted).opening.2 _ =
    placeModules _ (job.commenting other).opening.2 _
  rw [(job.opening_commenting wanted other).2]
  exact (placeModules_options (job.commenting wanted).options (job.commenting other).options
    rfl _ _).1

theorem finalState_commenting (wanted other : Bool) :
    (job.commenting wanted).finalState = (job.commenting other).finalState := by
  change (compileModules _ (job.commenting wanted).opening.2 _).2 =
    (compileModules _ (job.commenting other).opening.2 _).2
  rw [(job.opening_commenting wanted other).2]
  exact (placeModules_options (job.commenting wanted).options (job.commenting other).options
    rfl _ _).2

theorem report_commenting (wanted other : Bool) :
    (job.commenting wanted).artifact.report = (job.commenting other).artifact.report := by
  have hdiagnostics : (job.commenting wanted).artifact.report.diagnostics =
      (job.commenting other).artifact.report.diagnostics := by
    rw [artifact_diagnostics, artifact_diagnostics, job.layout_commenting wanted other]
    congr 1
    funext placed
    exact (compileStep_matches _ _ placed.state placed.step).diagnostics
  exact congrArg Report.mk hdiagnostics

theorem withoutComments_commenting (wanted other : Bool) :
    withoutComments (job.commenting wanted).artifact.code =
      withoutComments (job.commenting other).artifact.code := by
  have hend : ∀ options s, withoutComments (compileEnd options s).code =
      if s.bootstrapped then [] else halt := by
    intro options s
    unfold compileEnd
    split_ifs
    · rfl
    · rw [withoutComments_append, withoutComments_comments]
      rfl
  have hsteps : ∀ (options others : Options) (layout : List Placed),
      withoutComments (layout.flatMap (Placed.code options)) =
        withoutComments (layout.flatMap (Placed.code others)) := by
    intro options others layout
    induction layout with
    | nil => rfl
    | cons placed layout ih =>
      rw [List.flatMap_cons, List.flatMap_cons, withoutComments_append, withoutComments_append, ih]
      exact congrArg (· ++ _) (compileStep_matches options others placed.state placed.step).code
  simp only [artifact_code, withoutComments_append, hend]
  rw [(job.opening_commenting wanted other).1.code, job.layout_commenting wanted other,
    job.finalState_commenting wanted other, hsteps]

/-- Without the option `comments` the code has no comments. -/
theorem withoutComments_uncommented :
    withoutComments (job.commenting false).artifact.code =
      (job.commenting false).artifact.code := by
  have hnone : ∀ texts, comments (job.commenting false).options texts = [] := fun _ => rfl
  refine artifact_induction (p := fun code => withoutComments code = code) rfl
    (fun code rest hcode hrest => ?_) ?_ ?_ ?_
  · rw [withoutComments_append, hcode, hrest]
  · intro entry _
    rw [hnone]
    rfl
  · intro placed _
    refine compileStep_induction (p := fun code => withoutComments code = code) rfl
      (fun code rest hcode hrest => ?_) ?_ ?_ ?_
    · rw [withoutComments_append, hcode, hrest]
    · intro hoption
      cases hoption
    · intro command _ s₁ code s₂ _ hlowers
      exact hlowers.withoutComments_eq
    · intro first second code s₁ hmove
      exact hmove.plain.withoutComments_eq
  · rw [hnone]
    rfl

/-- The comments of a job have no `'\n'`. -/
theorem comment_inline (hentry : ∀ entry ∈ job.entry, '\n' ∉ entry.function.toList) {text : String}
    (htext : .comment text ∈ job.artifact.code) : '\n' ∉ text.toList := by
  have hbare : ∀ {code : List Inst}, withoutComments code = code → .comment text ∉ code :=
    fun hcode hmem => Bool.false_ne_true (List.mem_filter.1 (hcode ▸ hmem)).2
  have hcomments : ∀ texts, .comment text ∈ comments job.options texts → text ∈ texts := by
    intro texts hmem
    unfold comments at hmem
    split_ifs at hmem
    · obtain ⟨other, hother, heq⟩ := List.mem_map.1 hmem
      cases heq
      exact hother
    · cases hmem
  revert htext
  refine artifact_induction (p := fun code => .comment text ∈ code → '\n' ∉ text.toList)
    ?_ ?_ ?_ ?_ ?_
  · intro hnil
    cases hnil
  · intro code rest hcode hrest htext
    exact (List.mem_append.1 htext).elim hcode hrest
  · intro entry hmem htext
    rcases List.mem_append.1 htext with htext | htext
    · rw [List.mem_singleton.1 (hcomments _ htext), String.toList_append, List.mem_append, not_or]
      exact ⟨by decide, hentry entry hmem⟩
    · exact absurd htext (hbare rfl)
  · intro placed hmem
    refine compileStep_induction (p := fun code => .comment text ∈ code → '\n' ∉ text.toList) ?_ ?_
      ?_ ?_ ?_
    · intro hnil
      cases hnil
    · intro code rest hcode hrest htext
      exact (List.mem_append.1 htext).elim hcode hrest
    · intro _ command hitem htext
      cases List.mem_singleton.1 htext
      exact (printable_of_mem hmem hitem).2
    · intro command _ s₁ code s₂ _ hlowers htext
      exact absurd htext (hbare hlowers.withoutComments_eq)
    · intro first second code s₁ hmove htext
      exact absurd htext (hbare hmove.plain.withoutComments_eq)
  · intro htext
    rcases List.mem_append.1 htext with htext | htext
    · rw [List.mem_singleton.1 (hcomments _ htext)]
      decide
    · exact absurd htext (hbare rfl)

/-- **Comments are cosmetic.** With and without the option `comments` a job has the same report and
the same code up to comments, and the two texts assemble `Alike`. -/
theorem comments_cosmetic (hentry : ∀ entry ∈ job.entry, '\n' ∉ entry.function.toList) :
    (job.commenting true).artifact.report = (job.commenting false).artifact.report ∧
      withoutComments (job.commenting true).artifact.code = (job.commenting false).artifact.code ∧
      Alike (assemble (job.commenting true).artifact.text).1
        (assemble (job.commenting false).artifact.text).1 := by
  have hcode : withoutComments (job.commenting true).artifact.code =
      (job.commenting false).artifact.code :=
    (job.withoutComments_commenting true false).trans job.withoutComments_uncommented
  refine ⟨job.report_commenting true false, hcode, assemble_alike ?_⟩
  change readings (job.commenting true).artifact.code =
    readings (job.commenting false).artifact.code
  rw [readings_withoutComments fun text => comment_inline (job.commenting true) hentry, hcode]

end Job

/-- A job with a line that is rejected, with names that end a line, and with a label that is defined
twice. -/
def notedJob : Job :=
  ⟨{}, some ⟨"Sys", "f//x"⟩,
    [("A)//", "function f 0\npush constant 7\npop temp 0\npush here 1\nlabel f\ncall f 0")]⟩

theorem comments_cosmetic_noted : (∀ entry ∈ notedJob.entry, '\n' ∉ entry.function.toList) ∧
    (notedJob.commenting true).artifact.code.length =
      (notedJob.commenting false).artifact.code.length + 6 ∧
    (notedJob.commenting true).artifact.report = (notedJob.commenting false).artifact.report ∧
    withoutComments (notedJob.commenting true).artifact.code =
      (notedJob.commenting false).artifact.code ∧
    Alike (assemble (notedJob.commenting true).artifact.text).1
      (assemble (notedJob.commenting false).artifact.text).1 := by
  have hentry : ∀ entry ∈ notedJob.entry, '\n' ∉ entry.function.toList := by decide
  exact ⟨hentry, by decide +kernel, notedJob.comments_cosmetic hentry⟩

end Compile

end HackVM
