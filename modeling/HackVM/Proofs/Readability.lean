/-
  The assembler reads what the compiler writes, with rejected lines or without. A line is read as
  its `statement?` unless it loads a target that is all digits (`readings_cases`), which is a
  literal or out of range. The names that code loads are labels or targets, so the variables of the
  assembled program are the undeclared targets (`Job.listing_readable`).
-/
import Mathlib
import HackVM.Proofs.Layout
import HackVM.Proofs.Lines
import HackVM.Proofs.RoundTrip

namespace HackVM

open Assembly Rom

namespace Rom

/-! ## Lines that load a number -/

theorem mem_readings {code : List Inst} {reading : Except Problem Statement} :
    reading ∈ readings code ↔ ∃ inst ∈ code, reading ∈ readings [inst] := by
  induction code with
  | nil =>
    refine ⟨fun h => ?_, fun ⟨_, h, _⟩ => absurd h List.not_mem_nil⟩
    rw [readings_eq] at h
    cases h
  | cons inst code ih =>
    rw [← List.singleton_append, readings_append, List.mem_append, ih]
    simp

/-- `@name` is read by `Statement.ofOperand`. -/
theorem readings_symbol {name : String} (h : Text.IsWord name.toList) :
    readings [.symbol name] = [Statement.ofOperand name.toList] := by
  have htext : (Inst.symbol name).text.toList = '@' :: name.toList := String.toList_append
  have hline : '\n' ∉ '@' :: name.toList := by
    rw [List.mem_cons, not_or]
    exact ⟨by decide, h.inline.1⟩
  rw [readings_eq, toList_render, List.flatMap_singleton, htext, Text.lines_append hline,
    List.filterMap_cons, ofLine?_operand h.uncommented, h.squeeze]
  rfl

/-- Digits are a literal, or give `literalRange`. -/
theorem ofOperand_digits {text : List Char} (hne : text ≠ [])
    (h : text.all Text.isDigit = true) :
    (∃ value, Statement.ofOperand text = .ok (.literal value)) ∨
      Statement.ofOperand text = .error (.literalRange (String.ofList text)) := by
  rw [Statement.ofOperand, List.isEmpty_eq_false_iff.2 hne, h]
  cases Text.readDigits maxLiteral 0 text with
  | ok value => exact .inl ⟨_, rfl⟩
  | error reason => exact .inr rfl

end Rom

namespace Compile

/-- The readings of `AllSound` code, by lines. -/
theorem readings_cases {targets : List String} {code : List Inst} (h : AllSound targets code)
    (htargets : ∀ name ∈ targets, Text.IsWord name.toList) {inst : Inst} (hinst : inst ∈ code) :
    readings [inst] = inst.statement?.toList.map .ok ∨
      ∃ name ∈ targets, name.toList.all Text.isDigit = true ∧ inst = .symbol name ∧
        ((∃ value, readings [inst] = [.ok (.literal value)]) ∨
          readings [inst] = [.error (.literalRange name)]) := by
  rcases h inst hinst with hlegible | ⟨name, hname, rfl⟩
  · exact .inl (readings_of_legible hlegible)
  · have hword := htargets name hname
    cases hdigits : name.toList.all Text.isDigit with
    | false => exact .inl (readings_of_legible (legible_symbol ⟨hword, hdigits⟩))
    | true =>
      refine .inr ⟨name, hname, hdigits, rfl, ?_⟩
      rw [readings_symbol hword]
      refine (ofOperand_digits hword.1 hdigits).imp ?_ fun hrange => ?_
      · rintro ⟨value, hvalue⟩
        exact ⟨value, by rw [hvalue]⟩
      · rw [hrange, String.ofList_toList]

section Sound

variable {targets : List String} {code : List Inst}

/-- A reading is the `statement?` of a line; or, for a target that is all digits, a literal or the
problem `literalRange`. -/
theorem AllSound.of_mem_readings (h : AllSound targets code)
    (htargets : ∀ name ∈ targets, Text.IsWord name.toList) {reading : Except Problem Statement}
    (hreading : reading ∈ readings code) :
    (∃ inst ∈ code, ∃ statement, inst.statement? = some statement ∧ reading = .ok statement) ∨
      ∃ name ∈ targets, name.toList.all Text.isDigit = true ∧
        ((∃ value, reading = .ok (.literal value)) ∨ reading = .error (.literalRange name)) := by
  obtain ⟨inst, hinst, hread⟩ := mem_readings.1 hreading
  rcases readings_cases h htargets hinst with hlines | ⟨name, hname, hdigits, -, hlines⟩
  · rw [hlines] at hread
    obtain ⟨statement, hstatement, rfl⟩ := List.mem_map.1 hread
    exact .inl ⟨inst, hinst, statement, Option.mem_toList.1 hstatement, rfl⟩
  · refine .inr ⟨name, hname, hdigits, hlines.imp ?_ fun hlines => ?_⟩
    · rintro ⟨value, hlines⟩
      rw [hlines] at hread
      exact ⟨value, List.mem_singleton.1 hread⟩
    · rw [hlines] at hread
      exact List.mem_singleton.1 hread

/-- The only problem of a line is `literalRange`. -/
theorem AllSound.error_cases (h : AllSound targets code)
    (htargets : ∀ name ∈ targets, Text.IsWord name.toList) {problem : Problem}
    (hproblem : .error problem ∈ readings code) :
    ∃ name ∈ targets, name.toList.all Text.isDigit = true ∧ problem = .literalRange name := by
  rcases h.of_mem_readings htargets hproblem with
    ⟨-, -, statement, -, hok⟩ | ⟨name, hname, hdigits, ⟨value, hok⟩ | hrange⟩
  · cases hok
  · cases hok
  · cases hrange
    exact ⟨name, hname, hdigits, rfl⟩

/-- Without problems, `romWords` is `instructionCount`. -/
theorem AllSound.romWords_eq (h : AllSound targets code)
    (htargets : ∀ name ∈ targets, Text.IsWord name.toList)
    (hread : ∀ problem, .error problem ∉ readings code) :
    romWords code = instructionCount code := by
  induction code with
  | nil => rfl
  | cons inst code ih =>
    have hword : romWords [inst] = instructionCount [inst] := by
      rcases readings_cases h htargets List.mem_cons_self with
        hlines | ⟨name, -, -, rfl, ⟨value, hlines⟩ | hlines⟩
      · rw [romWords, hlines, ← countP_statement?, List.filterMap_cons]
        cases inst.statement? with
        | none => rfl
        | some statement => rfl
      · rw [romWords, hlines]
        rfl
      · refine absurd (mem_readings.2 ⟨_, List.mem_cons_self, ?_⟩) (hread (.literalRange name))
        rw [hlines]
        exact List.mem_singleton_self _
    have hread' : ∀ problem, .error problem ∉ readings code := by
      intro problem hmem
      obtain ⟨other, hother, hreading⟩ := mem_readings.1 hmem
      exact hread problem (mem_readings.2 ⟨other, List.mem_cons_of_mem _ hother, hreading⟩)
    have hrest := ih (fun other hother => h other (List.mem_cons_of_mem _ hother)) hread'
    rw [← List.singleton_append, romWords_append, hword, hrest, instructionCount_append]

/-- A symbol that is read is loaded by a line. -/
theorem AllSound.symbol_cases (h : AllSound targets code)
    (htargets : ∀ name ∈ targets, Text.IsWord name.toList) {name : String}
    (hname : .ok (.symbol name) ∈ readings code) :
    (predefined? name).isSome = true ∨
      ∃ written ∈ code.filterMap Inst.loaded?, readName written = name := by
  rcases h.of_mem_readings htargets hname with
    ⟨inst, hinst, statement, hstatement, hok⟩ | ⟨other, -, -, ⟨value, hok⟩ | hok⟩
  · cases hok
    cases inst with
    | load address =>
      cases address with
      | const value => cases hstatement
      | reg register =>
        cases hstatement
        exact .inl (by rw [predefined?_register]; rfl)
      | symbol written =>
        cases hstatement
        exact .inr ⟨written, mem_loaded.2 hinst, rfl⟩
    | _ => cases hstatement
  · cases hok
  · cases hok

/-- A label is read iff a line defines it. -/
theorem AllSound.label_iff (h : AllSound targets code)
    (htargets : ∀ name ∈ targets, Text.IsWord name.toList) {name : String} :
    .ok (.label name) ∈ readings code ↔ ∃ written ∈ definitions code, readName written = name := by
  constructor
  · intro hname
    rcases h.of_mem_readings htargets hname with
      ⟨inst, hinst, statement, hstatement, hok⟩ | ⟨other, -, -, ⟨value, hok⟩ | hok⟩
    · cases hok
      cases inst with
      | load address => cases address <;> cases hstatement
      | label written =>
        cases hstatement
        exact ⟨written, mem_definitions.2 hinst, rfl⟩
      | _ => cases hstatement
    · cases hok
    · cases hok
  · rintro ⟨written, hwritten, rfl⟩
    refine mem_readings.2 ⟨.label written, mem_definitions.1 hwritten, ?_⟩
    rcases readings_cases h htargets (mem_definitions.1 hwritten) with
      hlines | ⟨other, -, -, hload, -⟩
    · rw [hlines]
      exact List.mem_singleton_self _
    · cases hload

/-- The errors of `assemble` are `duplicateLabel` of a label, and `literalRange` of a target. -/
theorem AllSound.of_mem_errors (h : AllSound targets code)
    (htargets : ∀ name ∈ targets, Text.IsWord name.toList) {errors : List AssemblyError}
    (herrors : (assemble (render code)).1 = .error errors) {error : AssemblyError}
    (herror : error ∈ errors) :
    (∃ name, error.problem = .duplicateLabel name) ∨
      ∃ name ∈ targets, name.toList.all Text.isDigit = true ∧
        error.problem = .literalRange name := by
  have hall : errors = errorsOf (statements (render code)) := by
    by_cases hnone : errorsOf (statements (render code)) = []
    · rw [assemble_of_no_errors hnone] at herrors
      cases herrors
    · rw [assemble_of_errors hnone] at herrors
      exact (Except.error.inj herrors).symm
  rw [hall] at herror
  rcases List.mem_append.1 herror with hmalformed | hduplicate
  · refine .inr (h.error_cases htargets ?_)
    have hproblem : error.problem ∈
        (malformed (statements (render code))).map AssemblyError.problem :=
      List.mem_map_of_mem hmalformed
    rw [map_problem_malformed] at hproblem
    obtain ⟨reading, hreading, hsome⟩ := List.mem_filterMap.1 hproblem
    cases reading with
    | ok statement => cases hsome
    | error problem =>
      cases hsome
      exact hreading
  · have hmem := LabelScan.problem_of_mem_duplicates (Array.mem_toList_iff.1 hduplicate)
    exact .inl (hmem.resolve_left (Array.not_mem_empty _))

/-- An assembled program has `instructionCount code` words. -/
theorem AllSound.size_eq (h : AllSound targets code)
    (htargets : ∀ name ∈ targets, Text.IsWord name.toList) {program : Program}
    (hprogram : (assemble (render code)).1 = .ok program) :
    program.ops.size = instructionCount code := by
  obtain ⟨listed, hlisted⟩ := exists_listed hprogram
  have hreadings : readings code = listed.map .ok := hlisted
  have hwords := h.romWords_eq htargets fun problem hproblem => by
    rw [hreadings] at hproblem
    obtain ⟨statement, -, hok⟩ := List.mem_map.1 hproblem
    cases hok
  rw [← Array.length_toList, (assemble_eq_ok hlisted hprogram).1, length_filterMap_op?, ← hwords,
    romWords, hreadings, List.countP_map]
  rfl

/-- A symbol of the table is a label of `code`, or one of the targets that are no labels, which are
numbered from 16 on. -/
theorem AllSound.of_symbol (h : AllSound targets code) (hclosed : Closed targets code)
    (htargets : ∀ name ∈ targets, Text.IsWord name.toList) {program : Program}
    (hprogram : (assemble (render code)).1 = .ok program) {name : String} {value : Word}
    (hvalue : program.symbols[name]? = some value) :
    (∃ label, .label label ∈ code ∧ readName label = name) ∨ ∃ found : List String, found.Nodup ∧
      (∀ other ∈ found, other ∈ targets ∧ other ∉ definitions code) ∧ name ∈ found ∧
      value = UInt16.ofNat (16 + found.idxOf name) := by
  obtain ⟨listed, hlisted⟩ := exists_listed hprogram
  have hmem : ∀ statement, .ok statement ∈ readings code ↔ statement ∈ listed := by
    intro statement
    rw [show readings code = listed.map .ok from hlisted]
    exact List.mem_map_of_injective fun _ _ => Except.ok.inj
  rcases symbol_of_assemble hlisted hprogram hvalue with
    hlabel | ⟨found, hnodup, hfound, hname, rfl⟩
  · obtain ⟨label, hlabel, hread⟩ := (h.label_iff htargets).1 ((hmem _).2 hlabel)
    exact .inl ⟨label, mem_definitions.1 hlabel, hread⟩
  · refine .inr ⟨found, hnodup, fun other hother => ?_, hname, rfl⟩
    obtain ⟨hload, hlabel, hfree⟩ := hfound other hother
    rw [← hmem, h.label_iff htargets] at hlabel
    rcases h.symbol_cases htargets ((hmem _).2 hload) with hpre | ⟨written, hwritten, rfl⟩
    · rw [hfree] at hpre
      cases hpre
    · have hnot : written ∉ definitions code := fun hdefined => hlabel ⟨written, hdefined, rfl⟩
      have htarget : written ∈ targets := (hclosed written hwritten).resolve_right hnot
      rw [readName, (htargets written htarget).squeeze, String.ofList_toList]
      exact ⟨htarget, hnot⟩

end Sound

/-! ## Programs -/

namespace Job

/-- The targets that no command declares, each once. -/
def undeclared (job : Job) : List String :=
  (job.targets.filter fun name => !decide (job.Declares name)).dedup

variable {job : Job}

/-- A declared name is a label of the code. -/
theorem mem_definitions_of_declares {name : String} (h : job.Declares name) :
    name ∈ definitions job.artifact.code := by
  obtain ⟨i, hi, command, hstep, hdeclared⟩ := exists_single_of_declares h
  obtain ⟨rest, hcode⟩ := code_of_declared hi hstep hdeclared
  obtain ⟨after, hsplit⟩ := job.artifact_code_split hi
  rw [mem_definitions, hsplit, hcode]
  simp

/-- The code of a job is `Closed` under its targets. -/
theorem closed : Closed job.targets job.artifact.code := by
  have hnil : Closed job.targets [] := fun name hname => absurd hname List.not_mem_nil
  have hcomments : ∀ options texts, Closed job.targets (comments options texts) := by
    intro options texts name hname
    refine absurd hname ?_
    unfold comments
    split_ifs
    · rw [List.filterMap_map]
      simp [Inst.loaded?]
    · exact List.not_mem_nil
  refine artifact_induction hnil (fun code rest => Closed.append) ?_ ?_ ?_
  · intro entry hentry
    refine (hcomments _ _).append (Closed.append ?_ ((closed_call _ _ _).mono ?_))
    · exact (show Plain [.const Segment.stackBase, .assign .d (.src .a), .reg .sp, .assign .m .d]
        from rfl).closed _
    · intro name hname
      rw [List.mem_singleton.1 hname]
      exact List.mem_append_left _ (List.mem_map_of_mem (Option.mem_toList.2 hentry))
  · intro placed hmem
    refine compileStep_induction hnil (fun code rest => Closed.append) ?_ ?_ ?_
    · intro _ command _ name hname
      exact absurd hname List.not_mem_nil
    · intro command hitem s₁ code s₂ _ hlowers
      refine hlowers.closed.mono fun name hname => List.mem_append_right _ ?_
      exact List.mem_flatMap.2 ⟨command, mem_commands hmem hitem, hname⟩
    · intro first second code s₁ hmove
      exact hmove.plain.closed _
  · exact (hcomments _ _).append fun name hname => .inr hname

theorem isWord_of_mem_targets (hentry : ∀ entry ∈ job.entry, Text.IsWord entry.function.toList)
    {name : String} (hname : name ∈ job.targets) : Text.IsWord name.toList := by
  rcases List.mem_append.1 hname with hname | hname
  · obtain ⟨entry, hmem, rfl⟩ := List.mem_map.1 hname
    exact hentry entry (Option.mem_toList.1 hmem)
  · obtain ⟨command, hcommand, hname⟩ := List.mem_flatMap.1 hname
    exact isWord_of_mem_commands hcommand (Opcode.mem_names_of_mem_targets hname)

/-- **Listings are readable.** Constants in the code of a `Titled` job are literals. If its text
does not assemble, each error is a duplicate label or a target out of literal range. If it does, the
ROM has one word per instruction, and every symbol of the table is a label of the code or one of
`undeclared`, which are variables with addresses from 16 on. -/
theorem listing_readable (job : Job) (ht : job.Titled)
    (hentry : ∀ entry ∈ job.entry, Text.IsWord entry.function.toList)
    (hfew : job.undeclared.length < 65520) :
    (∀ value, .const value ∈ job.artifact.code → value.toNat ≤ 32767) ∧
    (∀ errors, (assemble job.artifact.text).1 = .error errors → ∀ error ∈ errors,
      (∃ name, error.problem = .duplicateLabel name) ∨
        ∃ name ∈ job.targets, name.toList.all Text.isDigit = true ∧
          error.problem = .literalRange name) ∧
    ∀ program, (assemble job.artifact.text).1 = .ok program →
      program.ops.size = job.artifact.instructionCount ∧
      ∀ name value, program.symbols[name]? = some value →
        (∃ label, .label label ∈ job.artifact.code ∧ readName label = name) ∨
          name ∈ job.undeclared ∧ 16 ≤ value.toNat ∧
            value.toNat < 16 + job.undeclared.length := by
  have htargets : ∀ name ∈ job.targets, Text.IsWord name.toList :=
    fun name => isWord_of_mem_targets hentry
  have hsound := allSound ht hentry
  refine ⟨fun value hvalue => ?_, fun errors herrors error => hsound.of_mem_errors htargets herrors,
    fun program hprogram => ⟨hsound.size_eq htargets hprogram, fun name value hvalue => ?_⟩⟩
  · rcases hsound _ hvalue with hlegible | ⟨name, -, hload⟩
    · exact hlegible
    · cases hload
  · refine (hsound.of_symbol closed htargets hprogram hvalue).imp_right ?_
    rintro ⟨found, hnodup, hfound, hname, rfl⟩
    have hsubset : found ⊆ job.undeclared := by
      intro other hother
      obtain ⟨htarget, hnot⟩ := hfound other hother
      rw [undeclared, List.mem_dedup, List.mem_filter, Bool.not_eq_true', decide_eq_false_iff_not]
      exact ⟨htarget, fun hdeclared => hnot (mem_definitions_of_declares hdeclared)⟩
    -- The variables are distinct, so there are no more of them than undeclared targets.
    have hlength := hnodup.length_le_of_subset hsubset
    have hindex := List.idxOf_lt_length_of_mem hname
    rw [UInt16.toNat_ofNat_of_lt' (by simp only [UInt16.size]; omega)]
    exact ⟨hsubset hname, by omega, by omega⟩

end Job

/-- A job with targets that no command declares, one of them a number, and with a line that is
rejected. -/
def looseJob : Job :=
  ⟨{}, some ⟨"Sys", "start"⟩,
    [("M", "goto 7\npush nowhere 1\nlabel here\nif-goto far\ncall far 2\ngoto here")]⟩

theorem listing_readable_loose : looseJob.Titled ∧
    (∀ entry ∈ looseJob.entry, Text.IsWord entry.function.toList) ∧
    looseJob.undeclared = ["start", "7", "far"] ∧
    ∃ program, (assemble looseJob.artifact.text).1 = .ok program ∧
      program.ops.size = looseJob.artifact.instructionCount ∧
      ∀ name value, program.symbols[name]? = some value →
        (∃ label, .label label ∈ looseJob.artifact.code ∧ readName label = name) ∨
          name ∈ looseJob.undeclared ∧ 16 ≤ value.toNat ∧ value.toNat < 19 := by
  have htitled : looseJob.Titled := Job.titled_of_inline (by decide +kernel)
  have hentry : ∀ entry ∈ looseJob.entry, Text.IsWord entry.function.toList := by decide +kernel
  have hundeclared : looseJob.undeclared = ["start", "7", "far"] := by decide +kernel
  obtain ⟨program, hprogram, -⟩ : ∃ program, (assemble looseJob.artifact.text).1 = .ok program ∧
      decide (program.ops.size = 93) = true := by
    refine exists_assembled ?_
    rw [assemble, statements, Artifact.text, toList_render]
    decide +kernel
  obtain ⟨-, -, hok⟩ := Job.listing_readable looseJob htitled hentry (by rw [hundeclared]; decide)
  obtain ⟨hsize, htable⟩ := hok program hprogram
  refine ⟨htitled, hentry, hundeclared, program, hprogram, hsize, ?_⟩
  rwa [hundeclared] at htable ⊢

end Compile

end HackVM
