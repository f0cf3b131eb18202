/-
  The errors of the assembler. The statements of a text are the readings of its lines, by number
  (`mem_statements_iff`), and the duplicates of the label scan are the late definitions
  (`LabelScan.mem_duplicates_iff`). Hence the errors are those of the malformed lines, then those of
  labels defined again or predefined, each in the order of the lines and no line twice
  (`assembly_errors_exact`).
-/
import Mathlib
import HackVM.Proofs.Grammar
import HackVM.Proofs.RoundTrip

namespace HackVM.Rom

open Assembly

/-! ## Lines by number -/

/-- Physical line `n` of `source`, counted from one. -/
def lineAt? (source : String) : Nat → Option (List Char)
  | 0 => none
  | index + 1 => (Text.lines source.toList)[index]?

/-- Line `n` spells `statement`. -/
def SaysAt (source : String) (n : Nat) (statement : Statement) : Prop :=
  ∃ line, lineAt? source n = some line ∧ Spells (content line) statement

/-- Line `n` is `Malformed`. -/
def MalformedAt (source : String) (n : Nat) : Prop :=
  ∃ line, lineAt? source n = some line ∧ Malformed line

/-- Line `n` defines `name`, which is predefined or defined on an earlier line. -/
def RedefinesAt (source : String) (n : Nat) (name : String) : Prop :=
  SaysAt source n (.label name) ∧
    ((predefined? name).isSome = true ∨ ∃ earlier < n, SaysAt source earlier (.label name))

theorem mem_zipIdx_lines_iff {source : String} {line : List Char} {n : Nat} :
    (line, n) ∈ (Text.lines source.toList).zipIdx 1 ↔ lineAt? source n = some line := by
  rw [List.mem_zipIdx_iff_le_and_getElem?_sub]
  cases n with
  | zero => exact iff_of_false (fun h => absurd h.1 (Nat.not_succ_le_zero 0)) nofun
  | succ index => exact and_iff_right (Nat.le_add_left 1 index)

/-- The statements of `source` are the readings of its lines. -/
theorem mem_statements_iff {source : String} {n : Nat} {reading : Except Problem Statement} :
    (n, reading) ∈ statements source ↔
      ∃ line, lineAt? source n = some line ∧ Statement.ofLine? line = some reading := by
  rw [statements, List.mem_filterMap]
  constructor
  · rintro ⟨⟨line, number⟩, hmem, hread⟩
    obtain ⟨found, hfound, heq⟩ := Option.map_eq_some_iff.1 hread
    cases heq
    exact ⟨line, mem_zipIdx_lines_iff.1 hmem, hfound⟩
  · rintro ⟨line, hline, hread⟩
    exact ⟨(line, n), mem_zipIdx_lines_iff.2 hline, by rw [hread]; rfl⟩

/-- A selection from `statements source` is ordered by line. -/
theorem pairwise_filterMap_statements {α : Type} {number : α → Nat}
    {pick : Nat × Except Problem Statement → Option α}
    (hpick : ∀ entry found, pick entry = some found → number found = entry.1) (source : String) :
    ((statements source).filterMap pick).Pairwise fun found later =>
      number found < number later := by
  have hlines : ((Text.lines source.toList).zipIdx 1).Pairwise fun line later =>
      line.2 < later.2 := by
    rw [← List.pairwise_map (f := Prod.snd), List.zipIdx_map_snd]
    exact List.pairwise_lt_range'
  rw [statements, List.filterMap_filterMap]
  refine hlines.filterMap _ fun line later hlt found hfound found' hfound' => ?_
  obtain ⟨entry, hentry, hfound⟩ := Option.bind_eq_some_iff.1 hfound
  obtain ⟨entry', hentry', hfound'⟩ := Option.bind_eq_some_iff.1 hfound'
  obtain ⟨reading, -, rfl⟩ := Option.map_eq_some_iff.1 hentry
  obtain ⟨reading', -, rfl⟩ := Option.map_eq_some_iff.1 hentry'
  rw [hpick _ _ hfound, hpick _ _ hfound']
  exact hlt

/-! ## Lines that can be read, and lines that cannot -/

theorem mem_wellFormed_iff {parsed : List (Nat × Except Problem Statement)} {n : Nat}
    {statement : Statement} : (n, statement) ∈ wellFormed parsed ↔ (n, .ok statement) ∈ parsed := by
  rw [wellFormed, List.mem_filterMap]
  constructor
  · rintro ⟨⟨number, reading⟩, hmem, hread⟩
    cases reading with
    | error problem => cases hread
    | ok found =>
      cases hread
      exact hmem
  · exact fun hmem => ⟨_, hmem, rfl⟩

theorem mem_malformed_iff {parsed : List (Nat × Except Problem Statement)} {n : Nat}
    {problem : Problem} : ⟨n, problem⟩ ∈ malformed parsed ↔ (n, .error problem) ∈ parsed := by
  rw [malformed, List.mem_filterMap]
  constructor
  · rintro ⟨⟨number, reading⟩, hmem, hread⟩
    cases reading with
    | ok statement => cases hread
    | error found =>
      cases hread
      exact hmem
  · exact fun hmem => ⟨_, hmem, rfl⟩

theorem mem_wellFormed_statements_iff {source : String} {n : Nat} {statement : Statement} :
    (n, statement) ∈ wellFormed (statements source) ↔ SaysAt source n statement := by
  simp only [mem_wellFormed_iff, mem_statements_iff, ofLine?_eq_ok_iff, SaysAt]

theorem exists_mem_malformed_iff {source : String} {n : Nat} :
    (∃ problem, ⟨n, problem⟩ ∈ malformed (statements source)) ↔ MalformedAt source n := by
  simp only [mem_malformed_iff, mem_statements_iff, MalformedAt, ← ofLine?_eq_error_iff]
  constructor
  · rintro ⟨problem, line, hline, hread⟩
    exact ⟨line, hline, problem, hread⟩
  · rintro ⟨line, hline, problem, hread⟩
    exact ⟨problem, line, hline, hread⟩

theorem pairwise_wellFormed (source : String) :
    (wellFormed (statements source)).Pairwise fun entry later => entry.1 < later.1 := by
  refine pairwise_filterMap_statements (fun entry found hfound => ?_) source
  obtain ⟨n, reading⟩ := entry
  cases reading with
  | ok statement =>
    cases hfound
    rfl
  | error problem => cases hfound

theorem pairwise_malformed (source : String) :
    (malformed (statements source)).Pairwise fun error later => error.line < later.line := by
  refine pairwise_filterMap_statements (fun entry found hfound => ?_) source
  obtain ⟨n, reading⟩ := entry
  cases reading with
  | ok statement => cases hfound
  | error problem =>
    cases hfound
    rfl

/-! ## Labels that are defined again -/

namespace LabelScan

/-- Entry `line` defines `name`, which is predefined or defined by an earlier entry. -/
def Redefines (numbered : List (Nat × Statement)) (line : Nat) (name : String) : Prop :=
  (line, .label name) ∈ numbered ∧
    ((predefined? name).isSome = true ∨ ∃ earlier < line, (earlier, .label name) ∈ numbered)

/-- A last entry redefines its own label at most. -/
theorem redefines_concat {numbered : List (Nat × Statement)} {last : Nat} {statement : Statement}
    (hlast : ∀ entry ∈ numbered, entry.1 < last) {line : Nat} {name : String} :
    Redefines (numbered ++ [(last, statement)]) line name ↔ Redefines numbered line name ∨
      (line = last ∧ statement = .label name) ∧
        ((predefined? name).isSome = true ∨ name ∈ defined numbered) := by
  have hmem : ∀ n, (n, .label name) ∈ numbered ++ [(last, statement)] ↔
      (n, .label name) ∈ numbered ∨ n = last ∧ statement = .label name := by
    intro n
    rw [List.mem_append, List.mem_singleton, Prod.mk.injEq, @eq_comm _ statement]
  simp only [Redefines, hmem]
  constructor
  · rintro ⟨hline | hline, hwhy⟩
    · refine .inl ⟨hline, hwhy.imp_right ?_⟩
      rintro ⟨earlier, hlt, hearlier | ⟨rfl, -⟩⟩
      · exact ⟨earlier, hlt, hearlier⟩
      · exact absurd (hlast _ hline) hlt.not_gt
    · refine .inr ⟨hline, hwhy.imp_right ?_⟩
      rintro ⟨earlier, hlt, hearlier | ⟨rfl, -⟩⟩
      · exact mem_defined_iff.2 ⟨earlier, hearlier⟩
      · exact absurd hline.1 hlt.ne'
  · rintro (⟨hline, hwhy⟩ | ⟨⟨rfl, hline⟩, hwhy⟩)
    · refine ⟨.inl hline, hwhy.imp_right ?_⟩
      rintro ⟨earlier, hlt, hearlier⟩
      exact ⟨earlier, hlt, .inl hearlier⟩
    · refine ⟨.inr ⟨rfl, hline⟩, hwhy.imp_right fun hname => ?_⟩
      obtain ⟨earlier, hearlier⟩ := mem_defined_iff.1 hname
      exact ⟨earlier, hlast _ hearlier, .inl hearlier⟩

/-- A last entry is a duplicate iff its label is predefined or bound. -/
theorem duplicates_concat (numbered : List (Nat × Statement)) (last : Nat) (statement : Statement) :
    (∃ name, statement = .label name ∧
      ((predefined? name).isSome = true ∨ name ∈ defined numbered) ∧
        (addAll {} (numbered ++ [(last, statement)])).duplicates.toList =
          (addAll {} numbered).duplicates.toList ++ [⟨last, .duplicateLabel name⟩]) ∨
    (∀ name, statement = .label name →
      ¬((predefined? name).isSome = true ∨ name ∈ defined numbered)) ∧
        (addAll {} (numbered ++ [(last, statement)])).duplicates.toList =
          (addAll {} numbered).duplicates.toList := by
  rw [addAll_concat]
  cases statement with
  | label other =>
    by_cases hknown : (predefined? other).isSome = true ∨ other ∈ (addAll {} numbered).symbols
    · refine .inl ⟨other, rfl, known_iff.1 hknown, ?_⟩
      rw [add_of_known last hknown, Array.toList_push]
    · refine .inr ⟨fun name hname => ?_, by rw [add_of_new last hknown]⟩
      cases hname
      exact mt known_iff.2 hknown
  | literal value | symbol name | compute dest comp jump => exact .inr ⟨nofun, rfl⟩

/-- The duplicates of a scan are the entries with `Redefines`. -/
theorem mem_duplicates_iff {numbered : List (Nat × Statement)}
    (h : numbered.Pairwise fun entry later => entry.1 < later.1) (error : AssemblyError) :
    error ∈ (addAll {} numbered).duplicates.toList ↔
      ∃ line name, error = ⟨line, .duplicateLabel name⟩ ∧ Redefines numbered line name := by
  -- Whether an entry is a duplicate depends on what stands before it, so the last one is split off.
  induction numbered using List.reverseRecOn with
  | nil =>
    refine iff_of_false List.not_mem_nil ?_
    rintro ⟨line, name, -, hmem, -⟩
    exact absurd hmem List.not_mem_nil
  | append_singleton numbered entry ih =>
    obtain ⟨last, statement⟩ := entry
    obtain ⟨hpairwise, -, hlast⟩ := List.pairwise_append.1 h
    have hbehind : ∀ entry ∈ numbered, entry.1 < last :=
      fun entry hentry => hlast entry hentry _ (List.mem_singleton_self _)
    simp only [redefines_concat hbehind]
    rcases duplicates_concat numbered last statement with
      ⟨other, rfl, hknown, hdup⟩ | ⟨hnone, hdup⟩
    · rw [hdup, List.mem_append, List.mem_singleton, ih hpairwise]
      constructor
      · rintro (⟨line, name, rfl, hold⟩ | rfl)
        · exact ⟨line, name, rfl, .inl hold⟩
        · exact ⟨last, other, rfl, .inr ⟨⟨rfl, rfl⟩, hknown⟩⟩
      · rintro ⟨line, name, rfl, hold | ⟨⟨rfl, hlabel⟩, -⟩⟩
        · exact .inl ⟨line, name, rfl, hold⟩
        · cases hlabel
          exact .inr rfl
    · rw [hdup, ih hpairwise]
      refine exists_congr fun line => exists_congr fun name => and_congr_right fun _ => ?_
      exact (or_iff_left fun hnew => hnone name hnew.1.2 hnew.2).symm

/-- The duplicates of a scan are ordered by line. -/
theorem pairwise_duplicates {numbered : List (Nat × Statement)}
    (h : numbered.Pairwise fun entry later => entry.1 < later.1) :
    (addAll {} numbered).duplicates.toList.Pairwise fun error later => error.line < later.line := by
  induction numbered using List.reverseRecOn with
  | nil => exact List.Pairwise.nil
  | append_singleton numbered entry ih =>
    obtain ⟨last, statement⟩ := entry
    obtain ⟨hpairwise, -, hlast⟩ := List.pairwise_append.1 h
    rcases duplicates_concat numbered last statement with ⟨name, -, -, hdup⟩ | ⟨-, hdup⟩
    · rw [hdup, List.pairwise_append]
      refine ⟨ih hpairwise, List.pairwise_singleton _ _, fun error herror later hlater => ?_⟩
      obtain ⟨line, other, rfl, hold⟩ := (mem_duplicates_iff hpairwise error).1 herror
      rw [List.mem_singleton.1 hlater]
      exact hlast _ hold.1 _ (List.mem_singleton_self _)
    · rw [hdup]
      exact ih hpairwise

end LabelScan

/-! ## The report -/

/-- `duplicateLabel` is no problem of a single line. -/
theorem ofChars_ne_duplicateLabel (text : List Char) (name : String) :
    Statement.ofChars text ≠ .error (.duplicateLabel name) := by
  intro h
  unfold Statement.ofChars at h
  split at h
  · unfold Statement.ofLabel at h
    split_ifs at h <;> cases h
  · unfold Statement.ofOperand at h
    split_ifs at h
    · cases h
    · split at h <;> cases h
  · cases hread : Statement.ofCompute text with
    | ok statement =>
      rw [hread] at h
      cases h
    | error problem =>
      rw [hread] at h
      cases h

/-- `faults` are the errors of the lines with `MalformedAt`, `redefinitions` those of the lines with
`RedefinesAt`, each ordered by line, and no line has two. -/
structure Reports (source : String) (faults redefinitions : List AssemblyError) : Prop where
  faults_sorted : faults.Pairwise fun error later => error.line < later.line
  mem_faults : ∀ n, (∃ problem, ⟨n, problem⟩ ∈ faults) ↔ MalformedAt source n
  faults_ne : ∀ error ∈ faults, ∀ name, error.problem ≠ .duplicateLabel name
  redefinitions_sorted : redefinitions.Pairwise fun error later => error.line < later.line
  mem_redefinitions : ∀ error, error ∈ redefinitions ↔
    ∃ n name, error = ⟨n, .duplicateLabel name⟩ ∧ RedefinesAt source n name
  lines_nodup : ((faults ++ redefinitions).map AssemblyError.line).Nodup

theorem not_malformedAt_of_saysAt {source : String} {n : Nat} {statement : Statement}
    (h : SaysAt source n statement) : ¬MalformedAt source n := by
  obtain ⟨line, hline, hspells⟩ := h
  rintro ⟨other, hother, -, hnone⟩
  cases Option.some.inj (hline.symm.trans hother)
  exact hnone statement hspells

theorem Reports.ne_nil_iff {source : String} {faults redefinitions : List AssemblyError}
    (h : Reports source faults redefinitions) : faults ++ redefinitions ≠ [] ↔
      (∃ n, MalformedAt source n) ∨ ∃ n name, RedefinesAt source n name := by
  constructor
  · intro hne
    obtain ⟨⟨n, problem⟩, hmem⟩ := List.exists_mem_of_ne_nil _ hne
    rcases List.mem_append.1 hmem with hfault | hredefinition
    · exact .inl ⟨n, (h.mem_faults n).1 ⟨problem, hfault⟩⟩
    · obtain ⟨n, name, -, hredefines⟩ := (h.mem_redefinitions _).1 hredefinition
      exact .inr ⟨n, name, hredefines⟩
  · rintro (⟨n, hmalformed⟩ | ⟨n, name, hredefines⟩)
    · obtain ⟨problem, hmem⟩ := (h.mem_faults n).2 hmalformed
      exact List.ne_nil_of_mem (List.mem_append_left _ hmem)
    · have hmem := (h.mem_redefinitions _).2 ⟨n, name, rfl, hredefines⟩
      exact List.ne_nil_of_mem (List.mem_append_right _ hmem)

/-- The two error lists of `assemble` are `Reports` of `source`. -/
theorem reports_statements (source : String) :
    Reports source (malformed (statements source))
      (LabelScan.addAll {} (wellFormed (statements source))).duplicates.toList := by
  have hfaults := pairwise_malformed source
  have horder := LabelScan.pairwise_duplicates (pairwise_wellFormed source)
  have hmem := LabelScan.mem_duplicates_iff (pairwise_wellFormed source)
  simp only [LabelScan.Redefines, mem_wellFormed_statements_iff] at hmem
  refine ⟨hfaults, fun n => exists_mem_malformed_iff, ?_, horder, hmem, ?_⟩
  · intro error herror name hproblem
    obtain ⟨line, problem⟩ := error
    cases hproblem
    obtain ⟨text, -, hread⟩ := mem_statements_iff.1 (mem_malformed_iff.1 herror)
    unfold Statement.ofLine? at hread
    dsimp only at hread
    split_ifs at hread
    exact ofChars_ne_duplicateLabel _ name (Option.some.inj hread)
  · rw [List.map_append]
    refine List.nodup_append.2 ⟨?_, ?_, ?_⟩
    · exact (List.pairwise_map.2 hfaults).imp Nat.ne_of_lt
    · exact (List.pairwise_map.2 horder).imp Nat.ne_of_lt
    · intro line hline other hother heq
      obtain ⟨⟨n, problem⟩, hfault, rfl⟩ := List.mem_map.1 hline
      obtain ⟨error, herror, rfl⟩ := List.mem_map.1 hother
      obtain ⟨m, name, rfl, hsaid, -⟩ := (hmem error).1 herror
      cases heq
      exact not_malformedAt_of_saysAt hsaid (exists_mem_malformed_iff.1 ⟨problem, hfault⟩)

/-- **Assembly errors.** `assemble` fails iff a line is `MalformedAt` or `RedefinesAt`. Its errors
are then those of all malformed lines, followed by those of all redefined labels, each list in the
order of the lines, and no line has two. -/
theorem assembly_errors_exact (source : String) :
    ((∃ errors, (assemble source).1 = .error errors) ↔
      (∃ n, MalformedAt source n) ∨ ∃ n name, RedefinesAt source n name) ∧
    ∀ errors, (assemble source).1 = .error errors →
      ∃ faults redefinitions, errors = faults ++ redefinitions ∧
        Reports source faults redefinitions := by
  have hreports := reports_statements source
  by_cases herrors : errorsOf (statements source) = []
  · rw [assemble_of_no_errors herrors]
    exact ⟨iff_of_false nofun (mt hreports.ne_nil_iff.2 (not_not.2 herrors)), nofun⟩
  · rw [assemble_of_errors herrors]
    refine ⟨iff_of_true ⟨_, rfl⟩ (hreports.ne_nil_iff.1 herrors), fun errors heq => ?_⟩
    cases heq
    exact ⟨_, _, rfl, hreports⟩

/-- A text with five malformed lines and two labels too many among them. -/
def scrawl : String :=
  "@40000\n(X)\n/ /x\n(SP)\n(X\n  ( X ) // again\nD=A=M\n@\n@X\n"

def scrawlErrors : List AssemblyError :=
  [⟨1, .literalRange "40000"⟩, ⟨3, .mnemonic (.computation "//x")⟩, ⟨5, .unterminatedLabel "(X"⟩,
    ⟨7, .mnemonic (.computation "A=M")⟩, ⟨8, .missingOperand⟩,
    ⟨4, .duplicateLabel "SP"⟩, ⟨6, .duplicateLabel "X"⟩]

theorem assembly_errors_exact_scrawl :
    (assemble scrawl).1 = .error scrawlErrors ∧
      ∃ faults redefinitions, scrawlErrors = faults ++ redefinitions ∧
        Reports scrawl faults redefinitions := by
  have herrors : errorsOf (statements scrawl) = scrawlErrors := by decide +kernel
  have hne : errorsOf (statements scrawl) ≠ [] := by
    rw [herrors]
    exact List.cons_ne_nil _ _
  have h : (assemble scrawl).1 = .error scrawlErrors := by
    rw [assemble_of_errors hne, herrors]
  exact ⟨h, (assembly_errors_exact scrawl).2 scrawlErrors h⟩

end HackVM.Rom
