/-
  The values of names. A text that assembles has one ROM word per line with `TakesWord`
  (`wordCount_readLines`), so a label has the number of such lines before it. The variables are the
  names loaded and neither predefined nor defined, in the order of first load
  (`pairwise_variablesOf`). Every load has the value that the symbol table gives its name
  (`assembled_symbols`).
-/
import Mathlib
import HackVM.Proofs.AssemblyErrors

namespace HackVM.Rom

open Assembly

/-! ## Lines that take up a word -/

/-- `content line` is not empty and spells no label. -/
def TakesWord (line : List Char) : Prop :=
  content line ≠ [] ∧ ∀ name, ¬Spells (content line) (.label name)

theorem not_takesWord_of_none {line : List Char} (h : Statement.ofLine? line = none) :
    ¬TakesWord line :=
  fun htakes => htakes.1 (ofLine?_eq_none_iff.1 h)

theorem takesWord_of_error {line : List Char} {problem : Problem}
    (h : Statement.ofLine? line = some (.error problem)) : TakesWord line := by
  obtain ⟨hne, hnone⟩ := ofLine?_eq_error_iff.1 ⟨problem, h⟩
  exact ⟨hne, fun name => hnone (.label name)⟩

theorem takesWord_iff_of_ok {line : List Char} {statement : Statement}
    (h : Statement.ofLine? line = some (.ok statement)) :
    TakesWord line ↔ statement.isInstruction = true := by
  have hspells := ofLine?_eq_ok_iff.1 h
  have hlabel : (∃ name, Spells (content line) (.label name)) ↔
      ∃ name, statement = .label name := by
    simp only [← ofLine?_eq_ok_iff, h, Option.some_inj, Except.ok.injEq]
  rw [TakesWord, and_iff_right hspells.ne_nil, ← not_exists, hlabel]
  cases statement with
  | label name => exact iff_of_false (fun hnone => hnone ⟨name, rfl⟩) Bool.false_ne_true
  | literal value | symbol name | compute dest comp jump => exact iff_of_true nofun rfl

instance : DecidablePred TakesWord := fun line =>
  match h : Statement.ofLine? line with
  | none => .isFalse (not_takesWord_of_none h)
  | some (.ok _) => decidable_of_iff _ (takesWord_iff_of_ok h).symm
  | some (.error _) => .isTrue (takesWord_of_error h)

/-- The number of lines with `TakesWord` before line `n`. -/
def wordsBefore (source : String) (n : Nat) : Nat :=
  ((Text.lines source.toList).take (n - 1)).countP fun line => TakesWord line

/-- The statement of a numbered line. -/
def readLine? (line : List Char × Nat) : Option (Nat × Statement) :=
  match Statement.ofLine? line.1 with
  | some (.ok statement) => some (line.2, statement)
  | some (.error _) | none => none

theorem wellFormed_statements (source : String) :
    wellFormed (statements source) = ((Text.lines source.toList).zipIdx 1).filterMap readLine? := by
  rw [wellFormed, statements, List.filterMap_filterMap]
  refine List.filterMap_congr fun line _ => ?_
  unfold readLine?
  cases Statement.ofLine? line.1 with
  | none => rfl
  | some reading => cases reading <;> rfl

/-- Without malformed lines, `wordCount` of the statements counts the lines with `TakesWord`. -/
theorem wordCount_readLines {lines : List (List Char)} (h : ∀ line ∈ lines, ¬Malformed line)
    (first : Nat) :
    wordCount ((lines.zipIdx first).filterMap readLine?) =
      lines.countP fun line => TakesWord line := by
  induction lines generalizing first with
  | nil => rfl
  | cons line lines ih =>
    have hrest := ih (fun other hother => h other (List.mem_cons_of_mem _ hother)) (first + 1)
    rw [List.zipIdx_cons, List.filterMap_cons, List.countP_cons, ← hrest, readLine?]
    cases hread : Statement.ofLine? line with
    | none => simp [not_takesWord_of_none hread]
    | some reading =>
      cases reading with
      | error problem =>
        exact absurd (ofLine?_eq_error_iff.1 ⟨problem, hread⟩) (h line List.mem_cons_self)
      | ok statement => simp [wordCount_cons, takesWord_iff_of_ok hread]

/-- The statement of line `n` stands behind `wordsBefore source n` ROM words. -/
theorem exists_split_of_saysAt {source : String}
    (h : ∀ line ∈ Text.lines source.toList, ¬Malformed line) {n : Nat} {statement : Statement}
    (hsaid : SaysAt source n statement) :
    ∃ before after, wellFormed (statements source) = before ++ (n, statement) :: after ∧
      wordCount before = wordsBefore source n := by
  obtain ⟨line, hline, hspells⟩ := hsaid
  cases n with
  | zero => cases hline
  | succ index =>
    obtain ⟨hlt, hget⟩ := List.getElem?_eq_some_iff.1 hline
    have hlines : Text.lines source.toList = (Text.lines source.toList).take index ++
        line :: (Text.lines source.toList).drop (index + 1) := by
      rw [← hget, List.cons_getElem_drop_succ, List.take_append_drop]
    have hread : readLine? (line, index + 1) = some (index + 1, statement) := by
      rw [readLine?, ofLine?_eq_ok_iff.2 hspells]
    refine ⟨(((Text.lines source.toList).take index).zipIdx 1).filterMap readLine?,
      (((Text.lines source.toList).drop (index + 1)).zipIdx (index + 2)).filterMap readLine?, ?_,
      wordCount_readLines (fun other hother => h other (List.mem_of_mem_take hother)) 1⟩
    nth_rewrite 1 [wellFormed_statements, hlines]
    rw [List.zipIdx_append, List.filterMap_append, List.length_take_of_le hlt.le, List.zipIdx_cons,
      add_comm 1 index, List.filterMap_cons, hread]

/-! ## The order of first loads -/

theorem mem_of_mem_concat {numbered : List (Nat × Statement)} {m last : Nat}
    {statement other : Statement} (hlt : m < last)
    (h : (m, other) ∈ numbered ++ [(last, statement)]) : (m, other) ∈ numbered := by
  rw [List.mem_append, List.mem_singleton, Prod.mk.injEq] at h
  exact h.resolve_right fun heq => hlt.ne heq.1

namespace Naming

/-- Some entry loads `name`, and no entry up to it loads `other`. -/
def LoadsBefore (numbered : List (Nat × Statement)) (name other : String) : Prop :=
  ∃ n, (n, .symbol name) ∈ numbered ∧ ∀ m ≤ n, (m, .symbol other) ∉ numbered

/-- A last entry does not affect `LoadsBefore`. -/
theorem LoadsBefore.concat {numbered : List (Nat × Statement)} {last : Nat}
    (hlast : ∀ entry ∈ numbered, entry.1 < last) (statement : Statement) {name other : String}
    (h : LoadsBefore numbered name other) :
    LoadsBefore (numbered ++ [(last, statement)]) name other := by
  obtain ⟨n, hn, hother⟩ := h
  refine ⟨n, List.mem_append_left _ hn, fun m hle hmem => hother m hle ?_⟩
  exact mem_of_mem_concat (hle.trans_lt (hlast _ hn)) hmem

end Naming

/-- `variablesOf` is ordered by `LoadsBefore`. -/
theorem pairwise_variablesOf (labels : SymbolTable) {numbered : List (Nat × Statement)}
    (h : numbered.Pairwise fun entry later => entry.1 < later.1) :
    (variablesOf labels (Naming.loaded numbered)).Pairwise (Naming.LoadsBefore numbered) := by
  induction numbered using List.reverseRecOn with
  | nil => exact List.Pairwise.nil
  | append_singleton numbered entry ih =>
    obtain ⟨last, statement⟩ := entry
    rw [List.pairwise_append] at h
    have hlast : ∀ entry ∈ numbered, entry.1 < last :=
      fun entry hentry => h.2.2 entry hentry _ (List.mem_singleton_self _)
    have hold := (ih h.1).imp fun hbefore => hbefore.concat hlast statement
    rw [Naming.loaded_concat]
    cases statement with
    | symbol name =>
      rw [Statement.loaded?, Option.toList_some, variablesOf_concat]
      split_ifs with hnew
      · -- The new variable has not been loaded before, and all others have.
        refine List.pairwise_append.2 ⟨hold, List.pairwise_singleton _ _, fun other hother => ?_⟩
        intro new hmem
        rw [List.mem_singleton.1 hmem]
        obtain ⟨n, hn⟩ := Naming.mem_loaded_iff.1 (mem_variablesOf_iff.1 hother).1
        refine ⟨n, List.mem_append_left _ hn, fun m hle hm => hnew.2 ?_⟩
        have hold := mem_of_mem_concat (hle.trans_lt (hlast _ hn)) hm
        exact mem_variablesOf_iff.2 ⟨Naming.mem_loaded_iff.2 ⟨m, hold⟩, hnew.1⟩
      · exact hold
    | label name | literal value | compute dest comp jump =>
      rw [Statement.loaded?, Option.toList_none, List.append_nil]
      exact hold

/-! ## The values of names -/

/-- The symbols that `source` loads and that are neither predefined nor defined in it, in the order
of first load. -/
def sourceVariables (source : String) : List String :=
  let numbered := wellFormed (statements source)
  ((Naming.loaded numbered).filter fun name =>
    (predefined? name).isNone && !(LabelScan.defined numbered).contains name).eraseDups

/-- Some line loads `name`, and no line up to it loads `other`. -/
def UsedBefore (source : String) (name other : String) : Prop :=
  ∃ n, SaysAt source n (.symbol name) ∧ ∀ m ≤ n, ¬SaysAt source m (.symbol other)

/-- The table and the ROM of `program` for the names of `source`: labels at `wordsBefore`, the
variables `found` at `16, 17, …` in the order of first load, and every load with the value of its
name. -/
structure Resolves (source : String) (program : Program) (found : List String) : Prop where
  label : ∀ n name, SaysAt source n (.label name) → ∃ value,
    program.symbols[name]? = some value ∧ value.toNat = wordsBefore source n % 2 ^ 16
  mem_variables : ∀ name, name ∈ found ↔
    (∃ n, SaysAt source n (.symbol name)) ∧ predefined? name = none ∧
      ∀ n, ¬SaysAt source n (.label name)
  variables_sorted : found.Pairwise (UsedBefore source)
  numbered : ∀ index name, found[index]? = some name → ∃ value,
    program.symbols[name]? = some value ∧ value.toNat = 16 + index
  distinct : ∀ name ∈ found, ∀ other ∈ found,
    program.symbols[name]? = program.symbols[other]? → name = other
  load : ∀ n name, SaysAt source n (.symbol name) → ∃ value,
    program.ops[wordsBefore source n]? = some (.load value) ∧
      (predefined? name).or program.symbols[name]? = some value
  mem_symbols : ∀ name, name ∈ program.symbols ↔
    (∃ n, SaysAt source n (.label name)) ∨ name ∈ found
  not_predefined : ∀ name ∈ program.symbols, predefined? name = none
  size_ops : program.ops.size = (Text.lines source.toList).countP fun line => TakesWord line

theorem sourceVariables_eq (source : String) :
    sourceVariables source = variablesOf
      (LabelScan.addAll {} (wellFormed (statements source))).symbols
      (Naming.loaded (wellFormed (statements source))) := by
  rw [sourceVariables, variablesOf, funext (isVariable_addAll _)]

theorem mem_sourceVariables_iff {source name : String} :
    name ∈ sourceVariables source ↔ (∃ n, SaysAt source n (.symbol name)) ∧
      predefined? name = none ∧ ∀ n, ¬SaysAt source n (.label name) := by
  rw [sourceVariables, List.mem_eraseDups, List.mem_filter, Naming.mem_loaded_iff, Bool.and_eq_true,
    Option.isNone_iff_eq_none, Bool.not_eq_true', ← Bool.not_eq_true, List.contains_iff_mem,
    LabelScan.mem_defined_iff, not_exists]
  simp only [mem_wellFormed_statements_iff]

theorem pairwise_sourceVariables (source : String) :
    (sourceVariables source).Pairwise (UsedBefore source) := by
  rw [sourceVariables_eq]
  refine (pairwise_variablesOf _ (pairwise_wellFormed source)).imp ?_
  simp only [Naming.LoadsBefore, mem_wellFormed_statements_iff]
  exact id

theorem of_assemble {source : String} {program : Program} (h : (assemble source).1 = .ok program) :
    program = programOf (wellFormed (statements source)) ∧
      (LabelScan.addAll {} (wellFormed (statements source))).duplicates = #[] ∧
      ∀ line ∈ Text.lines source.toList, ¬Malformed line := by
  by_cases herrors : errorsOf (statements source) = []
  · rw [assemble_of_no_errors herrors] at h
    obtain ⟨hmalformed, hduplicates⟩ := List.append_eq_nil_iff.1 herrors
    refine ⟨(Except.ok.inj h).symm, Array.toList_eq_nil_iff.1 hduplicates,
      fun line hline hbad => ?_⟩
    obtain ⟨index, hindex⟩ := List.getElem?_of_mem hline
    have hat : MalformedAt source (index + 1) := ⟨line, hindex, hbad⟩
    obtain ⟨problem, hmem⟩ := exists_mem_malformed_iff.2 hat
    rw [hmalformed] at hmem
    cases hmem
  · rw [assemble_of_errors herrors] at h
    cases h

/-! ## The program of some statements -/

section programOf

variable {numbered before after : List (Nat × Statement)} {n : Nat} {name : String}

/-- The table of `programOf` holds the names defined or loaded, less the predefined ones. -/
theorem mem_symbols_programOf : name ∈ (programOf numbered).symbols ↔ predefined? name = none ∧
    (name ∈ LabelScan.defined numbered ∨ name ∈ Naming.loaded numbered) := by
  have hnumbers := Naming.numbers_resolveAll (LabelScan.addAll {} numbered).symbols numbered
  by_cases hvariable :
      name ∈ variablesOf (LabelScan.addAll {} numbered).symbols (Naming.loaded numbered)
  · obtain ⟨hloaded, hisVariable⟩ := mem_variablesOf_iff.1 hvariable
    refine iff_of_true ?_ ⟨(isVariable_iff.1 hisVariable).1, .inr hloaded⟩
    rw [Std.TreeMap.mem_iff_isSome_getElem?]
    exact Option.isSome_of_eq_some (hnumbers.value name hvariable)
  · have hlabel : name ∈ (programOf numbered).symbols ↔
        predefined? name = none ∧ name ∈ LabelScan.defined numbered := by
      rw [Std.TreeMap.mem_iff_isSome_getElem?, ← LabelScan.mem_symbols_iff,
        Std.TreeMap.mem_iff_isSome_getElem?, ← hnumbers.label name hvariable]
      rfl
    rw [hlabel]
    -- A name that is loaded, not predefined and no variable can only be a label.
    refine and_congr_right fun hfree => (or_iff_left_of_imp fun hloaded => ?_).symm
    by_contra hdefined
    refine hvariable (mem_variablesOf_iff.2 ⟨hloaded, ?_⟩)
    rw [isVariable_addAll, hfree, List.contains_eq_mem, decide_eq_false hdefined]
    rfl

/-- Without duplicates, a label has the value `wordCount before`. -/
theorem getElem?_symbols_programOf
    (hdup : (LabelScan.addAll {} (before ++ (n, .label name) :: after)).duplicates = #[]) :
    (programOf (before ++ (n, .label name) :: after)).symbols[name]? =
      some (UInt16.ofNat (wordCount before)) :=
  Naming.extends_resolveAll _ _ _ _ (LabelScan.symbols_of_label hdup).2

theorem toList_ops_programOf (numbered : List (Nat × Statement)) :
    (programOf numbered).ops.toList =
      (numbered.map Prod.snd).filterMap (Statement.op? (programOf numbered).symbols) := by
  rw [List.filterMap_map]
  exact Naming.ops_resolveAll _ _

theorem size_ops_programOf (numbered : List (Nat × Statement)) :
    (programOf numbered).ops.size = wordCount numbered := by
  rw [← Array.length_toList, toList_ops_programOf, length_filterMap_op?, List.countP_map]
  rfl

/-- A load stands at `wordCount before` and has the value of its name. -/
theorem getElem?_ops_programOf (hnumbered : numbered = before ++ (n, .symbol name) :: after) :
    (programOf numbered).ops[wordCount before]? =
      some (.load ((valueOf? (programOf numbered).symbols name).getD 0)) := by
  have hcount : (before.map Prod.snd).countP Statement.isInstruction = wordCount before := by
    rw [List.countP_map]
    rfl
  have hmap :
      numbered.map Prod.snd = before.map Prod.snd ++ .symbol name :: after.map Prod.snd := by
    rw [hnumbered, List.map_append, List.map_cons]
  rw [← Array.getElem?_toList, toList_ops_programOf, hmap, List.filterMap_append,
    List.getElem?_append_right, length_filterMap_op?, hcount, Nat.sub_self]
  · rfl
  · rw [length_filterMap_op?, hcount]

theorem exists_value_of_loaded (h : name ∈ Naming.loaded numbered) :
    ∃ value, valueOf? (programOf numbered).symbols name = some value := by
  rw [← Option.isSome_iff_exists, valueOf?]
  cases hfree : predefined? name with
  | some value => rfl
  | none =>
    rw [Option.none_or, ← Std.TreeMap.mem_iff_isSome_getElem?]
    exact mem_symbols_programOf.2 ⟨hfree, .inr h⟩

end programOf

/-! ## The program of a text -/

theorem getElem?_symbols_of_variable {source name : String} {index : Nat}
    (h : (sourceVariables source)[index]? = some name) :
    (programOf (wellFormed (statements source))).symbols[name]? =
      some (UInt16.ofNat (16 + index)) := by
  have hnumbers := Naming.numbers_resolveAll
    (LabelScan.addAll {} (wellFormed (statements source))).symbols (wellFormed (statements source))
  have hnodup : (sourceVariables source).Nodup := by
    rw [sourceVariables_eq]
    exact nodup_variablesOf _ _
  have hvalue := hnumbers.value name (by
    rw [← sourceVariables_eq]
    exact List.mem_of_getElem? h)
  rw [← sourceVariables_eq] at hvalue
  obtain ⟨hlt, rfl⟩ := List.getElem?_eq_some_iff.1 h
  rwa [hnodup.idxOf_getElem index hlt] at hvalue

/-- The table holds the labels of the text and `sourceVariables`. -/
theorem mem_symbols_iff_of_duplicates {source name : String}
    (hdup : (LabelScan.addAll {} (wellFormed (statements source))).duplicates = #[]) :
    name ∈ (programOf (wellFormed (statements source))).symbols ↔
      (∃ n, SaysAt source n (.label name)) ∨ name ∈ sourceVariables source := by
  rw [mem_symbols_programOf, LabelScan.mem_defined_iff, Naming.mem_loaded_iff,
    mem_sourceVariables_iff]
  simp only [mem_wellFormed_statements_iff]
  constructor
  · rintro ⟨hfree, hlabel | hsymbol⟩
    · exact .inl hlabel
    · by_cases hlabel : ∃ n, SaysAt source n (.label name)
      · exact .inl hlabel
      · exact .inr ⟨hsymbol, hfree, not_exists.1 hlabel⟩
  · rintro (⟨n, hlabel⟩ | ⟨hsymbol, hfree, -⟩)
    · obtain ⟨before, after, hsplit⟩ := List.append_of_mem (mem_wellFormed_statements_iff.2 hlabel)
      rw [hsplit] at hdup
      exact ⟨(LabelScan.symbols_of_label hdup).1, .inl ⟨n, hlabel⟩⟩
    · exact ⟨hfree, .inr hsymbol⟩

/-- **Symbols.** In a text that assembles with fewer than 65520 variables, every label has the
number of ROM words before it modulo `2 ^ 16`, `sourceVariables` have the values `16, 17, …` in the
order of first load, every load has the value of its name, and the table holds nothing else. -/
theorem assembled_symbols {source : String} {program : Program}
    (h : (assemble source).1 = .ok program) (hfew : (sourceVariables source).length < 65520) :
    Resolves source program (sourceVariables source) := by
  obtain ⟨rfl, hdup, hread⟩ := of_assemble h
  have hnumbered : ∀ index name, (sourceVariables source)[index]? = some name → ∃ value,
      (programOf (wellFormed (statements source))).symbols[name]? = some value ∧
        value.toNat = 16 + index := by
    intro index name hname
    obtain ⟨hindex, -⟩ := List.getElem?_eq_some_iff.1 hname
    have hlt : 16 + index < 2 ^ 16 := by omega
    exact ⟨_, getElem?_symbols_of_variable hname, UInt16.toNat_ofNat_of_lt' hlt⟩
  refine ⟨fun n name hsaid => ?_, fun name => mem_sourceVariables_iff,
    pairwise_sourceVariables source, hnumbered, fun name hname other hother heq => ?_,
    fun n name hsaid => ?_, fun name => mem_symbols_iff_of_duplicates hdup,
    fun name hname => (mem_symbols_programOf.1 hname).1, ?_⟩
  · obtain ⟨before, after, hsplit, hwords⟩ := exists_split_of_saysAt hread hsaid
    rw [hsplit] at hdup ⊢
    exact ⟨_, getElem?_symbols_programOf hdup, by rw [hwords, UInt16.toNat_ofNat']⟩
  · -- The numbers do not wrap, so one value has one index.
    obtain ⟨index, hindex⟩ := List.getElem?_of_mem hname
    obtain ⟨index', hindex'⟩ := List.getElem?_of_mem hother
    obtain ⟨value, hvalue, htoNat⟩ := hnumbered index name hindex
    obtain ⟨value', hvalue', htoNat'⟩ := hnumbered index' other hindex'
    rw [hvalue, hvalue', Option.some_inj] at heq
    have hsame : index = index' := by
      rw [heq] at htoNat
      omega
    rw [hsame, hindex'] at hindex
    exact (Option.some.inj hindex).symm
  · obtain ⟨before, after, hsplit, hwords⟩ := exists_split_of_saysAt hread hsaid
    obtain ⟨value, hvalue⟩ := exists_value_of_loaded
      (Naming.mem_loaded_iff.2 ⟨n, mem_wellFormed_statements_iff.2 hsaid⟩)
    refine ⟨value, ?_, hvalue⟩
    rw [← hwords, getElem?_ops_programOf hsplit, hvalue]
    rfl
  · rw [size_ops_programOf, wellFormed_statements, wordCount_readLines hread]

/-- Loads of a label that is defined further down, of two variables, of a predefined name and of a
number. -/
def countdown : String :=
  "@END\n0;JMP\n@i // first\nM=D\n@SP\n@j\n\n( END )\n@7\n@i\nD=M\n"

theorem assembled_symbols_countdown : ∃ program,
    (assemble countdown).1 = .ok program ∧ sourceVariables countdown = ["i", "j"] ∧
      program.symbols["END"]? = some 6 ∧ program.symbols["j"]? = some 17 ∧
      Resolves countdown program ["i", "j"] := by
  have hvariables : sourceVariables countdown = ["i", "j"] := by decide +kernel
  have hassembled : ∃ program, (assemble countdown).1 = .ok program ∧
      decide (program.symbols["END"]? = some 6 ∧ program.symbols["j"]? = some 17) = true := by
    refine exists_assembled ?_
    decide +kernel
  obtain ⟨program, hprogram, hvalues⟩ := hassembled
  rw [decide_eq_true_iff] at hvalues
  have hresolves := assembled_symbols hprogram (by rw [hvariables]; decide)
  rw [hvariables] at hresolves
  exact ⟨program, hprogram, hvariables, hvalues.1, hvalues.2, hresolves⟩

end HackVM.Rom
