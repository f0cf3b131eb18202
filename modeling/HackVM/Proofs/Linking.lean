/-
  Assembling legible code. Every label gets the address of the instruction behind it, every name one
  value wherever it is loaded, and the ROM has one word per instruction, in order (`Loaded`,
  `loaded_of_assemble`).
-/
import Mathlib
import HackVM.Proofs.Execution
import HackVM.Proofs.Listing
import HackVM.Rom.Assemble

namespace HackVM.Rom

open Assembly

/-! ## The scan for labels -/

/-- The number of ROM words of `numbered`. -/
def wordCount (numbered : List (Nat × Statement)) : Nat :=
  numbered.countP fun entry => entry.2.isInstruction

theorem wordCount_cons (entry : Nat × Statement) (rest : List (Nat × Statement)) :
    wordCount (entry :: rest) = wordCount rest + if entry.2.isInstruction then 1 else 0 :=
  List.countP_cons

namespace LabelScan

/-- `LabelScan.add` along `numbered`. -/
def addAll (scan : LabelScan) (numbered : List (Nat × Statement)) : LabelScan :=
  numbered.foldl (fun scan entry => scan.add entry.1 entry.2) scan

theorem addAll_cons (scan : LabelScan) (entry : Nat × Statement)
    (rest : List (Nat × Statement)) :
    scan.addAll (entry :: rest) = (scan.add entry.1 entry.2).addAll rest := rfl

theorem addAll_append (scan : LabelScan) (first rest : List (Nat × Statement)) :
    scan.addAll (first ++ rest) = (scan.addAll first).addAll rest := List.foldl_append

/-- Inversion of `LabelScan.add`: an instruction advances the address, a new label is bound to it,
and a known label is a duplicate. -/
theorem add_cases (scan : LabelScan) (line : Nat) (statement : Statement) :
    (statement.isInstruction = true ∧
      scan.add line statement = { scan with address := scan.address + 1 }) ∨
    ∃ name, statement = .label name ∧
      ((scan.add line statement =
          { scan with duplicates := scan.duplicates.push ⟨line, .duplicateLabel name⟩ }) ∨
        scan.symbols[name]? = none ∧ predefined? name = none ∧
          scan.add line statement =
            { scan with symbols := scan.symbols.insert name scan.address }) := by
  cases statement with
  | label name =>
    refine .inr ⟨name, rfl, ?_⟩
    by_cases h : (scan.symbols.contains name || (predefined? name).isSome) = true
    · exact .inl (if_pos h)
    · refine .inr ⟨?_, ?_, if_neg h⟩
      · refine Std.TreeMap.getElem?_eq_none fun hmem => h ?_
        rw [Std.TreeMap.mem_iff_contains.1 hmem, Bool.true_or]
      · simp_all
  | literal value => exact .inl ⟨rfl, rfl⟩
  | symbol name => exact .inl ⟨rfl, rfl⟩
  | compute dest comp jump => exact .inl ⟨rfl, rfl⟩

theorem address_addAll (scan : LabelScan) (numbered : List (Nat × Statement)) :
    (scan.addAll numbered).address = scan.address + UInt16.ofNat (wordCount numbered) := by
  induction numbered generalizing scan with
  | nil => simp [addAll, wordCount]
  | cons entry rest ih =>
    rw [addAll_cons, ih, wordCount_cons]
    rcases scan.add_cases entry.1 entry.2 with ⟨hi, h⟩ | ⟨name, hlabel, h⟩
    · rw [h, hi, if_pos rfl, UInt16.ofNat_add, add_comm (UInt16.ofNat _), ← add_assoc]
      rfl
    · have hi : entry.2.isInstruction = false := by rw [hlabel]; rfl
      rw [hi]
      rcases h with h | ⟨-, -, h⟩ <;> rw [h] <;> rfl

/-- `addAll` keeps the duplicates of `scan`. -/
theorem duplicates_addAll {scan : LabelScan} {numbered : List (Nat × Statement)}
    (h : (scan.addAll numbered).duplicates = #[]) : scan.duplicates = #[] := by
  induction numbered generalizing scan with
  | nil => exact h
  | cons entry rest ih =>
    rw [addAll_cons] at h
    have hnext := ih h
    rcases scan.add_cases entry.1 entry.2 with ⟨-, hadd⟩ | ⟨name, -, hadd | ⟨-, -, hadd⟩⟩
    · rwa [hadd] at hnext
    · rw [hadd] at hnext
      simp at hnext
    · rwa [hadd] at hnext

/-- The duplicates of a scan are `duplicateLabel` errors. -/
theorem problem_of_mem_duplicates {scan : LabelScan} {numbered : List (Nat × Statement)}
    {error : AssemblyError} (h : error ∈ (scan.addAll numbered).duplicates) :
    error ∈ scan.duplicates ∨ ∃ name, error.problem = .duplicateLabel name := by
  induction numbered generalizing scan with
  | nil => exact .inl h
  | cons entry rest ih =>
    rw [addAll_cons] at h
    rcases ih h with hmem | hproblem
    · rcases scan.add_cases entry.1 entry.2 with ⟨-, hadd⟩ | ⟨name, -, hadd | ⟨-, -, hadd⟩⟩
      · rw [hadd] at hmem
        exact .inl hmem
      · rw [hadd, Array.mem_push] at hmem
        exact hmem.imp_right fun heq => ⟨name, congrArg AssemblyError.problem heq⟩
      · rw [hadd] at hmem
        exact .inl hmem
    · exact .inr hproblem

/-- A bound label keeps its address. -/
theorem symbols_addAll {scan : LabelScan} {numbered : List (Nat × Statement)} {name : String}
    {address : Word} (h : scan.symbols[name]? = some address) :
    (scan.addAll numbered).symbols[name]? = some address := by
  induction numbered generalizing scan with
  | nil => exact h
  | cons entry rest ih =>
    rw [addAll_cons]
    refine ih ?_
    rcases scan.add_cases entry.1 entry.2 with ⟨-, hadd⟩ | ⟨other, -, hadd | ⟨hnew, -, hadd⟩⟩
    · rwa [hadd]
    · rwa [hadd]
    · rw [hadd, Std.TreeMap.getElem?_insert]
      split_ifs with heq
      · rw [Std.LawfulEqCmp.eq_of_compare heq] at hnew
        rw [hnew] at h
        cases h
      · exact h

/-- Without duplicates, a label has the address `wordCount before`. -/
theorem symbols_of_label {before after : List (Nat × Statement)} {line : Nat} {name : String}
    (h : (addAll {} (before ++ (line, .label name) :: after)).duplicates = #[]) :
    predefined? name = none ∧
      (addAll {} (before ++ (line, .label name) :: after)).symbols[name]? =
        some (UInt16.ofNat (wordCount before)) := by
  rw [addAll_append, addAll_cons] at h ⊢
  rcases (addAll {} before).add_cases line (.label name) with
    ⟨hi, -⟩ | ⟨other, hlabel, hadd | ⟨-, hfree, hadd⟩⟩
  · cases hi
  · have := duplicates_addAll h
    rw [hadd] at this
    simp at this
  · cases hlabel
    refine ⟨hfree, symbols_addAll ?_⟩
    rw [hadd, Std.TreeMap.getElem?_insert_self, address_addAll]
    simp

end LabelScan

/-! ## The values of names -/

/-- The value of `name`: predefined, or from `table`. -/
def valueOf? (table : SymbolTable) (name : String) : Option Word :=
  (predefined? name).or table[name]?

/-- The ROM word of a statement under `table`, none for a label. -/
def Statement.op? (table : SymbolTable) : Statement → Option Op
  | .label _ => none
  | .literal value => some (.load value)
  | .symbol name => some (.load ((valueOf? table name).getD 0))
  | .compute dest comp jump => some (.compute dest comp jump)

/-- `larger` has all bindings of `table`. -/
def Extends (table larger : SymbolTable) : Prop :=
  ∀ (name : String) (value : Word), table[name]? = some value → larger[name]? = some value

theorem valueOf?_of_extends {table larger : SymbolTable} {name : String} {value : Word}
    (h : Extends table larger) (hvalue : valueOf? table name = some value) :
    valueOf? larger name = some value := by
  rcases Option.or_eq_some_iff.1 hvalue with hpre | ⟨hpre, hsym⟩
  · simp [valueOf?, hpre]
  · simp [valueOf?, hpre, h name value hsym]

namespace Naming

/-- `Naming.resolve` only adds bindings, and its word is `Statement.op?` under every later table. -/
theorem resolve_spec (naming : Naming) (statement : Statement) :
    Extends naming.symbols (naming.resolve statement).2.symbols ∧
      ∀ table, Extends (naming.resolve statement).2.symbols table →
        (naming.resolve statement).1.1 = statement.op? table := by
  cases statement with
  | label name => exact ⟨fun _ _ h => h, fun _ _ => rfl⟩
  | literal value => exact ⟨fun _ _ h => h, fun _ _ => rfl⟩
  | compute dest comp jump => exact ⟨fun _ _ h => h, fun _ _ => rfl⟩
  | symbol name =>
    cases hvalue : (predefined? name).or naming.symbols[name]? with
    | some value =>
      simp only [resolve, hvalue]
      refine ⟨fun _ _ h => h, fun table htable => ?_⟩
      rw [Statement.op?, valueOf?_of_extends htable hvalue]
      rfl
    | none =>
      simp only [resolve, hvalue]
      obtain ⟨hpre, hnew⟩ := Option.or_eq_none_iff.1 hvalue
      constructor
      · intro other value h
        rw [Std.TreeMap.getElem?_insert]
        split_ifs with heq
        · rw [Std.LawfulEqCmp.eq_of_compare heq, h] at hnew
          cases hnew
        · exact h
      · intro table htable
        have := htable name naming.nextVariable Std.TreeMap.getElem?_insert_self
        simp [Statement.op?, valueOf?, hpre, this]

/-- `Naming.resolve` along `numbered`. -/
def resolveAll (naming : Naming) (numbered : List (Nat × Statement)) :
    List (Option Op × List Event) × Naming :=
  sweep (fun naming entry => resolve naming entry.2) naming numbered

theorem resolveAll_cons (naming : Naming) (entry : Nat × Statement)
    (rest : List (Nat × Statement)) :
    naming.resolveAll (entry :: rest) =
      ((naming.resolve entry.2).1 :: ((naming.resolve entry.2).2.resolveAll rest).1,
        ((naming.resolve entry.2).2.resolveAll rest).2) := sweep_cons ..

theorem extends_resolveAll (naming : Naming) (numbered : List (Nat × Statement)) :
    Extends naming.symbols (naming.resolveAll numbered).2.symbols := by
  induction numbered generalizing naming with
  | nil => exact fun _ _ h => h
  | cons entry rest ih =>
    rw [resolveAll_cons]
    exact fun name value h => ih _ name value ((naming.resolve_spec entry.2).1 name value h)

/-- The words of the second pass are `Statement.op?` under its final table. -/
theorem ops_resolveAll (naming : Naming) (numbered : List (Nat × Statement)) :
    (naming.resolveAll numbered).1.filterMap Prod.fst =
      numbered.filterMap fun entry => entry.2.op? (naming.resolveAll numbered).2.symbols := by
  induction numbered generalizing naming with
  | nil => rfl
  | cons entry rest ih =>
    rw [resolveAll_cons, List.filterMap_cons, List.filterMap_cons, ih,
      (naming.resolve_spec entry.2).2 _ (extends_resolveAll _ rest)]

end Naming

/-! ## Assembling -/

theorem exists_numbered {parsed : List (Nat × Except Problem Statement)}
    {listed : List Statement} (h : parsed.map Prod.snd = listed.map .ok) :
    ∃ numbered : List (Nat × Statement),
      parsed = numbered.map (fun entry => (entry.1, .ok entry.2)) ∧
        numbered.map Prod.snd = listed := by
  induction parsed generalizing listed with
  | nil =>
    cases listed with
    | nil => exact ⟨[], rfl, rfl⟩
    | cons statement listed => cases h
  | cons entry parsed ih =>
    cases listed with
    | nil => cases h
    | cons statement listed =>
      obtain ⟨hfirst, hrest⟩ := List.cons.inj h
      obtain ⟨numbered, rfl, rfl⟩ := ih hrest
      exact ⟨(entry.1, statement) :: numbered, by simp [← hfirst], rfl⟩

/-- `assemble` of a text whose lines are all well formed. -/
theorem assemble_wellFormed {source : String} {numbered : List (Nat × Statement)}
    (hparsed : statements source = numbered.map fun entry => (entry.1, .ok entry.2)) :
    let naming : Naming := { symbols := (LabelScan.addAll {} numbered).symbols }
    (assemble source).1 = match (LabelScan.addAll {} numbered).duplicates.toList with
      | [] => .ok ⟨((naming.resolveAll numbered).1.filterMap Prod.fst).toArray,
          (naming.resolveAll numbered).2.symbols⟩
      | errors => .error errors := by
  have hnone : numbered.filterMap (fun _ => (none : Option AssemblyError)) = [] := by simp
  simp only [assemble, hparsed, List.filterMap_map, Function.comp_def, Prod.mk.eta,
    List.filterMap_some, hnone, List.nil_append]
  rw [show scanLabels numbered = LabelScan.addAll {} numbered from rfl]
  cases (LabelScan.addAll {} numbered).duplicates.toList <;> rfl

theorem assemble_numbered {source : String} {numbered : List (Nat × Statement)}
    {program : Program}
    (hparsed : statements source = numbered.map fun entry => (entry.1, .ok entry.2))
    (h : (assemble source).1 = .ok program) :
    (LabelScan.addAll {} numbered).duplicates = #[] ∧
      let naming : Naming := { symbols := (LabelScan.addAll {} numbered).symbols }
      program = ⟨((naming.resolveAll numbered).1.filterMap Prod.fst).toArray,
        (naming.resolveAll numbered).2.symbols⟩ := by
  rw [assemble_wellFormed hparsed] at h
  split at h
  · rename_i hdup
    exact ⟨Array.toList_eq_nil_iff.1 hdup, (Except.ok.inj h).symm⟩
  · cases h

/-- The statements among `parsed`. -/
def wellFormed (parsed : List (Nat × Except Problem Statement)) : List (Nat × Statement) :=
  parsed.filterMap fun numbered =>
    match numbered.2 with
    | .ok statement => some (numbered.1, statement)
    | .error _ => none

/-- The problems among `parsed`, with their lines. -/
def malformed (parsed : List (Nat × Except Problem Statement)) : List AssemblyError :=
  parsed.filterMap fun numbered =>
    match numbered.2 with
    | .error problem => some ⟨numbered.1, problem⟩
    | .ok _ => none

/-- The problem of a reading. -/
def problem? : Except Problem Statement → Option Problem
  | .error problem => some problem
  | .ok _ => none

theorem map_snd_wellFormed (parsed : List (Nat × Except Problem Statement)) :
    (wellFormed parsed).map Prod.snd = (parsed.map Prod.snd).filterMap Except.toOption := by
  rw [wellFormed, List.map_filterMap, List.filterMap_map]
  congr 1
  funext ⟨line, reading⟩
  cases reading <;> rfl

theorem map_problem_malformed (parsed : List (Nat × Except Problem Statement)) :
    (malformed parsed).map AssemblyError.problem =
      (parsed.map Prod.snd).filterMap problem? := by
  rw [malformed, List.map_filterMap, List.filterMap_map]
  congr 1
  funext ⟨line, reading⟩
  cases reading <;> rfl

/-- The errors of `assemble`: malformed lines, then duplicate labels. -/
def errorsOf (parsed : List (Nat × Except Problem Statement)) : List AssemblyError :=
  malformed parsed ++ (LabelScan.addAll {} (wellFormed parsed)).duplicates.toList

/-- The program of `assemble` for `numbered`: the second pass from the labels of the first. -/
def programOf (numbered : List (Nat × Statement)) : Program :=
  let naming : Naming := { symbols := (LabelScan.addAll {} numbered).symbols }
  ⟨((naming.resolveAll numbered).1.filterMap Prod.fst).toArray,
    (naming.resolveAll numbered).2.symbols⟩

/-- Without errors `assemble` gives `programOf` the statements. -/
theorem assemble_of_no_errors {source : String} (h : errorsOf (statements source) = []) :
    (assemble source).1 = .ok (programOf (wellFormed (statements source))) := by
  change Prod.fst (match errorsOf (statements source) with
    | [] => _
    | errors => _) = _
  rw [h]
  rfl

/-- With errors `assemble` gives `errorsOf`. -/
theorem assemble_of_errors {source : String} (h : errorsOf (statements source) ≠ []) :
    (assemble source).1 = .error (errorsOf (statements source)) := by
  obtain ⟨error, errors, herrors⟩ := List.exists_cons_of_ne_nil h
  change Prod.fst (match errorsOf (statements source) with
    | [] => _
    | errors => _) = _
  rw [herrors]

/-- A program with property `p`, from a Boolean test of `assemble`. -/
theorem exists_assembled {source : String} {p : Program → Bool}
    (h : (assemble source).1.toOption.any p = true) :
    ∃ program, (assemble source).1 = .ok program ∧ p program = true := by
  cases hprogram : (assemble source).1 with
  | error problems =>
    rw [hprogram] at h
    cases h
  | ok program =>
    rw [hprogram] at h
    exact ⟨program, rfl, h⟩

/-- The ROM and the table of the program of a text with statements `listed`. -/
theorem assemble_eq_ok {source : String} {program : Program} {listed : List Statement}
    (hlisted : (statements source).map Prod.snd = listed.map .ok)
    (h : (assemble source).1 = .ok program) :
    program.ops.toList = listed.filterMap (Statement.op? program.symbols) ∧
      ∀ before name after, listed = before ++ .label name :: after →
        valueOf? program.symbols name =
          some (UInt16.ofNat (before.countP Statement.isInstruction)) := by
  obtain ⟨numbered, hparsed, rfl⟩ := exists_numbered hlisted
  obtain ⟨hdup, rfl⟩ := assemble_numbered hparsed h
  refine ⟨?_, fun before name after hsplit => ?_⟩
  · rw [Naming.ops_resolveAll, List.filterMap_map]
    rfl
  · obtain ⟨first, rest, rfl, rfl, hrest⟩ := List.map_eq_append_iff.1 hsplit
    obtain ⟨⟨line, statement⟩, last, rfl, hlabel, rfl⟩ := List.map_eq_cons_iff.1 hrest
    cases hlabel
    obtain ⟨hfree, hsymbol⟩ := LabelScan.symbols_of_label hdup
    rw [valueOf?, hfree, Option.none_or, Naming.extends_resolveAll _ _ _ _ hsymbol, List.countP_map]
    rfl

/-- All lines of a text that assembles are well formed. -/
theorem exists_listed {source : String} {program : Program}
    (h : (assemble source).1 = .ok program) :
    ∃ listed : List Statement, (statements source).map Prod.snd = listed.map .ok := by
  have hok : ∀ entry ∈ statements source, ∃ statement, entry.2 = .ok statement := by
    intro entry hentry
    unfold assemble at h
    simp only at h
    split at h
    · rename_i hnil
      have hnone := List.filterMap_eq_nil_iff.1 (List.append_eq_nil_iff.1 hnil).1 entry hentry
      cases hread : entry.2 with
      | ok statement => exact ⟨statement, rfl⟩
      | error problem => simp [hread] at hnone
    · cases h
  generalize statements source = parsed at hok
  induction parsed with
  | nil => exact ⟨[], rfl⟩
  | cons entry parsed ih =>
    obtain ⟨statement, hstatement⟩ := hok entry List.mem_cons_self
    obtain ⟨listed, hlisted⟩ := ih fun other hother => hok other (List.mem_cons_of_mem _ hother)
    exact ⟨statement :: listed, by rw [List.map_cons, List.map_cons, hstatement, hlisted]⟩

theorem length_filterMap_op? (table : SymbolTable) (listed : List Statement) :
    (listed.filterMap (Statement.op? table)).length = listed.countP Statement.isInstruction := by
  induction listed with
  | nil => rfl
  | cons statement listed ih =>
    rw [List.countP_cons, ← ih]
    cases statement <;> rfl

end HackVM.Rom

namespace HackVM

open Assembly Rom

/-- `rom` consists of the words of `code`, and every label has the address of the instruction behind
it. -/
structure Loaded (labels : String → Word) (code : List Inst) (rom : Array Op) : Prop where
  ops : rom.toList = code.filterMap (Inst.op? labels)
  binds : Binds labels 0 code

theorem predefined?_register (register : Register) :
    predefined? register.name = some register.address := by
  cases register <;> decide

/-- The values of names under a symbol table, as `HoldsAt` takes them. -/
def labelsOf (table : SymbolTable) (name : String) : Word :=
  (valueOf? table (readName name)).getD 0

theorem op?_statement? (table : SymbolTable) (inst : Inst) :
    inst.statement?.bind (Statement.op? table) = inst.op? (labelsOf table) := by
  cases inst with
  | load address =>
    cases address with
    | const value => rfl
    | reg register =>
      simp [Inst.statement?, Statement.op?, valueOf?, predefined?_register, Inst.op?, Address.value]
    | symbol name => rfl
  | assign dest comp => rfl
  | branch comp jump => rfl
  | label name => rfl
  | comment text => rfl

theorem countP_statement? (code : List Inst) :
    (code.filterMap Inst.statement?).countP Statement.isInstruction = instructionCount code := by
  induction code with
  | nil => rfl
  | cons inst code ih =>
    rw [instructionCount_cons, ← ih, List.filterMap_cons]
    cases inst with
    | load address => cases address <;> exact List.countP_cons_of_pos rfl
    | assign dest comp => exact List.countP_cons_of_pos rfl
    | branch comp jump => exact List.countP_cons_of_pos rfl
    | label name => exact List.countP_cons_of_neg Bool.false_ne_true
    | comment text => rfl

/-- Legible code that assembles is `Loaded`. -/
theorem loaded_of_assemble {code : List Inst} {program : Program}
    (hlegible : ∀ inst ∈ code, inst.Legible)
    (h : (assemble (render code)).1 = .ok program) :
    Loaded (labelsOf program.symbols) code program.ops := by
  obtain ⟨hops, hlabels⟩ := assemble_eq_ok (statements_render hlegible) h
  constructor
  · rw [hops, List.filterMap_filterMap]
    exact congrArg (code.filterMap ·) (funext (op?_statement? program.symbols))
  · rintro before name after rfl
    have hsplit := hlabels (before.filterMap Inst.statement?) (readName name)
      (after.filterMap Inst.statement?) (by simp [Inst.statement?])
    rw [labelsOf, hsplit, countP_statement?, Nat.zero_add]
    rfl

theorem romWords_of_legible {code : List Inst} (h : ∀ inst ∈ code, inst.Legible) :
    romWords code = instructionCount code := by
  rw [romWords, readings, statements_render h, List.countP_map, ← countP_statement?]
  rfl

/-- Legible code between other code stands at `romWords before` in the assembled ROM. -/
theorem holdsAt_of_assemble {before code after : List Inst} {program : Program}
    (hlegible : ∀ inst ∈ code, inst.Legible)
    (h : (assemble (render (before ++ code ++ after))).1 = .ok program) :
    HoldsAt (labelsOf program.symbols) program.ops (romWords before) code ∧
      Binds (labelsOf program.symbols) (romWords before) code := by
  obtain ⟨listed, hlisted⟩ := exists_listed h
  obtain ⟨hops, hlabels⟩ := assemble_eq_ok hlisted h
  have hcode : readings code = (code.filterMap Inst.statement?).map .ok :=
    statements_render hlegible
  rw [← readings, readings_append, readings_append, hcode] at hlisted
  obtain ⟨front, last, rfl, hfront, -⟩ := List.map_eq_append_iff.1 hlisted.symm
  obtain ⟨first, middle, rfl, hfirst, hmiddle⟩ := List.map_eq_append_iff.1 hfront
  cases List.map_injective_iff.2 (fun _ _ => Except.ok.inj) hmiddle
  have hwords : first.countP Statement.isInstruction = romWords before := by
    rw [romWords, ← hfirst, List.countP_map]
    rfl
  constructor
  · refine ⟨first.filterMap (Statement.op? program.symbols),
      last.filterMap (Statement.op? program.symbols), ?_, (length_filterMap_op? ..).trans hwords⟩
    rw [hops, List.filterMap_append, List.filterMap_append, List.filterMap_filterMap]
    exact congrArg (fun f => _ ++ code.filterMap f ++ _) (funext (op?_statement? program.symbols))
  · rintro above name below rfl
    have hvalue := hlabels (first ++ above.filterMap Inst.statement?) (readName name)
      (below.filterMap Inst.statement? ++ last) (by simp [Inst.statement?])
    rw [labelsOf, hvalue, List.countP_append, countP_statement?, hwords]
    rfl

/-- Part of `Loaded` code stands at `instructionCount before`. -/
theorem Loaded.holdsAt {labels : String → Word} {before code after : List Inst} {rom : Array Op}
    (h : Loaded labels (before ++ code ++ after) rom) :
    HoldsAt labels rom (instructionCount before) code ∧
      Binds labels (instructionCount before) code := by
  have hbinds := h.binds.left.right
  rw [Nat.zero_add] at hbinds
  refine ⟨⟨before.filterMap (Inst.op? labels), after.filterMap (Inst.op? labels), ?_,
    length_ops labels before⟩, hbinds⟩
  rw [h.ops, List.filterMap_append, List.filterMap_append]

end HackVM
