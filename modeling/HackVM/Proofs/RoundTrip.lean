/-
  Writing code and assembling its text. Distinct labels are all bound
  (`duplicates_addAll_of_nodup`), and names that are neither predefined nor defined become variables
  in the order of first load (`Naming.Numbers`). So the ROM word of every instruction is `Inst.op?`
  under `nameValue`, which is read off the code (`assemble_render`).
-/
import Mathlib
import HackVM.Proofs.Linking
import HackVM.Proofs.Reading

namespace HackVM

/-! ## Labels that are defined once -/

namespace Rom

/-- The label that a statement defines. -/
def Statement.defined? : Statement → Option String
  | .label name => some name
  | .literal _ | .symbol _ | .compute _ _ _ => none

/-- The symbol that a statement loads. -/
def Statement.loaded? : Statement → Option String
  | .symbol name => some name
  | .literal _ | .label _ | .compute _ _ _ => none

theorem Statement.defined?_eq_some_iff {statement : Statement} {name : String} :
    statement.defined? = some name ↔ statement = .label name := by
  cases statement <;> simp [defined?]

theorem Statement.loaded?_eq_some_iff {statement : Statement} {name : String} :
    statement.loaded? = some name ↔ statement = .symbol name := by
  cases statement <;> simp [loaded?]

theorem Statement.defined?_eq_none {statement : Statement} (h : statement.isInstruction = true) :
    statement.defined? = none := by
  cases statement with
  | label name => cases h
  | _ => rfl

namespace LabelScan

/-- The labels of `numbered`, in order. -/
def defined (numbered : List (Nat × Statement)) : List String :=
  numbered.filterMap fun entry => entry.2.defined?

theorem defined_cons_label {line : Nat} {name : String} {rest : List (Nat × Statement)} :
    defined ((line, .label name) :: rest) = name :: defined rest := rfl

theorem defined_cons_of_isInstruction {entry : Nat × Statement} {rest : List (Nat × Statement)}
    (h : entry.2.isInstruction = true) : defined (entry :: rest) = defined rest :=
  List.filterMap_cons_none (Statement.defined?_eq_none h)

/-- Distinct labels, none predefined or in `scan`, give no duplicates. -/
theorem duplicates_addAll_of_nodup {scan : LabelScan} {numbered : List (Nat × Statement)}
    (hnodup : (defined numbered).Nodup)
    (hnew : ∀ name ∈ defined numbered, predefined? name = none ∧ scan.symbols[name]? = none) :
    (scan.addAll numbered).duplicates = scan.duplicates := by
  induction numbered generalizing scan with
  | nil => rfl
  | cons entry rest ih =>
    rw [addAll_cons]
    rcases scan.add_cases entry.1 entry.2 with ⟨hi, hadd⟩ | ⟨name, hlabel, hadd⟩
    · rw [defined_cons_of_isInstruction hi] at hnodup hnew
      rw [hadd]
      exact ih hnodup hnew
    · obtain ⟨line, statement⟩ := entry
      cases hlabel
      rw [defined_cons_label] at hnodup hnew
      obtain ⟨hfree, hsymbol⟩ := hnew name List.mem_cons_self
      have hadd : scan.add line (.label name) =
          { scan with symbols := scan.symbols.insert name scan.address } := by
        have hcontains : scan.symbols.contains name = false := by
          rw [Std.TreeMap.contains_eq_isSome_getElem?, hsymbol]
          rfl
        rw [add, hcontains, hfree]
        rfl
      rw [hadd]
      refine ih (List.nodup_cons.1 hnodup).2 fun other hother => ?_
      obtain ⟨hfree', hsymbol'⟩ := hnew other (List.mem_cons_of_mem _ hother)
      refine ⟨hfree', ?_⟩
      rw [Std.TreeMap.getElem?_insert, if_neg, hsymbol']
      intro heq
      rw [Std.LawfulEqCmp.eq_of_compare heq] at hnodup
      exact (List.nodup_cons.1 hnodup).1 hother

theorem addAll_concat (scan : LabelScan) (numbered : List (Nat × Statement)) (line : Nat)
    (statement : Statement) :
    scan.addAll (numbered ++ [(line, statement)]) = (scan.addAll numbered).add line statement := by
  rw [addAll_append]
  rfl

theorem add_of_known {scan : LabelScan} {name : String} (line : Nat)
    (h : (predefined? name).isSome = true ∨ name ∈ scan.symbols) :
    scan.add line (.label name) =
      { scan with duplicates := scan.duplicates.push ⟨line, .duplicateLabel name⟩ } :=
  if_pos (by rwa [Bool.or_eq_true, or_comm])

theorem add_of_new {scan : LabelScan} {name : String} (line : Nat)
    (h : ¬((predefined? name).isSome = true ∨ name ∈ scan.symbols)) :
    scan.add line (.label name) = { scan with symbols := scan.symbols.insert name scan.address } :=
  if_neg (by rwa [Bool.or_eq_true, or_comm])

theorem mem_defined_iff {numbered : List (Nat × Statement)} {name : String} :
    name ∈ defined numbered ↔ ∃ line, (line, .label name) ∈ numbered := by
  simp only [defined, List.mem_filterMap, Statement.defined?_eq_some_iff, Prod.exists,
    exists_eq_right]

theorem defined_concat (numbered : List (Nat × Statement)) (line : Nat) (statement : Statement) :
    defined (numbered ++ [(line, statement)]) = defined numbered ++ statement.defined?.toList := by
  rw [defined, List.filterMap_append]
  cases statement <;> rfl

/-- The labels bound by a scan are those defined and not predefined. -/
theorem mem_symbols_iff {numbered : List (Nat × Statement)} {name : String} :
    name ∈ (addAll {} numbered).symbols ↔ predefined? name = none ∧ name ∈ defined numbered := by
  induction numbered using List.reverseRecOn with
  | nil => exact iff_of_false Std.TreeMap.not_mem_emptyc fun h => absurd h.2 List.not_mem_nil
  | append_singleton numbered entry ih =>
    obtain ⟨line, statement⟩ := entry
    rw [addAll_concat, defined_concat, List.mem_append]
    cases statement with
    | label other =>
      change _ ↔ _ ∧ (_ ∨ name ∈ [other])
      rw [List.mem_singleton]
      by_cases hknown : (predefined? other).isSome = true ∨ other ∈ (addAll {} numbered).symbols
      · rw [add_of_known line hknown]
        refine ih.trans (and_congr_right fun hfree => (or_iff_left_of_imp ?_).symm)
        rintro rfl
        rw [hfree, ih] at hknown
        exact (hknown.resolve_left Bool.false_ne_true).2
      · rw [add_of_new line hknown, Std.TreeMap.mem_insert, ih, Std.LawfulEqCmp.compare_eq_iff_eq]
        rw [not_or, Bool.not_eq_true, Option.isSome_eq_false_iff, Option.isNone_iff_eq_none]
          at hknown
        constructor
        · rintro (rfl | ⟨hfree, hname⟩)
          · exact ⟨hknown.1, .inr rfl⟩
          · exact ⟨hfree, .inl hname⟩
        · rintro ⟨hfree, hname | rfl⟩
          · exact .inr ⟨hfree, hname⟩
          · exact .inl rfl
    | literal value | symbol other | compute dest comp jump =>
      rw [Statement.defined?, Option.toList_none, or_iff_left List.not_mem_nil]
      exact ih

/-- A label cannot be bound iff it is predefined or defined before. -/
theorem known_iff {numbered : List (Nat × Statement)} {name : String} :
    (predefined? name).isSome = true ∨ name ∈ (addAll {} numbered).symbols ↔
      (predefined? name).isSome = true ∨ name ∈ defined numbered := by
  rw [mem_symbols_iff]
  cases predefined? name with
  | none => exact or_congr_right (and_iff_right rfl)
  | some value => exact iff_of_true (.inl rfl) (.inl rfl)

end LabelScan

/-! ## Variables in the order of their first loads -/

/-- `name` is neither predefined nor one of `labels`. -/
def isVariable (labels : SymbolTable) (name : String) : Bool :=
  (predefined? name).isNone && labels[name]?.isNone

theorem isVariable_iff {labels : SymbolTable} {name : String} :
    isVariable labels name = true ↔ predefined? name = none ∧ labels[name]? = none := by
  rw [isVariable, Bool.and_eq_true, Option.isNone_iff_eq_none, Option.isNone_iff_eq_none]

/-- `isVariable` under the labels of a scan: neither predefined nor defined. -/
theorem isVariable_addAll (numbered : List (Nat × Statement)) (name : String) :
    isVariable (LabelScan.addAll {} numbered).symbols name =
      ((predefined? name).isNone && !(LabelScan.defined numbered).contains name) := by
  rw [Bool.eq_iff_iff, isVariable_iff, getElem?_eq_none_iff, LabelScan.mem_symbols_iff]
  cases predefined? name <;> simp

/-- The variables among `names`, in the order of first occurrence. -/
def variablesOf (labels : SymbolTable) (names : List String) : List String :=
  (names.filter (isVariable labels)).eraseDups

theorem mem_variablesOf_iff {labels : SymbolTable} {names : List String} {name : String} :
    name ∈ variablesOf labels names ↔ name ∈ names ∧ isVariable labels name = true := by
  rw [variablesOf, List.mem_eraseDups, List.mem_filter]

/-- A last name adds itself iff it is a variable that has not occurred. -/
theorem variablesOf_concat (labels : SymbolTable) (names : List String) (name : String) :
    variablesOf labels (names ++ [name]) =
      if isVariable labels name = true ∧ name ∉ variablesOf labels names then
        variablesOf labels names ++ [name]
      else variablesOf labels names := by
  have hmem : name ∈ names.filter (isVariable labels) ↔ name ∈ variablesOf labels names :=
    List.mem_eraseDups.symm
  simp only [← hmem]
  unfold variablesOf
  rw [List.filter_append, List.eraseDups_append]
  cases hvar : isVariable labels name with
  | false => simp [hvar, List.removeAll]
  | true =>
    rw [List.filter_singleton, hvar, List.removeAll, cond_true, List.filter_singleton]
    by_cases hold : name ∈ names.filter (isVariable labels)
    · rw [if_neg fun hboth => hboth.2 hold, List.elem_eq_true_of_mem hold]
      simp
    · rw [if_pos ⟨rfl, hold⟩, List.elem_eq_mem, decide_eq_false hold]
      rfl

theorem nodup_variablesOf (labels : SymbolTable) (names : List String) :
    (variablesOf labels names).Nodup := by
  induction names using List.reverseRecOn with
  | nil => exact List.nodup_nil
  | append_singleton names name ih =>
    rw [variablesOf_concat]
    split_ifs with hnew
    · exact List.nodup_append.2 ⟨ih, List.nodup_singleton _, fun other hother _ hlast => by
        rw [List.mem_singleton.1 hlast]
        rintro rfl
        exact hnew.2 hother⟩
    · exact ih

namespace Naming

/-- The table of `naming` is `labels` with `found` at the addresses `16, 17, …`. -/
structure Numbers (naming : Naming) (labels : SymbolTable) (found : List String) : Prop where
  next : naming.nextVariable = UInt16.ofNat (16 + found.length)
  label : ∀ name, name ∉ found → naming.symbols[name]? = labels[name]?
  value : ∀ name ∈ found,
    naming.symbols[name]? = some (UInt16.ofNat (16 + found.idxOf name))

theorem numbers_start (labels : SymbolTable) : Numbers { symbols := labels } labels [] :=
  ⟨rfl, fun _ _ => rfl, nofun⟩

/-- A name that is neither predefined nor bound gets the next address. -/
theorem Numbers.insert {naming : Naming} {labels : SymbolTable} {found : List String}
    (h : naming.Numbers labels found) {name : String} (hnew : name ∉ found) :
    Numbers ⟨naming.symbols.insert name naming.nextVariable, naming.nextVariable + 1⟩ labels
      (found ++ [name]) := by
  refine ⟨?_, fun other hother => ?_, fun other hother => ?_⟩
  · rw [h.next, List.length_append, List.length_singleton, ← Nat.add_assoc,
      UInt16.ofNat_add (16 + found.length)]
    rfl
  · rw [List.mem_append, List.mem_singleton, not_or] at hother
    rw [Std.TreeMap.getElem?_insert, if_neg, h.label other hother.1]
    intro heq
    exact hother.2 (Std.LawfulEqCmp.eq_of_compare heq).symm
  · rw [Std.TreeMap.getElem?_insert]
    split_ifs with heq
    · rw [← Std.LawfulEqCmp.eq_of_compare heq, List.idxOf_append_of_notMem hnew, h.next]
      simp
    · have hold : other ∈ found := by
        refine (List.mem_append.1 hother).resolve_right fun hlast => heq ?_
        rw [List.mem_singleton.1 hlast]
        exact Std.ReflCmp.compare_self
      rw [List.idxOf_append_of_mem hold, h.value other hold]

theorem Numbers.resolve {naming : Naming} {labels : SymbolTable} {names : List String}
    (h : naming.Numbers labels (variablesOf labels names)) (statement : Statement) :
    (naming.resolve statement).2.Numbers labels
      (variablesOf labels (names ++ statement.loaded?.toList)) := by
  cases statement with
  | label name | literal value | compute dest comp jump =>
    rw [Statement.loaded?, Option.toList_none, List.append_nil]
    exact h
  | symbol name =>
    rw [Statement.loaded?, Option.toList_some, variablesOf_concat]
    by_cases hold : name ∈ variablesOf labels names
    · rw [if_neg fun hboth => hboth.2 hold]
      have hvalue : ((predefined? name).or naming.symbols[name]?).isSome = true := by
        rw [h.value name hold]
        cases predefined? name <;> rfl
      obtain ⟨value, hvalue⟩ := Option.isSome_iff_exists.1 hvalue
      simp only [Naming.resolve, hvalue]
      exact h
    · by_cases hvar : isVariable labels name = true
      · rw [if_pos ⟨hvar, hold⟩]
        obtain ⟨hfree, hnone⟩ := isVariable_iff.1 hvar
        have hvalue : (predefined? name).or naming.symbols[name]? = none := by
          rw [hfree, h.label name hold, hnone]
          rfl
        simp only [Naming.resolve, hvalue]
        exact h.insert hold
      · rw [if_neg fun hboth => hvar hboth.1]
        have hvalue : ((predefined? name).or naming.symbols[name]?).isSome = true := by
          rw [h.label name hold, Option.isSome_or, ← Bool.not_eq_false, Bool.or_eq_false_iff]
          rintro ⟨hfree, hnone⟩
          rw [Option.isSome_eq_false_iff, Option.isNone_iff_eq_none] at hfree hnone
          exact hvar (isVariable_iff.2 ⟨hfree, hnone⟩)
        obtain ⟨value, hvalue⟩ := Option.isSome_iff_exists.1 hvalue
        simp only [Naming.resolve, hvalue]
        exact h

/-- The symbols that `numbered` loads, in order. -/
def loaded (numbered : List (Nat × Statement)) : List String :=
  numbered.filterMap fun entry => entry.2.loaded?

theorem mem_loaded_iff {numbered : List (Nat × Statement)} {name : String} :
    name ∈ loaded numbered ↔ ∃ line, (line, .symbol name) ∈ numbered := by
  simp only [loaded, List.mem_filterMap, Statement.loaded?_eq_some_iff, Prod.exists,
    exists_eq_right]

theorem loaded_concat (numbered : List (Nat × Statement)) (line : Nat) (statement : Statement) :
    loaded (numbered ++ [(line, statement)]) = loaded numbered ++ statement.loaded?.toList := by
  rw [loaded, List.filterMap_append]
  cases statement <;> rfl

theorem Numbers.resolveAll {naming : Naming} {labels : SymbolTable} {names : List String}
    (h : naming.Numbers labels (variablesOf labels names)) (numbered : List (Nat × Statement)) :
    (naming.resolveAll numbered).2.Numbers labels
      (variablesOf labels (names ++ loaded numbered)) := by
  induction numbered generalizing naming names with
  | nil =>
    rw [loaded, List.filterMap_nil, List.append_nil]
    exact h
  | cons entry rest ih =>
    have hnext := ih (h.resolve entry.2)
    have hnames : loaded (entry :: rest) = entry.2.loaded?.toList ++ loaded rest := by
      rw [loaded, List.filterMap_cons]
      cases entry.2.loaded? <;> rfl
    rw [List.append_assoc, ← hnames] at hnext
    rw [resolveAll_cons]
    exact hnext

/-- The second pass numbers `variablesOf` the loaded symbols. -/
theorem numbers_resolveAll (labels : SymbolTable) (numbered : List (Nat × Statement)) :
    Numbers (resolveAll { symbols := labels } numbered).2 labels
      (variablesOf labels (loaded numbered)) := by
  have hstart : Numbers { symbols := labels } labels (variablesOf labels []) := numbers_start labels
  exact hstart.resolveAll numbered

end Naming

/-- A symbol of an assembled program is a label or one of `variablesOf`, at `16` plus its index. -/
theorem symbol_of_assemble {source : String} {program : Program} {listed : List Statement}
    (hlisted : (statements source).map Prod.snd = listed.map .ok)
    (h : (assemble source).1 = .ok program) {name : String} {value : Word}
    (hvalue : program.symbols[name]? = some value) :
    .label name ∈ listed ∨ ∃ found : List String, found.Nodup ∧
      (∀ other ∈ found, .symbol other ∈ listed ∧ .label other ∉ listed ∧
        predefined? other = none) ∧
      name ∈ found ∧ value = UInt16.ofNat (16 + found.idxOf name) := by
  obtain ⟨numbered, hparsed, rfl⟩ := exists_numbered hlisted
  obtain ⟨-, rfl⟩ := assemble_numbered hparsed h
  have hnumbers := Naming.numbers_resolveAll (LabelScan.addAll {} numbered).symbols numbered
  by_cases hname :
      name ∈ variablesOf (LabelScan.addAll {} numbered).symbols (Naming.loaded numbered)
  · refine .inr ⟨_, nodup_variablesOf _ _, fun other hother => ?_, hname, ?_⟩
    · obtain ⟨hloaded, hvariable⟩ := mem_variablesOf_iff.1 hother
      obtain ⟨hfree, hnone⟩ := isVariable_iff.1 hvariable
      obtain ⟨line, hentry⟩ := Naming.mem_loaded_iff.1 hloaded
      refine ⟨List.mem_map_of_mem hentry, fun hlabel => ?_, hfree⟩
      obtain ⟨⟨line', statement⟩, hentry', hlabel⟩ := List.mem_map.1 hlabel
      cases hlabel
      refine (getElem?_eq_none_iff _ _).1 hnone (LabelScan.mem_symbols_iff.2 ⟨hfree, ?_⟩)
      exact LabelScan.mem_defined_iff.2 ⟨line', hentry'⟩
    · exact Option.some.inj (hvalue.symm.trans (hnumbers.value name hname))
  · rw [hnumbers.label name hname] at hvalue
    have hmem := Std.TreeMap.mem_iff_isSome_getElem?.2 (Option.isSome_of_eq_some hvalue)
    obtain ⟨line, hentry⟩ := LabelScan.mem_defined_iff.1 (LabelScan.mem_symbols_iff.1 hmem).2
    exact .inl (List.mem_map_of_mem hentry)

end Rom

/-! ## Names in code -/

open Assembly Rom

namespace Assembly

/-- The symbols that `code` loads and that are neither predefined nor defined in it, in the order of
first load. -/
def variableNames (code : List Inst) : List String :=
  ((code.filterMap Inst.loaded?).filter fun name =>
    (predefined? name).isNone && !(definitions code).contains name).eraseDups

/-- The value of `name` in `code`: predefined, or the number of instructions before its label, or
`16` plus its index in `variableNames`. -/
def nameValue (code : List Inst) (name : String) : Word :=
  match predefined? name with
  | some value => value
  | none =>
    if .label name ∈ code then UInt16.ofNat (instructionCount (code.takeWhile (· ≠ .label name)))
    else UInt16.ofNat (16 + (variableNames code).idxOf name)

theorem readName_eq_self {name : String} (h : Text.IsWord name.toList) : readName name = name := by
  rw [readName, h.squeeze, String.ofList_toList]

/-- `code` can be recovered from its text: constants are literals, names are words, loaded names are
not all digits, comments have no `'\n'`, labels are distinct and not predefined, and there are fewer
than 65520 variables. -/
structure Recoverable (code : List Inst) : Prop where
  constant : ∀ value, .load (.const value) ∈ code → value.toNat ≤ 32767
  defined : ∀ name, .label name ∈ code → Text.IsWord name.toList ∧ predefined? name = none
  loaded : ∀ name, .load (.symbol name) ∈ code →
    Text.IsWord name.toList ∧ name.toList.all Text.isDigit = false
  comment : ∀ text, .comment text ∈ code → '\n' ∉ text.toList
  nodup : (definitions code).Nodup
  few : (variableNames code).length < 65520

namespace Recoverable

variable {code : List Inst}

theorem legible (h : Recoverable code) : ∀ inst ∈ code, inst.Legible := by
  intro inst hinst
  cases inst with
  | load address =>
    cases address with
    | const value => exact h.constant value hinst
    | reg register => trivial
    | symbol name =>
      obtain ⟨hname, hdigits⟩ := h.loaded name hinst
      exact ⟨hname.inline, by rw [hname.squeeze]; exact hname.1,
        by rw [hname.squeeze]; exact hdigits⟩
  | label name =>
    have hname := (h.defined name hinst).1
    exact ⟨hname.inline, by rw [hname.squeeze]; exact hname.1⟩
  | comment text => exact h.comment text hinst
  | assign dest comp => trivial
  | branch comp jump => trivial

/-- The statements of the code define its `definitions`. -/
theorem defined_statements (h : Recoverable code) :
    (code.filterMap Inst.statement?).filterMap Statement.defined? =
      definitions code := by
  rw [definitions, List.filterMap_filterMap]
  refine List.filterMap_congr fun inst hinst => ?_
  cases inst with
  | load address => cases address <;> rfl
  | label name => exact congrArg some (readName_eq_self (h.defined name hinst).1)
  | _ => rfl

/-- Up to register names, the statements of the code load what the code loads. -/
theorem loaded_statements (h : Recoverable code) {p : String → Bool}
    (hp : ∀ register : Register, p register.name = false) :
    ((code.filterMap Inst.statement?).filterMap Statement.loaded?).filter p =
      (code.filterMap Inst.loaded?).filter p := by
  rw [List.filterMap_filterMap, List.filter_filterMap, List.filter_filterMap]
  refine List.filterMap_congr fun inst hinst => ?_
  cases inst with
  | load address =>
    cases address with
    | const value => rfl
    | reg register => exact Option.filter_some_neg (by simp [hp register])
    | symbol name =>
      exact congrArg (Option.filter p <| some ·) (readName_eq_self (h.loaded name hinst).1)
  | _ => rfl

theorem defined_numbered (h : Recoverable code) {numbered : List (Nat × Statement)}
    (hlisted : numbered.map Prod.snd = code.filterMap Inst.statement?) :
    LabelScan.defined numbered = definitions code := by
  rw [← h.defined_statements, ← hlisted, List.filterMap_map]
  rfl

theorem duplicates_eq (h : Recoverable code) {numbered : List (Nat × Statement)}
    (hlisted : numbered.map Prod.snd = code.filterMap Inst.statement?) :
    (LabelScan.addAll {} numbered).duplicates = #[] := by
  rw [LabelScan.duplicates_addAll_of_nodup]
  · rw [h.defined_numbered hlisted]
    exact h.nodup
  · intro name hname
    rw [h.defined_numbered hlisted, mem_definitions] at hname
    exact ⟨(h.defined name hname).2, Std.TreeMap.getElem?_emptyc⟩

theorem variablesOf_labels (h : Recoverable code) {numbered : List (Nat × Statement)}
    (hlisted : numbered.map Prod.snd = code.filterMap Inst.statement?) :
    variablesOf (LabelScan.addAll {} numbered).symbols (Naming.loaded numbered) =
      variableNames code := by
  have hloaded : Naming.loaded numbered =
      (code.filterMap Inst.statement?).filterMap Statement.loaded? := by
    rw [← hlisted, List.filterMap_map]
    rfl
  rw [variablesOf, funext (isVariable_addAll numbered), h.defined_numbered hlisted, hloaded,
    h.loaded_statements fun register => by rw [predefined?_register]; rfl]
  rfl

/-- The text of `Recoverable` code assembles, with `variableNames` at `16, 17, …`. -/
theorem assemble_eq (h : Recoverable code) :
    ∃ program, (assemble (render code)).1 = .ok program ∧
      ∀ name ∈ variableNames code,
        program.symbols[name]? = some (UInt16.ofNat (16 + (variableNames code).idxOf name)) := by
  obtain ⟨numbered, hparsed, hlisted⟩ := exists_numbered (statements_render h.legible)
  have hassemble := assemble_wellFormed hparsed
  rw [h.duplicates_eq hlisted] at hassemble
  refine ⟨_, hassemble, ?_⟩
  have hnumbers := Naming.numbers_resolveAll (LabelScan.addAll {} numbered).symbols numbered
  rw [h.variablesOf_labels hlisted] at hnumbers
  exact hnumbers.value

/-- `labelsOf` the assembled table is `nameValue code` on loaded names. -/
theorem labelsOf_eq (h : Recoverable code) {program : Program}
    (hprogram : (assemble (render code)).1 = .ok program)
    (hvariables : ∀ name ∈ variableNames code,
      program.symbols[name]? = some (UInt16.ofNat (16 + (variableNames code).idxOf name)))
    {name : String} (hname : .load (.symbol name) ∈ code) :
    labelsOf program.symbols name = nameValue code name := by
  rw [nameValue]
  cases hfree : predefined? name with
  | some value =>
    rw [labelsOf, readName_eq_self (h.loaded name hname).1, valueOf?, hfree]
    rfl
  | none =>
    dsimp only
    split_ifs with hlabel
    · obtain ⟨before, after, rfl, hbefore⟩ := List.eq_append_cons_of_mem hlabel
      have hbinds := (loaded_of_assemble h.legible hprogram).binds before name after rfl
      rw [hbinds, Nat.zero_add, List.takeWhile_append_of_pos, List.takeWhile_cons_of_neg,
        List.append_nil]
      · simp
      · intro inst hinst
        refine decide_eq_true fun heq => hbefore ?_
        rwa [heq] at hinst
    · have hvariable : name ∈ variableNames code := by
        rw [variableNames, List.mem_eraseDups, List.mem_filter, mem_loaded]
        refine ⟨hname, ?_⟩
        rw [hfree, List.contains_eq_mem, decide_eq_false (mem_definitions.not.2 hlabel)]
        rfl
      rw [labelsOf, readName_eq_self (h.loaded name hname).1, valueOf?, hfree, Option.none_or,
        hvariables name hvariable]
      rfl

end Recoverable

/-- `Inst.op?` is defined on instructions. -/
theorem filterMap_op?_filter (labels : String → Word) (code : List Inst) :
    (code.filter Inst.isInstruction).map (Inst.op? labels) =
      (code.filterMap (Inst.op? labels)).map some := by
  induction code with
  | nil => rfl
  | cons inst code ih =>
    rw [List.filter_cons, List.filterMap_cons]
    cases inst with
    | load address | assign dest comp | branch comp jump => exact congrArg (_ :: ·) ih
    | label name | comment text => exact ih

/-- **Writing and assembling.** The text of `Recoverable` code assembles to one ROM word per
instruction, in order, with every name at its `nameValue`. -/
theorem assemble_render {code : List Inst} (h : Recoverable code) :
    ∃ program, (assemble (render code)).1 = .ok program ∧
      program.ops.size = instructionCount code ∧
      (∀ (i : Nat) (inst : Inst), (code.filter Inst.isInstruction)[i]? = some inst →
        program.ops[i]? = inst.op? (nameValue code)) ∧
      ∀ name ∈ variableNames code, predefined? name = none ∧ .label name ∉ code ∧
        (nameValue code name).toNat = 16 + (variableNames code).idxOf name := by
  obtain ⟨program, hprogram, hvariables⟩ := h.assemble_eq
  have hops : program.ops.toList = code.filterMap (Inst.op? (nameValue code)) := by
    rw [(loaded_of_assemble h.legible hprogram).ops]
    refine List.filterMap_congr fun inst hinst => ?_
    cases inst with
    | load address =>
      cases address with
      | symbol name =>
        rw [Inst.op?, Inst.op?, Address.value, Address.value,
          h.labelsOf_eq hprogram hvariables hinst]
      | _ => rfl
    | _ => rfl
  refine ⟨program, hprogram, ?_, fun i inst hinst => ?_, fun name hname => ?_⟩
  · rw [← Array.length_toList, hops, length_ops]
  · have hmap := congrArg (·[i]?) (filterMap_op?_filter (nameValue code) code)
    simp only [List.getElem?_map, hinst, ← hops, Array.getElem?_toList, Option.map_some] at hmap
    cases hop : program.ops[i]? with
    | none => rw [hop] at hmap; cases hmap
    | some op => rw [hop] at hmap; exact (Option.some.inj hmap).symm
  · have hfree := hname
    rw [variableNames, List.mem_eraseDups, List.mem_filter, Bool.and_eq_true,
      Option.isNone_iff_eq_none, Bool.not_eq_true', List.contains_eq_mem,
      decide_eq_false_iff_not, mem_definitions] at hfree
    obtain ⟨-, hfree, hlabel⟩ := hfree
    refine ⟨hfree, hlabel, ?_⟩
    have hindex := List.idxOf_lt_length_of_mem hname
    have hfew := h.few
    rw [nameValue, hfree]
    dsimp only
    rw [if_neg hlabel, UInt16.toNat_ofNat_of_lt' (by simp [UInt16.size]; omega)]

/-- Code with a variable, a predefined name, a label before its definition, and names that hold the
characters of the grammar. -/
def countdown : List Inst :=
  [.comment "count down // to zero", .symbol "n(1)", .assign .m (.decSrc .m), .label "@a/b=;",
    .symbol "@a/b=;", .branch (.src .m) .jgt, .symbol "KBD", .const 32767, .symbol "END", .jump,
    .label "END"]

theorem assemble_render_countdown :
    Recoverable countdown ∧ ∃ program, (assemble (render countdown)).1 = .ok program ∧
      program.ops.size = 8 ∧ program.ops[0]? = some (.load 16) ∧
      program.ops[1]? = some (.compute (some .m) (.decSrc .m) none) ∧
      program.ops[2]? = some (.load 2) ∧ program.ops[4]? = some (.load 24576) ∧
      program.ops[6]? = some (.load 8) := by
  have hrecoverable : Recoverable countdown := by
    constructor
    · simp [countdown, Inst.symbol, Inst.const, Inst.jump]
    · intro name hname
      simp only [countdown, Inst.symbol, Inst.const, Inst.jump, List.mem_cons, Inst.label.injEq,
        List.not_mem_nil, reduceCtorEq, false_or, or_false] at hname
      rcases hname with rfl | rfl <;> decide +kernel
    · intro name hname
      simp only [countdown, Inst.symbol, Inst.const, Inst.jump, List.mem_cons, Inst.load.injEq,
        Address.symbol.injEq, List.not_mem_nil, reduceCtorEq, false_or, or_false] at hname
      rcases hname with rfl | rfl | rfl | rfl <;> decide +kernel
    · simp [countdown, Inst.symbol, Inst.const, Inst.jump]
    · decide +kernel
    · decide +kernel
  obtain ⟨program, hprogram, hsize, hops, -⟩ := assemble_render hrecoverable
  refine ⟨hrecoverable, program, hprogram, hsize, ?_, ?_, ?_, ?_, ?_⟩
  · exact (hops 0 _ rfl).trans (by decide +kernel)
  · exact hops 1 _ rfl
  · exact (hops 2 _ rfl).trans (by decide +kernel)
  · exact (hops 4 _ rfl).trans (by decide +kernel)
  · exact (hops 6 _ rfl).trans (by decide +kernel)

end Assembly

end HackVM
