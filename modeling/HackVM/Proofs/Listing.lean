/-
  Reading a listing back. A `Legible` line, whose names neither break it nor start a comment, is
  read as its `statement?` (`ofLine?_text`); so the text of legible code has the statements of the
  code (`statements_render`). For any names, `readings` distributes over `++` (`readings_append`).
-/
import Mathlib
import HackVM.Assembly.Instruction
import HackVM.Proofs.Cutting
import HackVM.Rom.Statement

namespace HackVM

/-! ## Results in sequence -/

theorem bind_eq_ok_iff {ε α β : Type} {result : Except ε α} {next : α → Except ε β} {b : β} :
    result.bind next = .ok b ↔ ∃ a, result = .ok a ∧ next a = .ok b := by
  cases result with
  | error problem => exact iff_of_false nofun nofun
  | ok a => simp [Except.bind]

theorem map_eq_ok_iff {ε α β : Type} {result : Except ε α} {f : α → β} {b : β} :
    result.map f = .ok b ↔ ∃ a, result = .ok a ∧ f a = b := by
  cases result with
  | error problem => exact iff_of_false nofun nofun
  | ok a => simp [Except.map]

open Assembly Rom

/-! ## Mnemonics -/

/-- The characters of mnemonics. None is blank, a slash or a separator. -/
def mnemonicChars : List Char :=
  ['A', 'D', 'M', '0', '1', '+', '-', '!', '&', '|', 'J', 'G', 'T', 'E', 'Q', 'L', 'N', 'P']

theorem mem_mnemonicChars_dest (dest : Dest) : ∀ c ∈ dest.text.toList, c ∈ mnemonicChars := by
  have : dest.text.toList.all (mnemonicChars.contains ·) = true := by cases dest <;> decide
  simpa using this

theorem Assembly.Comp.mem_all (comp : Comp) : comp ∈ Comp.all := by
  cases comp with
  | src source | notSrc source | negSrc source | incSrc source | decSrc source =>
    cases source <;> decide
  | add source | sub source | subFrom source | and source | or source => cases source <;> decide
  | _ => decide

theorem mem_mnemonicChars_comp (comp : Comp) : ∀ c ∈ comp.text.toList, c ∈ mnemonicChars := by
  have hall : ∀ comp ∈ Comp.all, comp.text.toList.all (mnemonicChars.contains ·) = true := by
    decide
  simpa using hall comp comp.mem_all

theorem mem_mnemonicChars_jump (jump : Jump) : ∀ c ∈ jump.text.toList, c ∈ mnemonicChars := by
  have : jump.text.toList.all (mnemonicChars.contains ·) = true := by cases jump <;> decide
  simpa using this

theorem parse_dest_text (dest : Dest) : Dest.parse dest.text = .ok dest := by
  cases dest <;> decide

theorem parse_comp_text (comp : Comp) : Comp.parse comp.text = .ok comp := by
  have hall : ∀ comp ∈ Comp.all, Comp.parse comp.text = .ok comp := by decide
  exact hall comp comp.mem_all

theorem parse_jump_text (jump : Jump) : Jump.parse jump.text = .ok jump := by
  cases jump <;> decide

theorem not_isBlank_of_mnemonic {c : Char} (h : c ∈ mnemonicChars) : Text.isBlank c = false := by
  have hrange : ∀ c ∈ mnemonicChars, 32 < c.toNat ∧ c.toNat < 127 := by simp [mnemonicChars]
  exact Text.isBlank_eq_false (hrange c h).1 (hrange c h).2

theorem not_mem_mnemonicChars {c : Char} (h : c ∈ ['/', '\n', '=', ';', '(', '@']) :
    c ∉ mnemonicChars := by
  simp only [List.mem_cons, List.not_mem_nil, or_false] at h
  rcases h with rfl | rfl | rfl | rfl | rfl | rfl <;> simp [mnemonicChars]

/-! ## Lines -/

/-- `name` as it is read from a line: without blanks. -/
def readName (name : String) : String := String.ofList (Text.squeeze name.toList)

namespace Assembly.Inst

/-- The statement that a line of code denotes, none for a comment. -/
def statement? : Inst → Option Statement
  | .load (.const value) => some (.literal value)
  | .load (.reg register) => some (.symbol register.name)
  | .load (.symbol name) => some (.symbol (readName name))
  | .assign dest comp => some (.compute (some dest) comp none)
  | .branch comp jump => some (.compute none comp (some jump))
  | .label name => some (.label (readName name))
  | .comment _ => none

/-- The line is read back: constants are literals, names have no `'\n'` and no `//`, loaded names
are not all digits. -/
def Legible : Inst → Prop
  | .load (.const value) => value.toNat ≤ maxLiteral
  | .load (.symbol name) => Text.Inline name.toList ∧
      Text.squeeze name.toList ≠ [] ∧ (Text.squeeze name.toList).all Text.isDigit = false
  | .label name => Text.Inline name.toList ∧ Text.squeeze name.toList ≠ []
  | .comment text => '\n' ∉ text.toList
  | .load (.reg _) | .assign _ _ | .branch _ _ => True

/-- The label that a line defines. -/
def defined? : Inst → Option String
  | .label name => some name
  | .load _ | .assign _ _ | .branch _ _ | .comment _ => none

/-- The symbol that a line loads. -/
def loaded? : Inst → Option String
  | .load (.symbol name) => some name
  | .load (.const _) | .load (.reg _) | .assign _ _ | .branch _ _ | .label _ | .comment _ => none

end Assembly.Inst

namespace Assembly

/-- The labels of `code`, in order. -/
def definitions (code : List Inst) : List String := code.filterMap Inst.defined?

theorem mem_definitions {code : List Inst} {name : String} :
    name ∈ definitions code ↔ .label name ∈ code := by
  rw [definitions, List.mem_filterMap]
  constructor
  · rintro ⟨inst, hinst, hname⟩
    cases inst with
    | label other =>
      cases hname
      exact hinst
    | _ => cases hname
  · exact fun hlabel => ⟨_, hlabel, rfl⟩

theorem definitions_append (code rest : List Inst) :
    definitions (code ++ rest) = definitions code ++ definitions rest := List.filterMap_append

theorem mem_loaded {code : List Inst} {name : String} :
    name ∈ code.filterMap Inst.loaded? ↔ .load (.symbol name) ∈ code := by
  rw [List.mem_filterMap]
  constructor
  · rintro ⟨inst, hinst, hname⟩
    cases inst with
    | load address =>
      cases address with
      | symbol other =>
        cases hname
        exact hinst
      | _ => cases hname
    | _ => cases hname
  · exact fun hload => ⟨_, hload, rfl⟩

end Assembly

/-- `ofLine?` of a line without `//` that is not blank. -/
theorem ofLine?_eq {line : List Char} (h : Text.uncommented line = line)
    (hne : Text.squeeze line ≠ []) :
    Statement.ofLine? line = some (Statement.ofChars (Text.squeeze line)) := by
  rw [Statement.ofLine?, h, List.isEmpty_eq_false_iff.2 hne]
  rfl

theorem ofLine?_operand {operand : List Char} (h : Text.uncommented operand = operand) :
    Statement.ofLine? ('@' :: operand) = some (Statement.ofOperand (Text.squeeze operand)) := by
  have hat : Text.squeeze ('@' :: operand) = '@' :: Text.squeeze operand := rfl
  rw [ofLine?_eq]
  · rw [hat]
    rfl
  · rw [Text.uncommented_cons (.inl (by decide)), h]
  · simp [hat]

theorem ofLine?_label {name : List Char} (h : Text.uncommented name = name) :
    Statement.ofLine? ('(' :: (name ++ [')'])) =
      some (Statement.ofLabel (Text.squeeze name ++ [')'])) := by
  have hsq : Text.squeeze ('(' :: (name ++ [')'])) = '(' :: (Text.squeeze name ++ [')']) := by
    rw [show '(' :: (name ++ [')']) = ['('] ++ (name ++ [')']) from rfl, Text.squeeze_append,
      Text.squeeze_append]
    rfl
  rw [ofLine?_eq]
  · rw [hsq]
    rfl
  · rw [Text.uncommented_cons (.inl (by decide)), Text.uncommented_append_cons h (by decide)]
    rfl
  · simp [hsq]

/-- A line over `mnemonicChars`, `=` and `;` is read by `ofCompute`. -/
theorem ofLine?_compute {line : List Char} (hline : ∀ c ∈ line, c ∈ mnemonicChars ∨ c ∈ ['=', ';'])
    {c : Char} (hhead : line.head? = some c) (hc : c ∈ mnemonicChars) :
    Statement.ofLine? line = some ((Statement.ofCompute line).mapError .mnemonic) := by
  have hslash : '/' ∉ line := fun h => by
    rcases hline _ h with h | h
    · exact not_mem_mnemonicChars (by decide) h
    · exact absurd h (by decide)
  have hblank : Text.squeeze line = line := Text.squeeze_eq_self fun c hc => by
    rcases hline c hc with h | h
    · exact not_isBlank_of_mnemonic h
    · simp only [List.mem_cons, List.not_mem_nil, or_false] at h
      rcases h with rfl | rfl <;> exact Text.isBlank_eq_false (by decide) (by decide)
  obtain ⟨rest, rfl⟩ := List.head?_eq_some_iff.1 hhead
  rw [ofLine?_eq (Text.uncommented_eq_self hslash) (by rw [hblank]; simp), hblank]
  unfold Statement.ofChars
  split
  · rename_i heq
    cases heq
    exact absurd hc (not_mem_mnemonicChars (by decide))
  · rename_i heq
    cases heq
    exact absurd hc (not_mem_mnemonicChars (by decide))
  · rfl

theorem ofLine?_assign (dest : Dest) (comp : Comp) :
    Statement.ofLine? (dest.text.toList ++ '=' :: comp.text.toList) =
      some (.ok (.compute (some dest) comp none)) := by
  have hdest := mem_mnemonicChars_dest dest
  have hcomp := mem_mnemonicChars_comp comp
  obtain ⟨c, hc⟩ : ∃ c, dest.text.toList.head? = some c := by cases dest <;> exact ⟨_, rfl⟩
  have hread : Statement.ofCompute (dest.text.toList ++ '=' :: comp.text.toList) =
      .ok (.compute (some dest) comp none) := by
    have heq : '=' ∉ dest.text.toList := fun h => not_mem_mnemonicChars (by decide) (hdest _ h)
    have hsemi : ';' ∉ comp.text.toList := fun h => not_mem_mnemonicChars (by decide) (hcomp _ h)
    simp [Statement.ofCompute, Text.splitAtFirst_append heq, Text.splitAtFirst_eq_none hsemi,
      parse_dest_text, parse_comp_text, pure, bind, Except.pure, Except.bind]
  rw [ofLine?_compute (c := c), hread]
  · rfl
  · intro x hx
    simp only [List.mem_append, List.mem_cons] at hx
    rcases hx with hx | rfl | hx
    · exact .inl (hdest x hx)
    · exact .inr (by decide)
    · exact .inl (hcomp x hx)
  · rw [List.head?_append, hc]
    rfl
  · exact hdest c (List.mem_of_head? hc)

theorem ofLine?_branch (comp : Comp) (jump : Jump) :
    Statement.ofLine? (comp.text.toList ++ ';' :: jump.text.toList) =
      some (.ok (.compute none comp (some jump))) := by
  have hcomp := mem_mnemonicChars_comp comp
  have hjump := mem_mnemonicChars_jump jump
  obtain ⟨c, hc⟩ : ∃ c, comp.text.toList.head? = some c := by
    have hall : ∀ comp ∈ Comp.all, comp.text.toList.head?.isSome = true := by decide
    exact Option.isSome_iff_exists.1 (hall comp comp.mem_all)
  have hread : Statement.ofCompute (comp.text.toList ++ ';' :: jump.text.toList) =
      .ok (.compute none comp (some jump)) := by
    have heq : '=' ∉ comp.text.toList ++ ';' :: jump.text.toList := by
      simp only [List.mem_append, List.mem_cons, not_or]
      exact ⟨fun h => not_mem_mnemonicChars (by decide) (hcomp _ h), by decide,
        fun h => not_mem_mnemonicChars (by decide) (hjump _ h)⟩
    have hsemi : ';' ∉ comp.text.toList := fun h => not_mem_mnemonicChars (by decide) (hcomp _ h)
    simp [Statement.ofCompute, Text.splitAtFirst_append hsemi, Text.splitAtFirst_eq_none heq,
      parse_jump_text, parse_comp_text, pure, bind, Except.pure, Except.bind]
  rw [ofLine?_compute (c := c), hread]
  · rfl
  · intro x hx
    simp only [List.mem_append, List.mem_cons] at hx
    rcases hx with hx | rfl | hx
    · exact .inl (hcomp x hx)
    · exact .inr (by decide)
    · exact .inl (hjump x hx)
  · rw [List.head?_append, hc]
    rfl
  · exact hcomp c (List.mem_of_head? hc)

theorem ofLine?_literal {value : Word} (h : value.toNat ≤ maxLiteral) :
    Statement.ofLine? ('@' :: (toString value.toNat).toList) = some (.ok (.literal value)) := by
  have hdigit : ∀ c ∈ (toString value.toNat).toList, Text.isDigit c = true :=
    fun c hc => Text.isDigit_of_mem_toString hc
  have hrange := fun c hc => Text.toNat_of_isDigit (hdigit c hc)
  have hne : (toString value.toNat).toList ≠ [] := by
    rw [Nat.toString_eq_ofList_toDigits, String.toList_ofList]
    exact Nat.toDigits_ne_nil
  rw [ofLine?_operand (Text.uncommented_eq_self fun hc => by
      have := hrange _ hc
      simp at this),
    Text.squeeze_eq_self fun c hc => Text.isBlank_eq_false (by have := hrange c hc; omega)
      (by have := hrange c hc; omega)]
  rw [Statement.ofOperand, List.isEmpty_eq_false_iff.2 hne, List.all_eq_true.2 hdigit,
    Text.readDigits_toString h]
  simp

theorem ofLine?_register (register : Register) :
    Statement.ofLine? ('@' :: register.name.toList) = some (.ok (.symbol register.name)) := by
  cases register <;> rfl

/-- A legible line is read as its `statement?`. -/
theorem ofLine?_text {inst : Inst} (h : inst.Legible) :
    Statement.ofLine? inst.text.toList = inst.statement?.map .ok := by
  cases inst with
  | load address =>
    rw [Inst.text, String.toList_append]
    cases address with
    | const value => exact ofLine?_literal h
    | reg register => exact ofLine?_register register
    | symbol name =>
      obtain ⟨⟨-, hname⟩, hne, hdigits⟩ := h
      refine (ofLine?_operand hname).trans ?_
      simp [Statement.ofOperand, hne, hdigits, Inst.statement?, readName]
  | assign dest comp =>
    rw [Inst.text, String.toList_append, String.toList_append]
    exact (congrArg _ (by simp)).trans (ofLine?_assign dest comp)
  | branch comp jump =>
    rw [Inst.text, String.toList_append, String.toList_append]
    exact (congrArg _ (by simp)).trans (ofLine?_branch comp jump)
  | label name =>
    rw [Inst.text, String.toList_append, String.toList_append]
    obtain ⟨⟨-, hname⟩, hne⟩ := h
    refine (ofLine?_label hname).trans ?_
    simp [Statement.ofLabel, hne, Inst.statement?, readName]
  | comment text =>
    rw [Inst.text, String.toList_append]
    rfl

/-- The text of a legible line has no `'\n'`. -/
theorem not_mem_text {inst : Inst} (h : inst.Legible) : '\n' ∉ inst.text.toList := by
  have hmnemonic : ∀ text : List Char, (∀ c ∈ text, c ∈ mnemonicChars) → '\n' ∉ text :=
    fun text htext hmem => not_mem_mnemonicChars (by decide) (htext _ hmem)
  cases inst with
  | load address =>
    rw [Inst.text, String.toList_append, List.mem_append, not_or]
    refine ⟨by simp, ?_⟩
    cases address with
    | const value =>
      intro hmem
      have := Text.toNat_of_isDigit (Text.isDigit_of_mem_toString hmem)
      simp at this
    | reg register => cases register <;> simp [Address.text, Register.name]
    | symbol name => exact h.1.1
  | assign dest comp =>
    simp [Inst.text, hmnemonic _ (mem_mnemonicChars_dest dest),
      hmnemonic _ (mem_mnemonicChars_comp comp)]
  | branch comp jump =>
    simp [Inst.text, hmnemonic _ (mem_mnemonicChars_comp comp),
      hmnemonic _ (mem_mnemonicChars_jump jump)]
  | label name => simpa [Inst.text] using h.1.1
  | comment text =>
    have htext : '\n' ∉ text.toList := h
    simpa [Inst.text] using htext

theorem toList_render (code : List Inst) :
    (render code).toList = code.flatMap fun inst => inst.text.toList ++ ['\n'] := by
  simp [render, String.toList_join, List.flatMap_map]

theorem lines_render {code : List Inst} (h : ∀ inst ∈ code, inst.Legible) :
    Text.lines (render code).toList = code.map fun inst => inst.text.toList := by
  rw [toList_render]
  induction code with
  | nil => rfl
  | cons inst code ih =>
    rw [List.flatMap_cons, List.append_assoc, List.singleton_append,
      Text.lines_append (not_mem_text (h inst (by simp))), ih fun i hi => h i (by simp [hi]),
      List.map_cons]

/-- The statements of the text of legible code are its `statement?`s, all well formed. -/
theorem statements_render {code : List Inst} (h : ∀ inst ∈ code, inst.Legible) :
    (statements (render code)).map Prod.snd =
      (code.filterMap Inst.statement?).map .ok := by
  rw [statements, lines_render h]
  -- The numbers of the lines do not matter, so the first may be any.
  generalize 1 = number
  induction code generalizing number with
  | nil => rfl
  | cons inst code ih =>
    have hrest := ih (fun i hi => h i (by simp [hi])) (number + 1)
    rw [List.map_cons, List.zipIdx_cons, List.filterMap_cons, ofLine?_text (h inst (by simp)),
      List.filterMap_cons]
    cases inst.statement? with
    | none => exact hrest
    | some statement => exact congrArg (Except.ok statement :: ·) hrest

/-! ## Code as it is read -/

namespace Rom

/-- The statements, or problems, that the lines of the text of `code` are read as. -/
def readings (code : List Inst) : List (Except Problem Statement) :=
  (statements (render code)).map Prod.snd

/-- The reading is a statement with a ROM word. -/
def isWord : Except Problem Statement → Bool
  | .ok statement => statement.isInstruction
  | .error _ => false

/-- The number of ROM words of `code` as it is read. -/
def romWords (code : List Inst) : Nat := (readings code).countP isWord

theorem readings_eq (code : List Inst) :
    readings code = (Text.lines (render code).toList).filterMap Statement.ofLine? := by
  rw [readings, statements]
  generalize 1 = number
  generalize Text.lines (render code).toList = lines
  induction lines generalizing number with
  | nil => rfl
  | cons line lines ih =>
    rw [List.zipIdx_cons, List.filterMap_cons, List.filterMap_cons, ← ih (number + 1)]
    cases Statement.ofLine? line <;> rfl

theorem lines_render_append (code rest : List Inst) :
    Text.lines (render (code ++ rest)).toList =
      Text.lines (render code).toList ++ Text.lines (render rest).toList := by
  rw [toList_render, toList_render, toList_render, List.flatMap_append]
  induction code with
  | nil => rfl
  | cons inst code ih =>
    have hcut : ∀ text : List Char, Text.lines (inst.text.toList ++ ['\n'] ++ text) =
        Text.lines (inst.text.toList ++ ['\n']) ++ Text.lines text := fun text => by
      rw [List.append_assoc]
      exact Text.pieces_append rfl _ _
    rw [List.flatMap_cons, List.append_assoc, hcut, hcut, ih, List.append_assoc]

/-- `readings` distributes over `++`, since every line ends in a line feed. -/
theorem readings_append (code rest : List Inst) :
    readings (code ++ rest) = readings code ++ readings rest := by
  rw [readings_eq, readings_eq, readings_eq, lines_render_append, List.filterMap_append]

theorem romWords_append (code rest : List Inst) :
    romWords (code ++ rest) = romWords code + romWords rest := by
  rw [romWords, readings_append, List.countP_append, ← romWords, ← romWords]

theorem readings_of_legible {inst : Inst} (h : inst.Legible) :
    readings [inst] = inst.statement?.toList.map .ok := by
  rw [readings, statements_render fun other hother => by rwa [List.mem_singleton.1 hother],
    List.filterMap_cons]
  cases inst.statement? <;> rfl

end Rom

end HackVM
