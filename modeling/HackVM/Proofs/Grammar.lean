/-
  The grammar of assembly lines. `Spells` relates texts without comment and blanks to statements:
  `(name)`, `@digits`, `@name`, and `dest=comp;jump`. `ofLine?` gives the statement that the content
  spells, and a problem iff the content is not empty and spells none (`ofLine?_eq_ok_iff`,
  `ofLine?_eq_error_iff`).
-/
import Mathlib
import HackVM.Proofs.Destinations
import HackVM.Proofs.Listing

namespace HackVM

/-! ## Cutting and counting -/

namespace Text

/-- `splitAtFirst c` cuts at the first `c`: the left part holds no `c`. -/
theorem splitAtFirst_eq_some_iff {c : Char} {text left right : List Char} :
    splitAtFirst c text = some (left, right) ↔ text = left ++ c :: right ∧ c ∉ left := by
  constructor
  · intro h
    unfold splitAtFirst at h
    split at h
    · cases h
    · rename_i x rest hdrop
      cases h
      have hx : (x != c) = false := by
        have := List.head?_dropWhile_not (· != c) text
        rw [hdrop] at this
        exact this
      rw [bne_eq_false_iff_eq] at hx
      subst hx
      refine ⟨?_, fun hmem => ?_⟩
      · rw [← hdrop, List.takeWhile_append_dropWhile]
      · have hne : (x != x) = true := List.mem_takeWhile_imp (p := (· != x)) hmem
        exact bne_iff_ne.1 hne rfl
  · rintro ⟨rfl, hleft⟩
    exact splitAtFirst_append hleft

theorem splitAtFirst_eq_none_iff {c : Char} {text : List Char} :
    splitAtFirst c text = none ↔ c ∉ text := by
  refine ⟨fun h hmem => ?_, splitAtFirst_eq_none⟩
  obtain ⟨left, right, rfl, hleft⟩ := List.eq_append_cons_of_mem hmem
  rw [splitAtFirst_append hleft] at h
  cases h

/-- `readDigits` gives the number that the digits denote, if it is at most `greatest`. -/
theorem readDigits_eq_ok_iff {greatest value n : Nat} {digits : List Char}
    (hdigits : ∀ c ∈ digits, isDigit c = true) (hvalue : value ≤ greatest) :
    readDigits greatest value digits = .ok n ↔
      n = Nat.ofDigitChars 10 digits value ∧ n ≤ greatest := by
  constructor
  · intro h
    induction digits generalizing value with
    | nil =>
      cases h
      exact ⟨(Nat.ofDigitChars_nil).symm, hvalue⟩
    | cons c digits ih =>
      rw [readDigits, if_pos (hdigits c List.mem_cons_self)] at h
      dsimp only at h
      split_ifs at h with hnext
      rw [Nat.ofDigitChars_cons]
      exact ih (fun d hd => hdigits d (List.mem_cons_of_mem _ hd)) hnext h
  · rintro ⟨rfl, hle⟩
    exact readDigits_eq_ok hdigits hle

end Text

open Assembly Rom

/-! ## Mnemonics -/

namespace Assembly

/-- `Comp.parse` accepts the texts of `Comp.spellings`. -/
theorem Comp.parse_eq_ok_iff {text : List Char} {comp : Comp} (h : Text.squeeze text = text) :
    Comp.parse (String.ofList text) = .ok comp ↔ (String.ofList text, comp) ∈ Comp.spellings := by
  have hkeys : (Comp.spellings.map Prod.fst).Nodup := by decide +kernel
  have hlookup : Comp.spellings.lookup (String.ofList text) = some comp ↔
      (String.ofList text, comp) ∈ Comp.spellings := by
    rw [List.lookup_eq_some_iff]
    constructor
    · rintro ⟨before, after, hsplit, -⟩
      rw [hsplit]
      exact List.mem_append_right _ List.mem_cons_self
    · intro hmem
      obtain ⟨before, after, hsplit⟩ := List.append_of_mem hmem
      refine ⟨before, after, hsplit, fun entry hentry => bne_iff_ne.2 fun heq => ?_⟩
      rw [hsplit, List.map_append, List.map_cons, List.nodup_append] at hkeys
      exact hkeys.2.2 entry.1 (List.mem_map_of_mem hentry) _ List.mem_cons_self heq.symm
  rw [← hlookup, Comp.parse, String.toList_ofList, h]
  cases Comp.spellings.lookup (String.ofList text) with
  | none => simp
  | some found => simp

/-- `Jump.parse` accepts the mnemonics. -/
theorem Jump.parse_eq_ok_iff {text : List Char} {jump : Jump} :
    Jump.parse (String.ofList text) = .ok jump ↔ text = jump.text.toList := by
  constructor
  · intro h
    unfold Jump.parse at h
    split at h
    · rename_i found hfound
      cases h
      have htext := List.find?_some hfound
      rw [beq_iff_eq] at htext
      rw [htext, String.toList_ofList]
    · cases h
  · rintro rfl
    rw [String.ofList_toList]
    exact parse_jump_text jump

theorem mem_mnemonicChars_spelling {text : List Char} {comp : Comp}
    (h : (String.ofList text, comp) ∈ Comp.spellings) : ∀ c ∈ text, c ∈ mnemonicChars := by
  rcases List.mem_append.1 h with hcanonical | hswapped
  · obtain ⟨found, -, heq⟩ := List.mem_map.1 hcanonical
    have htext : found.text = String.ofList text := (Prod.mk.inj heq).1
    have hchars := mem_mnemonicChars_comp found
    rwa [htext, String.toList_ofList] at hchars
  · have hall : Comp.swapped.all (fun entry => entry.1.toList.all (mnemonicChars.contains ·)) =
        true := by decide
    have := List.all_eq_true.1 hall _ hswapped
    simpa using this

end Assembly

/-! ## The grammar -/

namespace Rom

/-- The text before a computation: empty, or the letters of a destination in any order and `=`. -/
inductive SpellsTarget : Option Dest → List Char → Prop
  | none : SpellsTarget none []
  | some {dest : Dest} {text : List Char} (h : text.Perm dest.text.toList) :
    SpellsTarget (some dest) (text ++ ['='])

/-- The text behind a computation: empty, or `;` and a jump mnemonic. -/
inductive SpellsCondition : Option Jump → List Char → Prop
  | none : SpellsCondition none []
  | some (jump : Jump) : SpellsCondition (some jump) (';' :: jump.text.toList)

/-- The grammar of statements, on texts without blanks. -/
inductive Spells : List Char → Statement → Prop
  | label {name : List Char} (hne : name ≠ []) :
    Spells ('(' :: (name ++ [')'])) (.label (String.ofList name))
  | literal {digits : List Char} (hne : digits ≠ []) (hdigits : ∀ c ∈ digits, Text.isDigit c = true)
    (hle : Nat.ofDigitChars 10 digits 0 ≤ 32767) :
    Spells ('@' :: digits) (.literal (UInt16.ofNat (Nat.ofDigitChars 10 digits 0)))
  | symbol {name : List Char} (hname : ∃ c ∈ name, Text.isDigit c = false) :
    Spells ('@' :: name) (.symbol (String.ofList name))
  | compute {dest : Option Dest} {comp : Comp} {jump : Option Jump}
    {target source condition : List Char} (htarget : SpellsTarget dest target)
    (hsource : (String.ofList source, comp) ∈ Comp.spellings)
    (hcondition : SpellsCondition jump condition) :
    Spells (target ++ source ++ condition) (.compute dest comp jump)

/-! ## Reading by the grammar -/

namespace Statement

theorem ofLabel_eq_ok_iff {rest : List Char} {statement : Statement} :
    ofLabel rest = .ok statement ↔
      ∃ name, name ≠ [] ∧ rest = name ++ [')'] ∧ statement = .label (String.ofList name) := by
  unfold ofLabel
  constructor
  · intro h
    split_ifs at h with hlast hlength
    cases h
    obtain ⟨name, rfl⟩ := List.getLast?_eq_some_iff.1 hlast
    rw [List.dropLast_concat]
    exact ⟨name, fun hnil => hlength (by rw [hnil]; rfl), rfl, rfl⟩
  · rintro ⟨name, hne, rfl, rfl⟩
    have hlength : (name ++ [')']).length ≠ 1 := by
      rw [List.length_append, List.length_singleton]
      exact fun h => hne (List.eq_nil_of_length_eq_zero (by omega))
    rw [if_pos (List.getLast?_concat ..), if_neg hlength, List.dropLast_concat]

theorem ofOperand_eq_ok_iff {operand : List Char} {statement : Statement} :
    ofOperand operand = .ok statement ↔
      (operand ≠ [] ∧ (∀ c ∈ operand, Text.isDigit c = true) ∧
        Nat.ofDigitChars 10 operand 0 ≤ maxLiteral ∧
        statement = .literal (UInt16.ofNat (Nat.ofDigitChars 10 operand 0))) ∨
      (∃ c ∈ operand, Text.isDigit c = false) ∧ statement = .symbol (String.ofList operand) := by
  unfold ofOperand
  constructor
  · intro h
    split_ifs at h with hempty hdigits
    · rw [List.all_eq_true] at hdigits
      have hne : operand ≠ [] := fun hnil => hempty (List.isEmpty_iff.2 hnil)
      split at h
      · rename_i value hvalue
        cases h
        obtain ⟨rfl, hle⟩ := (Text.readDigits_eq_ok_iff hdigits (Nat.zero_le _)).1 hvalue
        exact .inl ⟨hne, hdigits, hle, rfl⟩
      · cases h
    · cases h
      rw [List.all_eq_true] at hdigits
      push Not at hdigits
      obtain ⟨c, hc, hdigit⟩ := hdigits
      exact .inr ⟨⟨c, hc, Bool.eq_false_of_not_eq_true hdigit⟩, rfl⟩
  · rintro (⟨hne, hdigits, hle, rfl⟩ | ⟨⟨c, hc, hdigit⟩, rfl⟩)
    · rw [if_neg (by simpa using hne), if_pos (List.all_eq_true.2 hdigits),
        (Text.readDigits_eq_ok_iff hdigits (Nat.zero_le _)).2 ⟨rfl, hle⟩]
    · rw [if_neg (by simpa using List.ne_nil_of_mem hc), if_neg]
      intro hall
      exact Bool.false_ne_true (hdigit.symm.trans (List.all_eq_true.1 hall c hc))

/-- The destination of `text`, and the text behind it. -/
def readTarget (text : List Char) : Except MnemonicError (Option Dest × List Char) :=
  match Text.splitAtFirst '=' text with
  | some (dest, rest) => (Dest.parse (String.ofList dest)).map fun dest => (some dest, rest)
  | none => .ok (none, text)

/-- The computation text of `text`, and the jump behind it. -/
def readCondition (text : List Char) : Except MnemonicError (List Char × Option Jump) :=
  match Text.splitAtFirst ';' text with
  | some (comp, jump) => (Jump.parse (String.ofList jump)).map fun jump => (comp, some jump)
  | none => .ok (text, none)

/-- `ofCompute` is `readTarget`, then `readCondition`, then `Comp.parse`. -/
theorem ofCompute_eq (text : List Char) :
    ofCompute text = (readTarget text).bind fun target =>
      (readCondition target.2).bind fun parts =>
        (Comp.parse (String.ofList parts.1)).map fun comp =>
          .compute target.1 comp parts.2 := by
  simp only [ofCompute, readTarget, readCondition, bind, pure, Except.pure, Except.bind, Except.map]
  cases Text.splitAtFirst '=' text with
  | none =>
    dsimp only
    cases Text.splitAtFirst ';' text with
    | none => simp only
    | some parts =>
      dsimp only
      cases Jump.parse (String.ofList parts.2) <;> simp only
  | some first =>
    dsimp only
    cases Dest.parse (String.ofList first.1) with
    | error problem => simp only
    | ok dest =>
      dsimp only
      cases Text.splitAtFirst ';' first.2 with
      | none => simp only
      | some parts =>
        dsimp only
        cases Jump.parse (String.ofList parts.2) <;> simp only

theorem readTarget_eq_ok_iff {text rest : List Char} {dest : Option Dest} :
    readTarget text = .ok (dest, rest) ↔
      ∃ target, SpellsTarget dest target ∧ text = target ++ rest ∧ (dest = none → '=' ∉ text) := by
  unfold readTarget
  constructor
  · intro h
    cases hsplit : Text.splitAtFirst '=' text with
    | none =>
      rw [hsplit] at h
      cases h
      exact ⟨[], .none, rfl, fun _ => Text.splitAtFirst_eq_none_iff.1 hsplit⟩
    | some parts =>
      obtain ⟨left, right⟩ := parts
      obtain ⟨rfl, -⟩ := Text.splitAtFirst_eq_some_iff.1 hsplit
      rw [hsplit] at h
      obtain ⟨found, hparse, heq⟩ := map_eq_ok_iff.1 h
      cases heq
      rw [Dest.parse_eq_ok_iff, String.toList_ofList] at hparse
      exact ⟨left ++ ['='], .some hparse, by simp, nofun⟩
  · rintro ⟨target, htarget, rfl, hnone⟩
    cases htarget with
    | none => rw [Text.splitAtFirst_eq_none (hnone rfl), List.nil_append]
    | @some dest letters hperm =>
      have hequals : '=' ∉ letters := fun hmem =>
        not_mem_mnemonicChars (by decide) (mem_mnemonicChars_dest dest _ (hperm.mem_iff.1 hmem))
      have hparse : Dest.parse (String.ofList letters) = .ok dest := by
        rwa [Dest.parse_eq_ok_iff, String.toList_ofList]
      rw [List.append_assoc, List.singleton_append, Text.splitAtFirst_append hequals]
      exact map_eq_ok_iff.2 ⟨dest, hparse, rfl⟩

theorem readCondition_eq_ok_iff {text comp : List Char} {jump : Option Jump} :
    readCondition text = .ok (comp, jump) ↔
      ∃ condition, SpellsCondition jump condition ∧ text = comp ++ condition ∧ ';' ∉ comp := by
  unfold readCondition
  constructor
  · intro h
    cases hsplit : Text.splitAtFirst ';' text with
    | none =>
      rw [hsplit] at h
      cases h
      exact ⟨[], .none, by simp, Text.splitAtFirst_eq_none_iff.1 hsplit⟩
    | some parts =>
      obtain ⟨left, right⟩ := parts
      obtain ⟨rfl, hleft⟩ := Text.splitAtFirst_eq_some_iff.1 hsplit
      rw [hsplit] at h
      obtain ⟨found, hparse, heq⟩ := map_eq_ok_iff.1 h
      cases heq
      rw [Jump.parse_eq_ok_iff.1 hparse]
      exact ⟨_, .some found, rfl, hleft⟩
  · rintro ⟨condition, hcondition, rfl, hcomp⟩
    cases hcondition with
    | none => rw [List.append_nil, Text.splitAtFirst_eq_none hcomp]
    | some jump =>
      rw [Text.splitAtFirst_append hcomp]
      exact map_eq_ok_iff.2 ⟨jump, Jump.parse_eq_ok_iff.2 rfl, rfl⟩

theorem mem_mnemonicChars_of_spellsCondition {jump : Option Jump} {condition : List Char}
    (h : SpellsCondition jump condition) : ∀ c ∈ condition, c ∈ mnemonicChars ∨ c = ';' := by
  cases h with
  | none => nofun
  | some jump =>
    intro c hc
    rcases List.mem_cons.1 hc with rfl | hc
    · exact .inr rfl
    · exact .inl (mem_mnemonicChars_jump jump c hc)

/-- `ofCompute` accepts the texts that spell a computation. -/
theorem ofCompute_eq_ok_iff {text : List Char} {statement : Statement}
    (hblank : ∀ c ∈ text, Text.isBlank c = false) :
    ofCompute text = .ok statement ↔ ∃ dest comp jump target source condition,
      SpellsTarget dest target ∧ (String.ofList source, comp) ∈ Comp.spellings ∧
        SpellsCondition jump condition ∧ text = target ++ source ++ condition ∧
          statement = .compute dest comp jump := by
  simp only [ofCompute_eq, bind_eq_ok_iff, map_eq_ok_iff]
  constructor
  · rintro ⟨⟨dest, rest⟩, htarget, ⟨source, jump⟩, hcondition, comp, hsource, rfl⟩
    obtain ⟨target, hspells, rfl, -⟩ := readTarget_eq_ok_iff.1 htarget
    obtain ⟨condition, hspells', rfl, -⟩ := readCondition_eq_ok_iff.1 hcondition
    rw [Comp.parse_eq_ok_iff] at hsource
    · exact ⟨dest, comp, jump, target, source, condition, hspells, hsource, hspells',
        (List.append_assoc ..).symm, rfl⟩
    · exact Text.squeeze_eq_self fun c hc => hblank c (by simp [hc])
  · rintro ⟨dest, comp, jump, target, source, condition, htarget, hsource, hcondition, rfl, rfl⟩
    have hchars := mem_mnemonicChars_spelling hsource
    -- No mnemonic holds an equals sign or a semicolon, so the text is cut where its parts meet.
    have hread : readTarget (target ++ source ++ condition) = .ok (dest, source ++ condition) := by
      refine readTarget_eq_ok_iff.2 ⟨target, htarget, List.append_assoc .., ?_⟩
      rintro rfl
      cases htarget
      simp only [List.nil_append, List.mem_append, not_or]
      refine ⟨fun hmem => not_mem_mnemonicChars (by decide) (hchars _ hmem), fun hmem => ?_⟩
      exact (mem_mnemonicChars_of_spellsCondition hcondition _ hmem).elim
        (not_mem_mnemonicChars (by decide)) (by decide)
    have hread' : readCondition (source ++ condition) = .ok (source, jump) :=
      readCondition_eq_ok_iff.2 ⟨condition, hcondition, rfl,
        fun hmem => not_mem_mnemonicChars (by decide) (hchars _ hmem)⟩
    have hparse : Comp.parse (String.ofList source) = .ok comp :=
      (Comp.parse_eq_ok_iff (Text.squeeze_eq_self fun c hc =>
        not_isBlank_of_mnemonic (hchars c hc))).2 hsource
    exact ⟨_, hread, _, hread', comp, hparse, rfl⟩

/-- The text of a computation starts with one of `mnemonicChars`. -/
theorem exists_head_of_spellsTarget {dest : Option Dest} {comp : Comp}
    {target source : List Char} (htarget : SpellsTarget dest target)
    (hsource : (String.ofList source, comp) ∈ Comp.spellings) (rest : List Char) :
    ∃ c tail, target ++ source ++ rest = c :: tail ∧ c ∈ mnemonicChars := by
  cases htarget with
  | none =>
    cases source with
    | nil =>
      have hnone : Comp.spellings.all (fun entry => !entry.1.toList.isEmpty) = true := by decide
      exact absurd (List.all_eq_true.1 hnone _ hsource) (by simp)
    | cons c source =>
      exact ⟨c, source ++ rest, rfl, mem_mnemonicChars_spelling hsource c List.mem_cons_self⟩
  | @some dest letters hperm =>
    cases letters with
    | nil =>
      have hne : dest.text.toList ≠ [] := by cases dest <;> decide
      exact absurd hperm.nil_eq.symm hne
    | cons c letters =>
      refine ⟨c, letters ++ ['='] ++ source ++ rest, by simp, ?_⟩
      exact mem_mnemonicChars_dest dest c (hperm.mem_iff.1 List.mem_cons_self)

/-- `ofChars` accepts the texts of `Spells`. -/
theorem ofChars_eq_ok_iff {text : List Char} {statement : Statement}
    (hblank : ∀ c ∈ text, Text.isBlank c = false) :
    ofChars text = .ok statement ↔ Spells text statement := by
  constructor
  · intro h
    unfold ofChars at h
    split at h
    · obtain ⟨name, hne, rfl, rfl⟩ := ofLabel_eq_ok_iff.1 h
      exact .label hne
    · obtain ⟨hne, hdigits, hle, rfl⟩ | ⟨hname, rfl⟩ := ofOperand_eq_ok_iff.1 h
      · exact .literal hne hdigits hle
      · exact .symbol hname
    · cases hcompute : ofCompute text with
      | error problem =>
        rw [hcompute] at h
        cases h
      | ok found =>
        rw [hcompute] at h
        cases h
        obtain ⟨dest, comp, jump, target, source, condition, htarget, hsource, hcondition, rfl,
          rfl⟩ := (ofCompute_eq_ok_iff hblank).1 hcompute
        exact .compute htarget hsource hcondition
  · intro h
    cases h with
    | label hne => exact ofLabel_eq_ok_iff.2 ⟨_, hne, rfl, rfl⟩
    | literal hne hdigits hle => exact ofOperand_eq_ok_iff.2 (.inl ⟨hne, hdigits, hle, rfl⟩)
    | symbol hname => exact ofOperand_eq_ok_iff.2 (.inr ⟨hname, rfl⟩)
    | @compute dest comp jump target source condition htarget hsource hcondition =>
      have hcompute := (ofCompute_eq_ok_iff hblank).2
        ⟨dest, comp, jump, target, source, condition, htarget, hsource, hcondition, rfl, rfl⟩
      obtain ⟨c, tail, htext, hc⟩ := exists_head_of_spellsTarget htarget hsource condition
      unfold ofChars
      rw [htext] at hcompute ⊢
      split
      · rename_i heq
        cases heq
        exact absurd hc (not_mem_mnemonicChars (by decide))
      · rename_i heq
        cases heq
        exact absurd hc (not_mem_mnemonicChars (by decide))
      · rw [hcompute]
        rfl

end Statement

/-! ## Lines -/

/-- The line without its comment and without blanks. -/
def content (line : List Char) : List Char := Text.squeeze (Text.uncommented line)

/-- `content line` is not empty and spells no statement. -/
def Malformed (line : List Char) : Prop :=
  content line ≠ [] ∧ ∀ statement, ¬Spells (content line) statement

theorem not_isBlank_of_mem_content {line : List Char} :
    ∀ c ∈ content line, Text.isBlank c = false := by
  intro c hc
  simpa using (List.mem_filter.1 hc).2

theorem Spells.ne_nil {text : List Char} {statement : Statement} (h : Spells text statement) :
    text ≠ [] := by
  cases h with
  | compute htarget hsource hcondition =>
    obtain ⟨c, tail, htext, -⟩ := Statement.exists_head_of_spellsTarget htarget hsource _
    rw [htext]
    exact List.cons_ne_nil c tail
  | _ => exact List.cons_ne_nil _ _

theorem ofLine?_of_content {line : List Char} (h : content line ≠ []) :
    Statement.ofLine? line = some (Statement.ofChars (content line)) :=
  if_neg fun hempty => h (List.isEmpty_iff.1 hempty)

theorem ofLine?_eq_none_iff {line : List Char} :
    Statement.ofLine? line = none ↔ content line = [] := by
  constructor
  · intro h
    by_contra hne
    rw [ofLine?_of_content hne] at h
    cases h
  · exact fun h => if_pos (List.isEmpty_iff.2 h)

/-- `ofLine?` gives a statement iff `content line` spells it. -/
theorem ofLine?_eq_ok_iff {line : List Char} {statement : Statement} :
    Statement.ofLine? line = some (.ok statement) ↔ Spells (content line) statement := by
  rw [← Statement.ofChars_eq_ok_iff not_isBlank_of_mem_content]
  by_cases hne : content line = []
  · rw [ofLine?_eq_none_iff.2 hne, hne]
    exact iff_of_false nofun nofun
  · rw [ofLine?_of_content hne, Option.some_inj]

/-- `ofLine?` gives a problem iff the line is `Malformed`. -/
theorem ofLine?_eq_error_iff {line : List Char} :
    (∃ problem, Statement.ofLine? line = some (.error problem)) ↔ Malformed line := by
  constructor
  · rintro ⟨problem, hread⟩
    refine ⟨fun hnil => ?_, fun statement hspells => ?_⟩
    · rw [ofLine?_eq_none_iff.2 hnil] at hread
      cases hread
    · rw [ofLine?_eq_ok_iff.2 hspells] at hread
      cases hread
  · rintro ⟨hne, hnone⟩
    rw [ofLine?_of_content hne]
    cases hread : Statement.ofChars (content line) with
    | error problem => exact ⟨problem, rfl⟩
    | ok statement =>
      rw [Statement.ofChars_eq_ok_iff not_isBlank_of_mem_content] at hread
      exact absurd hread (hnone statement)

end Rom

end HackVM
