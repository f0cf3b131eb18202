/-
  The commands that `readModule` can give. Their names are words of the line and satisfy
  `Text.IsWord`, and their texts have no line feed (`printable_of_mem_readModule`).
-/
import Mathlib
import HackVM.Command.Source
import HackVM.Proofs.Cutting

namespace HackVM

/-! ## Commands -/

namespace Opcode

/-- The label and function names in an opcode. -/
def names : Opcode → List String
  | .label name | .goto name | .ifGoto name | .function name _ | .call name _ => [name]
  | .arithmetic _ | .push _ _ | .pop _ _ | .ret => []

/-- The names that an opcode jumps to. -/
def targets : Opcode → List String
  | .goto name | .ifGoto name | .call name _ => [name]
  | .arithmetic _ | .push _ _ | .pop _ _ | .label _ | .function _ _ | .ret => []

/-- The name that an opcode defines as a label. -/
def declared? : Opcode → Option String
  | .label name | .function name _ => some name
  | .arithmetic _ | .push _ _ | .pop _ _ | .goto _ | .ifGoto _ | .call _ _ | .ret => none

theorem exists_of_ofName {keyword : String} {make : String → Opcode} {opcode : Opcode}
    {args : List String} (h : ofName keyword make args = .ok opcode) :
    ∃ name ∈ args, opcode = make name := by
  unfold ofName at h
  split at h
  · cases h
    exact ⟨_, List.mem_singleton_self _, rfl⟩
  · cases h

theorem exists_of_ofNameAndNumber {keyword : String} {make : String → Word → Opcode}
    {opcode : Opcode} {args : List String} (h : ofNameAndNumber keyword make args = .ok opcode) :
    ∃ name ∈ args, ∃ value, opcode = make name value := by
  unfold ofNameAndNumber at h
  split at h
  · split at h
    · cases h
      exact ⟨_, List.mem_cons_self, _, rfl⟩
    · cases h
  · cases h

/-- The names of `ofWords words` are among `words`. -/
theorem names_ofWords {words : List String} {opcode : Opcode} (h : ofWords words = .ok opcode) :
    opcode.names ⊆ words := by
  cases words with
  | nil => cases h
  | cons keyword args =>
    refine List.Subset.trans ?_ (List.subset_cons_self keyword args)
    unfold ofWords at h
    simp only at h
    split at h
    case h_1 | h_2 =>
      obtain ⟨name, -, value, rfl⟩ := exists_of_ofNameAndNumber h
      exact List.nil_subset _
    case h_3 | h_4 | h_5 =>
      obtain ⟨name, hname, rfl⟩ := exists_of_ofName h
      exact List.cons_subset.2 ⟨hname, List.nil_subset _⟩
    case h_6 | h_7 =>
      obtain ⟨name, hname, value, rfl⟩ := exists_of_ofNameAndNumber h
      exact List.cons_subset.2 ⟨hname, List.nil_subset _⟩
    case h_8 =>
      unfold ofNoArgument at h
      split at h <;> cases h
      exact List.nil_subset _
    case h_9 =>
      split_ifs at h
      cases h
      exact List.nil_subset _

theorem not_move_of_declared {opcode : Opcode} {name : String} (h : opcode.declared? = some name) :
    opcode.isPush = false ∧ opcode.isPop = false := by
  cases opcode <;> cases h <;> exact ⟨rfl, rfl⟩

theorem mem_names_of_declared {opcode : Opcode} {name : String} (h : opcode.declared? = some name) :
    name ∈ opcode.names := by
  cases opcode <;> cases h <;> exact List.mem_singleton_self _

theorem not_move_of_mem_targets {opcode : Opcode} {name : String} (h : name ∈ opcode.targets) :
    opcode.isPush = false ∧ opcode.isPop = false := by
  cases opcode with
  | push segment index | pop segment index => cases h
  | _ => exact ⟨rfl, rfl⟩

theorem mem_names_of_mem_targets {opcode : Opcode} {name : String} (h : name ∈ opcode.targets) :
    name ∈ opcode.names := by
  cases opcode with
  | goto target | ifGoto target | call target args => exact h
  | _ => cases h

end Opcode

/-- The names of the command satisfy `Text.IsWord`, and its text holds no `'\n'`. -/
def Command.Printable (command : Command) : Prop :=
  (∀ name ∈ command.opcode.names, Text.IsWord name.toList) ∧ '\n' ∉ command.sourceText.toList

theorem exists_chars_of_mem_scan {source : String} {line : Line} (h : line ∈ Line.scan source) :
    ∃ chars : List Char, '\n' ∉ chars ∧ Line.ofChars? line.number chars = some line := by
  obtain ⟨⟨chars, place⟩, hmem, hchars⟩ := List.mem_filterMap.1 h
  have hpiece : chars ∈ Text.lines source.toList := List.fst_mem_of_mem_zipIdx hmem
  refine ⟨chars, fun hc => absurd (Text.of_mem_pieces hpiece _ hc).2 (by decide), ?_⟩
  simp only [Line.ofChars?] at hchars ⊢
  split_ifs at hchars ⊢
  cases hchars
  rfl

/-- A command of `readModule` is `ofWords` of the words of a line without `'\n'`, and its text is
that line uncommented and trimmed. -/
theorem exists_line_of_mem_readModule {moduleName source : String} {command : Command}
    (h : .ok command ∈ readModule moduleName source) :
    ∃ line : List Char, '\n' ∉ line ∧ Text.trim (Text.uncommented line) ≠ [] ∧
      command.sourceText.toList = Text.trim (Text.uncommented line) ∧
      Opcode.ofWords ((Text.words (Text.trim (Text.uncommented line))).map String.ofList) =
        .ok command.opcode := by
  obtain ⟨line, hline, hitem⟩ := List.mem_map.1 h
  obtain ⟨chars, hfeed, hchars⟩ := exists_chars_of_mem_scan hline
  simp only [Line.ofChars?] at hchars
  split_ifs at hchars with hempty
  rw [← Option.some.inj hchars] at hitem
  simp only [Line.item] at hitem
  split at hitem
  · rename_i opcode hwords
    cases hitem
    exact ⟨chars, hfeed, by simpa using hempty, String.toList_ofList, hwords⟩
  · cases hitem

theorem printable_of_mem_readModule {moduleName source : String} {command : Command}
    (h : .ok command ∈ readModule moduleName source) : command.Printable := by
  obtain ⟨line, hfeed, -, htext, hwords⟩ := exists_line_of_mem_readModule h
  constructor
  · intro name hname
    obtain ⟨word, hword, rfl⟩ := List.mem_map.1 (Opcode.names_ofWords hwords hname)
    rw [String.toList_ofList]
    exact Text.isWord_of_mem_words hword
  · rw [htext]
    intro hmem
    exact hfeed ((Text.uncommented_isPrefix line).subset ((Text.trim_isInfix _).subset hmem))

end HackVM
