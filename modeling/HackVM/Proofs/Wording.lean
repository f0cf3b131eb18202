/-
  Printing and reading commands. A `Bare` line is read as it stands (`readModule_of_bare`). The
  canonical text of a `Spelled` opcode is `Bare` (`Spelled.bare_text`), and so is the text that is
  kept of a source line (`bare_trim`). Hence printing and reading are inverse on the commands that
  source text can give (`reading_inverts_text`).
-/
import Mathlib
import HackVM.Proofs.Reading
import HackVM.Proofs.SourceLines

namespace HackVM

/-! ## Lines that are their own text -/

namespace Text

/-- `text` is its own trimmed and uncommented line: not empty, without `'\n'` and `//`, with no
blank at either end. -/
structure Bare (text : List Char) : Prop where
  ne_nil : text ≠ []
  feed : '\n' ∉ text
  uncommented : uncommented text = text
  head : ∀ c ∈ text.head?, isBlank c = false
  last : ∀ c ∈ text.getLast?, isBlank c = false

theorem dropWhile_isBlank_eq_self {text : List Char} (h : ∀ c ∈ text.head?, isBlank c = false) :
    text.dropWhile isBlank = text := by
  cases text with
  | nil => rfl
  | cons c text => rw [List.dropWhile_cons, h c rfl, if_neg Bool.false_ne_true]

theorem isBlank_of_mem_head?_dropWhile {text : List Char} {c : Char}
    (h : c ∈ (text.dropWhile isBlank).head?) : isBlank c = false := by
  have := List.head?_dropWhile_not isBlank text
  rw [Option.mem_def.1 h] at this
  simpa using this

theorem Bare.trim {text : List Char} (h : Bare text) : Text.trim text = text := by
  rw [Text.trim, dropWhile_isBlank_eq_self h.head, dropWhile_isBlank_eq_self, List.reverse_reverse]
  rw [List.head?_reverse]
  exact h.last

/-- `trim (uncommented line)` is `Bare`, unless it is empty. -/
theorem bare_trim {line : List Char} (hfeed : '\n' ∉ line)
    (hne : Text.trim (Text.uncommented line) ≠ []) : Bare (Text.trim (Text.uncommented line)) where
  ne_nil := hne
  feed hmem := hfeed ((uncommented_isPrefix line).subset ((trim_isInfix _).subset hmem))
  uncommented := uncommented_eq_self_of_not_infix fun hslashes =>
    not_infix_uncommented line (hslashes.trans (trim_isInfix _))
  head c hc := by
    obtain ⟨rest, hrest⟩ := trim_isPrefix (Text.uncommented line)
    have hhead : c ∈ ((Text.uncommented line).dropWhile isBlank).head? := by
      rw [← hrest, List.head?_append_of_ne_nil _ hne]
      exact hc
    exact isBlank_of_mem_head?_dropWhile hhead
  last c hc := by
    rw [Text.trim, List.getLast?_reverse] at hc
    exact isBlank_of_mem_head?_dropWhile hc

theorem IsWord.bare {word : List Char} (h : IsWord word) : Bare word where
  ne_nil := h.1
  feed := h.inline.1
  uncommented := h.uncommented
  head c hc := h.2.1 c (List.mem_of_mem_head? hc)
  last c hc := h.2.1 c (List.mem_of_mem_getLast? hc)

/-- A word and a space in front of a `Bare` text. -/
theorem Bare.append {word rest : List Char} (h : Bare rest) (hword : IsWord word) :
    Bare (word ++ ' ' :: rest) where
  ne_nil := by simp
  feed hmem := by
    rcases List.mem_append.1 hmem with hmem | hmem
    · exact hword.inline.1 hmem
    · rcases List.mem_cons.1 hmem with heq | hmem
      · cases heq
      · exact h.feed hmem
  uncommented := by rw [uncommented_append_cons hword.uncommented (by decide), h.uncommented]
  head c hc := by
    rw [List.head?_append_of_ne_nil _ hword.1] at hc
    exact hword.bare.head c hc
  last c hc := by
    rw [List.getLast?_append_cons, List.getLast?_cons_of_ne_nil h.ne_nil] at hc
    exact h.last c hc

/-! ## Words with one space between them -/

/-- `words` with one space between neighbours. -/
def spaced : List (List Char) → List Char
  | [] => []
  | [word] => word
  | word :: next :: words => word ++ ' ' :: spaced (next :: words)

theorem bare_spaced {words : List (List Char)} (hne : words ≠ [])
    (h : ∀ word ∈ words, IsWord word) : Bare (spaced words) := by
  fun_induction spaced words with
  | case1 => exact absurd rfl hne
  | case2 word => exact (h word (by simp)).bare
  | case3 word next words ih =>
    exact (ih (by simp) fun other hother => h other (by simp [hother])).append (h word (by simp))

theorem words_of_not_isBlank {word : List Char} (hne : word ≠ [])
    (h : ∀ c ∈ word, isBlank c = false) : words word = [word] := by
  rw [words, pieces_of_not_stop h, if_neg hne]
  simp [hne]

/-- The first word ends at the first blank. -/
theorem words_append_cons {word rest : List Char} {c : Char} (hne : word ≠ [])
    (h : ∀ c ∈ word, isBlank c = false) (hc : isBlank c = true) :
    words (word ++ c :: rest) = word :: words rest := by
  rw [words, pieces_append_stop h hc]
  simp [words, hne]

theorem words_spaced {parts : List (List Char)} (h : ∀ word ∈ parts, IsWord word) :
    words (spaced parts) = parts := by
  fun_induction spaced parts with
  | case1 => rfl
  | case2 word => exact words_of_not_isBlank (h word (by simp)).1 (h word (by simp)).2.1
  | case3 word next parts ih =>
    have hword := h word (by simp)
    rw [words_append_cons hword.1 hword.2.1 (by decide),
      ih fun other hother => h other (by simp [hother])]

theorem isWord_toString (n : Nat) : IsWord (toString n).toList := by
  refine Text.isWord_of_visible ?_ Text.visible_toString
  rw [Nat.toString_eq_ofList_toDigits, String.toList_ofList]
  exact Nat.toDigits_ne_nil

/-- `readNat` inverts `toString` up to `greatest`. -/
theorem readNat_toString {greatest n : Nat} (h : n ≤ greatest) :
    readNat greatest (toString n).toList = .ok n := by
  have hplus : '+' ∉ (toString n).toList := fun hmem =>
    absurd (isDigit_of_mem_toString hmem) (by decide)
  unfold readNat
  split
  · rename_i hnil
    exact absurd hnil (isWord_toString n).1
  · rename_i heq
    exact absurd (heq ▸ List.mem_cons_self) hplus
  · rename_i heq
    exact absurd (heq ▸ List.mem_cons_self) hplus
  · exact readDigits_toString h

end Text

/-! ## Lines -/

theorem readModule_of_bare (moduleName : String) {text : String} (h : Text.Bare text.toList) :
    readModule moduleName text =
      [Line.item moduleName ⟨(Text.words text.toList).map String.ofList, text, 1⟩] := by
  have hline : Line.ofChars? (UInt32.ofNat 1) text.toList =
      some ⟨(Text.words text.toList).map String.ofList, text, 1⟩ := by
    rw [Line.ofChars?, h.uncommented, h.trim, String.ofList_toList]
    exact if_neg (by simpa using h.ne_nil)
  rw [readModule, ← Line.map_snd_placed, Line.placed, Line.placedFrom_of_not_mem h.feed,
    Line.placedAt, hline]
  rfl

/-- A command of `readModule` has a `Bare` text, whose words spell its opcode. -/
theorem of_mem_readModule {moduleName source : String} {command : Command}
    (h : .ok command ∈ readModule moduleName source) :
    Text.Bare command.sourceText.toList ∧
      (∀ word ∈ Text.words command.sourceText.toList, Text.IsWord word) ∧
      Opcode.ofWords ((Text.words command.sourceText.toList).map String.ofList) =
        .ok command.opcode := by
  obtain ⟨line, hfeed, hne, htext, hwords⟩ := exists_line_of_mem_readModule h
  rw [htext]
  exact ⟨Text.bare_trim hfeed hne, fun word => Text.isWord_of_mem_words, hwords⟩

/-! ## Commands -/

namespace Opcode

/-- The words that `Opcode.ofWords` matches on. -/
def keywords : List String :=
  ["push", "pop", "label", "goto", "if-goto", "function", "call", "return"]

/-- Names and segments are words, and an arithmetic word is none of `keywords`. -/
def Spelled : Opcode → Prop
  | .arithmetic word => Text.IsWord word.toList ∧ word ∉ keywords
  | .push segment _ | .pop segment _ => Text.IsWord segment.toList
  | .label name | .goto name | .ifGoto name | .function name _ | .call name _ =>
    Text.IsWord name.toList
  | .ret => True

/-- The words of `Opcode.text`. -/
def words : Opcode → List String
  | .arithmetic word => [word]
  | .push segment index => ["push", segment, toString index.toNat]
  | .pop segment index => ["pop", segment, toString index.toNat]
  | .label name => ["label", name]
  | .goto name => ["goto", name]
  | .ifGoto name => ["if-goto", name]
  | .function name locals => ["function", name, toString locals.toNat]
  | .call name args => ["call", name, toString args.toNat]
  | .ret => ["return"]

theorem toList_text (opcode : Opcode) :
    opcode.text.toList = Text.spaced (opcode.words.map String.toList) := by
  cases opcode <;> simp [text, words, Text.spaced]

theorem isWord_of_mem_keywords {keyword : String} (h : keyword ∈ keywords) :
    Text.IsWord keyword.toList := by
  simp only [keywords, List.mem_cons, List.not_mem_nil, or_false] at h
  rcases h with rfl | rfl | rfl | rfl | rfl | rfl | rfl | rfl <;>
    exact Text.isWord_of_visible (by simp) (by simp)

/-- The words of a `Spelled` opcode satisfy `Text.IsWord`. -/
theorem Spelled.isWord_of_mem_words {opcode : Opcode} (h : opcode.Spelled) {word : String}
    (hword : word ∈ opcode.words) : Text.IsWord word.toList := by
  have hkeyword : ∀ keyword ∈ keywords, Text.IsWord keyword.toList :=
    fun _ => isWord_of_mem_keywords
  cases opcode with
  | arithmetic found =>
    cases List.mem_singleton.1 hword
    exact h.1
  | ret =>
    cases List.mem_singleton.1 hword
    exact hkeyword _ (by decide)
  | label name | goto name | ifGoto name =>
    simp only [words, List.mem_cons, List.not_mem_nil, or_false] at hword
    rcases hword with rfl | rfl
    · exact hkeyword _ (by decide)
    · exact h
  | push name value | pop name value | function name value | call name value =>
    simp only [words, List.mem_cons, List.not_mem_nil, or_false] at hword
    rcases hword with rfl | rfl | rfl
    · exact hkeyword _ (by decide)
    · exact h
    · exact Text.isWord_toString _

theorem Spelled.bare_text {opcode : Opcode} (h : opcode.Spelled) :
    Text.Bare opcode.text.toList := by
  rw [toList_text]
  refine Text.bare_spaced (by cases opcode <;> simp [words]) fun word hword => ?_
  obtain ⟨found, hfound, rfl⟩ := List.mem_map.1 hword
  exact h.isWord_of_mem_words hfound

theorem Spelled.words_text {opcode : Opcode} (h : opcode.Spelled) :
    (Text.words opcode.text.toList).map String.ofList = opcode.words := by
  rw [toList_text, Text.words_spaced fun word hword => ?_, List.map_map]
  · exact List.map_id'' (fun word => String.ofList_toList) opcode.words
  · obtain ⟨found, hfound, rfl⟩ := List.mem_map.1 hword
    exact h.isWord_of_mem_words hfound

theorem ofNameAndNumber_toString (keyword : String) (make : String → Word → Opcode) (name : String)
    (value : Word) :
    ofNameAndNumber keyword make [name, toString value.toNat] = .ok (make name value) := by
  rw [ofNameAndNumber, Text.readNat_toString (Nat.le_of_lt_succ value.toNat_lt)]
  simp

/-- A word outside `keywords` is an arithmetic word, and must be alone. -/
theorem ofWords_of_not_mem_keywords {word : String} (h : word ∉ keywords) (args : List String) :
    ofWords (word :: args) =
      if args.isEmpty then .ok (.arithmetic word) else .error (.unknown word) := by
  unfold ofWords
  simp only
  split
  case h_9 => rfl
  all_goals exact absurd (by decide) h

theorem Spelled.ofWords_words {opcode : Opcode} (h : opcode.Spelled) :
    ofWords opcode.words = .ok opcode := by
  cases opcode with
  | arithmetic word => exact ofWords_of_not_mem_keywords h.2 []
  | push segment index => exact ofNameAndNumber_toString "push" push segment index
  | pop segment index => exact ofNameAndNumber_toString "pop" pop segment index
  | function name locals => exact ofNameAndNumber_toString "function" function name locals
  | call name args => exact ofNameAndNumber_toString "call" call name args
  | label name | goto name | ifGoto name | ret => rfl

/-- `ofWords` of words gives a `Spelled` opcode. -/
theorem spelled_of_ofWords {words : List String} {opcode : Opcode}
    (hwords : ∀ word ∈ words, Text.IsWord word.toList) (h : ofWords words = .ok opcode) :
    opcode.Spelled := by
  cases words with
  | nil => cases h
  | cons keyword args =>
    have hargs : ∀ word ∈ args, Text.IsWord word.toList := fun word hword =>
      hwords word (List.mem_cons_of_mem _ hword)
    by_cases hkeyword : keyword ∈ keywords
    · unfold ofWords at h
      simp only at h
      split at h
      case h_1 | h_2 | h_6 | h_7 =>
        obtain ⟨name, hname, value, rfl⟩ := exists_of_ofNameAndNumber h
        exact hargs name hname
      case h_3 | h_4 | h_5 =>
        obtain ⟨name, hname, rfl⟩ := exists_of_ofName h
        exact hargs name hname
      case h_8 =>
        unfold ofNoArgument at h
        split at h <;> cases h
        trivial
      case h_9 =>
        simp only [keywords, List.mem_cons, List.not_mem_nil, or_false] at hkeyword
        tauto
    · rw [ofWords_of_not_mem_keywords hkeyword] at h
      split_ifs at h
      cases h
      exact ⟨hwords keyword List.mem_cons_self, hkeyword⟩

end Opcode

/-- `readModule` inverts `Opcode.text` on `Spelled` opcodes. -/
theorem Opcode.Spelled.readModule_text {opcode : Opcode} (h : opcode.Spelled)
    (moduleName : String) :
    readModule moduleName opcode.text = [.ok ⟨opcode, opcode.text, ⟨moduleName, 1⟩⟩] := by
  rw [readModule_of_bare moduleName h.bare_text, h.words_text]
  unfold Line.item
  rw [h.ofWords_words]

/-- **Printing and reading.** `readModule` gives back every `Spelled` opcode from its canonical
text, as the only item and under every module name. Every command of `readModule` is `Spelled`, so
its canonical text and the text that is kept of its line are both read as the same opcode. -/
theorem reading_inverts_text (moduleName : String) :
    (∀ opcode : Opcode, opcode.Spelled →
      readModule moduleName opcode.text = [.ok ⟨opcode, opcode.text, ⟨moduleName, 1⟩⟩]) ∧
    ∀ (title source : String) (command : Command), .ok command ∈ readModule title source →
      command.opcode.Spelled ∧
      readModule moduleName command.opcode.text =
        [.ok ⟨command.opcode, command.opcode.text, ⟨moduleName, 1⟩⟩] ∧
      readModule moduleName command.sourceText =
        [.ok ⟨command.opcode, command.sourceText, ⟨moduleName, 1⟩⟩] := by
  refine ⟨fun opcode h => h.readModule_text moduleName, fun title source command hmem => ?_⟩
  obtain ⟨hbare, hnames, hwords⟩ := of_mem_readModule hmem
  have hspelled : command.opcode.Spelled := by
    refine Opcode.spelled_of_ofWords (fun word hword => ?_) hwords
    obtain ⟨found, hfound, rfl⟩ := List.mem_map.1 hword
    rw [String.toList_ofList]
    exact hnames found hfound
  refine ⟨hspelled, hspelled.readModule_text moduleName, ?_⟩
  rw [readModule_of_bare moduleName hbare]
  unfold Line.item
  rw [hwords]

/-- A line with a tab, a sign, leading zeros and a comment. -/
theorem reading_inverts_text_tabbed :
    let opcode : Opcode := .push "a/b" 7
    opcode.Spelled ∧
      readModule "N" "push a/b 7" = [.ok ⟨opcode, "push a/b 7", ⟨"N", 1⟩⟩] ∧
      .ok ⟨opcode, "push\ta/b +007", ⟨"M", 2⟩⟩ ∈ readModule "M" "\n push\ta/b +007 // seven" ∧
      readModule "N" "push\ta/b +007" = [.ok ⟨opcode, "push\ta/b +007", ⟨"N", 1⟩⟩] := by
  intro opcode
  have hmem : .ok ⟨opcode, "push\ta/b +007", ⟨"M", 2⟩⟩ ∈
      readModule "M" "\n push\ta/b +007 // seven" := by decide +kernel
  obtain ⟨hprint, hread⟩ := reading_inverts_text "N"
  obtain ⟨hspelled, -, hkept⟩ := hread "M" _ _ hmem
  exact ⟨hspelled, hprint opcode hspelled, hmem, hkept⟩

end HackVM
