/-
  Scanning source text. `LineAt` says what a physical line is, `SignificantAt` that there is more
  than blanks before its first `//`. A scanned line `Shows` the code there: trimmed, and cut into
  words at the blanks inside (`Spread`). The significant places of a text and its scanned lines
  correspond one to one, each numbered by the line feeds before it (`exists_places`,
  `scan_faithful`).
-/
import Mathlib
import HackVM.Proofs.Wording

namespace HackVM

namespace Text

/-! ## Physical lines -/

/-- `line` is a physical line of `text` between `before` and `after`: it holds no `'\n'`, and a
`'\n'` or nothing stands on either side. -/
structure LineAt (text before line after : List Char) : Prop where
  split : text = before ++ line ++ after
  feed : '\n' ∉ line
  start : before = [] ∨ ∃ rest, before = rest ++ ['\n']
  stop : after = [] ∨ ∃ rest, after = '\n' :: rest

/-- A text without `'\n'` has one physical line, itself. -/
theorem lineAt_of_not_mem {text before line after : List Char} (h : '\n' ∉ text) :
    LineAt text before line after ↔ before = [] ∧ line = text ∧ after = [] := by
  constructor
  · rintro ⟨rfl, -, hstart, hstop⟩
    obtain rfl : before = [] := by
      rcases hstart with rfl | ⟨rest, rfl⟩
      · rfl
      · simp at h
    obtain rfl : after = [] := by
      rcases hstop with rfl | ⟨rest, rfl⟩
      · rfl
      · simp at h
    simp
  · rintro ⟨rfl, rfl, rfl⟩
    exact ⟨by simp, h, .inl rfl, .inl rfl⟩

/-- The physical lines of `first ++ '\n' :: rest` are `first` and those of `rest`. -/
theorem lineAt_append {first rest before line after : List Char} (h : '\n' ∉ first) :
    LineAt (first ++ '\n' :: rest) before line after ↔
      (before = [] ∧ line = first ∧ after = '\n' :: rest) ∨
        ∃ before', before = first ++ '\n' :: before' ∧ LineAt rest before' line after := by
  constructor
  · rintro ⟨hsplit, hfeed, hstart, hstop⟩
    rcases hstart with rfl | ⟨init, rfl⟩
    · rcases hstop with rfl | ⟨tail, rfl⟩
      · rw [List.nil_append, List.append_nil] at hsplit
        exact absurd (hsplit ▸ by simp) hfeed
      · -- Both sides are cut at their first line feed.
        have hcut : splitAtFirst '\n' (first ++ '\n' :: rest) = some (first, rest) :=
          splitAtFirst_append h
        rw [hsplit, List.nil_append, splitAtFirst_append hfeed] at hcut
        cases hcut
        exact .inl ⟨rfl, rfl, rfl⟩
    · rw [List.append_assoc, List.append_assoc, List.singleton_append,
        List.append_eq_append_iff] at hsplit
      rcases hsplit with ⟨between, rfl, heq⟩ | ⟨between, rfl, heq⟩
      · cases between with
        | nil =>
          cases heq
          exact .inr ⟨[], by simp, by simp, hfeed, .inl rfl, hstop⟩
        | cons c between =>
          cases heq
          exact .inr ⟨between ++ ['\n'], by simp, by simp, hfeed, .inr ⟨between, rfl⟩, hstop⟩
      · cases between with
        | nil =>
          cases heq
          exact .inr ⟨[], by simp, by simp, hfeed, .inl rfl, hstop⟩
        | cons c between =>
          obtain ⟨rfl, -⟩ := List.cons.inj heq
          simp at h
  · rintro (⟨rfl, rfl, rfl⟩ | ⟨before', rfl, hsplit, hfeed, hstart, hstop⟩)
    · exact ⟨rfl, h, .inl rfl, .inr ⟨rest, rfl⟩⟩
    · refine ⟨by simp [hsplit], hfeed, .inr ?_, hstop⟩
      rcases hstart with rfl | ⟨init, rfl⟩
      · exact ⟨first, by simp⟩
      · exact ⟨first ++ '\n' :: init, by simp⟩

/-! ## Comments -/

/-- `code` is the part of `line` before its first `//`, or all of it. -/
def BeforeComment (line code : List Char) : Prop :=
  (line = code ∧ ¬['/', '/'] <:+: line) ∨
    ∃ comment, line = code ++ '/' :: '/' :: comment ∧ ¬['/', '/'] <:+: code ++ ['/']

theorem beforeComment_uncommented (line : List Char) : BeforeComment line (uncommented line) := by
  fun_induction uncommented line with
  | case1 comment => exact .inr ⟨comment, rfl, by decide⟩
  | case2 c rest hne ih =>
    -- No comment starts at `c`: it would need a slash at the front of what follows.
    have hstart : ∀ text, text <+: rest → ¬['/', '/'] <+: c :: text := by
      intro text htext hslashes
      obtain ⟨rfl, hslash⟩ := List.cons_prefix_cons.1 hslashes
      obtain ⟨tail, rfl⟩ := hslash.trans htext
      exact hne tail rfl rfl
    rcases ih with ⟨hall, hnone⟩ | ⟨comment, hsplit, hnone⟩
    · refine .inl ⟨congrArg (c :: ·) hall, fun hwithin => ?_⟩
      rcases List.infix_cons_iff.1 hwithin with hprefix | hwithin
      · exact hstart rest List.prefix_rfl hprefix
      · exact hnone hwithin
    · refine .inr ⟨comment, by rw [List.cons_append, ← hsplit], fun hwithin => ?_⟩
      rw [List.cons_append] at hwithin
      rcases List.infix_cons_iff.1 hwithin with hprefix | hwithin
      · exact hstart _ ⟨'/' :: comment, by simp [← hsplit]⟩ hprefix
      · exact hnone hwithin
  | case3 => exact .inl ⟨rfl, by decide⟩

/-- `BeforeComment` determines `code`: it is `uncommented line`. -/
theorem BeforeComment.eq_uncommented {line code : List Char} (h : BeforeComment line code) :
    code = uncommented line := by
  rcases h with ⟨rfl, hnone⟩ | ⟨comment, rfl, hnone⟩
  · have hself := uncommented_eq_self_of_not_infix hnone
    exact hself.symm
  · induction code with
    | nil => rfl
    | cons c code ih =>
      rw [List.cons_append] at hnone ⊢
      have hstart : c ≠ '/' ∨ (code ++ '/' :: '/' :: comment).head? ≠ some '/' := by
        by_contra hboth
        push Not at hboth
        obtain ⟨rfl, hhead⟩ := hboth
        refine hnone (List.IsPrefix.isInfix ?_)
        cases code with
        | nil => exact List.prefix_rfl
        | cons d code =>
          cases hhead
          exact ⟨code ++ ['/'], rfl⟩
      rw [uncommented_cons hstart, ← ih fun hwithin => hnone (List.infix_cons hwithin)]

/-- `code` is `BeforeComment` of the physical line behind `before`, and is not blank. -/
def SignificantAt (text before code : List Char) : Prop :=
  (∃ line after, LineAt text before line after ∧ BeforeComment line code) ∧
    ∃ c ∈ code, isBlank c = false

theorem beforeComment_iff {line code : List Char} :
    BeforeComment line code ↔ code = uncommented line := by
  constructor
  · exact BeforeComment.eq_uncommented
  · rintro rfl
    exact beforeComment_uncommented line

theorem significantAt_of_not_mem {text before code : List Char} (h : '\n' ∉ text) :
    SignificantAt text before code ↔
      (before, code) = ([], uncommented text) ∧ ∃ c ∈ uncommented text, isBlank c = false := by
  simp only [SignificantAt, lineAt_of_not_mem h, beforeComment_iff, Prod.mk.injEq]
  constructor
  · rintro ⟨⟨line, after, ⟨rfl, rfl, rfl⟩, rfl⟩, hvisible⟩
    exact ⟨⟨rfl, rfl⟩, hvisible⟩
  · rintro ⟨⟨rfl, rfl⟩, hvisible⟩
    exact ⟨⟨text, [], ⟨rfl, rfl, rfl⟩, rfl⟩, hvisible⟩

theorem significantAt_append {first rest before code : List Char} (h : '\n' ∉ first) :
    SignificantAt (first ++ '\n' :: rest) before code ↔
      SignificantAt first before code ∨
        ∃ before', before = first ++ '\n' :: before' ∧ SignificantAt rest before' code := by
  simp only [SignificantAt, lineAt_append h, lineAt_of_not_mem h]
  constructor
  · rintro ⟨⟨line, after, ⟨rfl, rfl, rfl⟩ | ⟨before', rfl, hat⟩, hcode⟩, hvisible⟩
    · exact .inl ⟨⟨line, [], ⟨rfl, rfl, rfl⟩, hcode⟩, hvisible⟩
    · exact .inr ⟨before', rfl, ⟨line, after, hat, hcode⟩, hvisible⟩
  · rintro (⟨⟨line, after, ⟨rfl, rfl, rfl⟩, hcode⟩, hvisible⟩ |
      ⟨before', rfl, ⟨line, after, hat, hcode⟩, hvisible⟩)
    · exact ⟨⟨line, _, .inl ⟨rfl, rfl, rfl⟩, hcode⟩, hvisible⟩
    · exact ⟨⟨line, after, .inr ⟨before', rfl, hat⟩, hcode⟩, hvisible⟩

/-! ## Blanks around a text -/

/-- `trim` removes blanks only. -/
theorem exists_blanks_around (text : List Char) :
    ∃ lead trail, text = lead ++ trim text ++ trail ∧ (∀ c ∈ lead, isBlank c = true) ∧
      ∀ c ∈ trail, isBlank c = true := by
  have hlead : text = text.takeWhile isBlank ++ text.dropWhile isBlank :=
    (List.takeWhile_append_dropWhile).symm
  have htrail : text.dropWhile isBlank =
      trim text ++ ((text.dropWhile isBlank).reverse.takeWhile isBlank).reverse := by
    rw [trim, ← List.reverse_append, List.takeWhile_append_dropWhile, List.reverse_reverse]
  refine ⟨text.takeWhile isBlank, ((text.dropWhile isBlank).reverse.takeWhile isBlank).reverse, ?_,
    fun c hc => ?_, fun c hc => ?_⟩
  · rw [List.append_assoc, ← htrail]
    exact hlead
  · exact List.mem_takeWhile_imp hc
  · exact List.mem_takeWhile_imp (List.mem_reverse.1 hc)

theorem trim_eq_nil_iff {text : List Char} : trim text = [] ↔ ∀ c ∈ text, isBlank c = true := by
  constructor
  · intro h c hc
    obtain ⟨lead, trail, hsplit, hlead, htrail⟩ := exists_blanks_around text
    rw [h, List.append_nil] at hsplit
    rw [hsplit] at hc
    exact (List.mem_append.1 hc).elim (hlead c) (htrail c)
  · intro h
    rw [trim, List.dropWhile_eq_nil_iff.2 h]
    rfl

/-! ## Words -/

/-- `text` is made of `words` with blanks between them. The words are not empty and hold no blank;
between two of them stands at least one blank. -/
inductive Spread : List Char → List (List Char) → Prop
  | last {word : List Char} (hne : word ≠ []) (hword : ∀ c ∈ word, isBlank c = false) :
    Spread word [word]
  | next {word gap rest : List Char} {words : List (List Char)} (hne : word ≠ [])
    (hword : ∀ c ∈ word, isBlank c = false) (hgap : gap ≠ [])
    (hblank : ∀ c ∈ gap, isBlank c = true) (hrest : Spread rest words) :
    Spread (word ++ gap ++ rest) (word :: words)

namespace Spread

variable {text : List Char} {words : List (List Char)}

theorem words_ne_nil (h : Spread text words) : words ≠ [] := by
  cases h <;> exact List.cons_ne_nil _ _

theorem word (h : Spread text words) :
    ∀ word ∈ words, word ≠ [] ∧ ∀ c ∈ word, isBlank c = false := by
  induction h with
  | last hne hword =>
    intro other hother
    rw [List.mem_singleton.1 hother]
    exact ⟨hne, hword⟩
  | next hne hword _ _ _ ih =>
    intro other hother
    rcases List.mem_cons.1 hother with rfl | hother
    · exact ⟨hne, hword⟩
    · exact ih other hother

/-- The words of a `Spread` text concatenate to `squeeze text`. -/
theorem flatten (h : Spread text words) : words.flatten = squeeze text := by
  induction h with
  | last _ hword => rw [List.flatten_singleton, squeeze_eq_self hword]
  | @next word gap rest words _ hword _ hblank _ ih =>
    have hdrop : squeeze gap = [] := List.filter_eq_nil_iff.2 fun c hc => by simp [hblank c hc]
    rw [List.flatten_cons, ih, squeeze_append, squeeze_append, squeeze_eq_self hword, hdrop,
      List.append_nil]

end Spread

theorem words_cons_of_isBlank {c : Char} (hc : isBlank c = true) (text : List Char) :
    words (c :: text) = words text := by
  rw [words, pieces_cons, hc, if_pos rfl, List.filter_cons_of_neg (by simp), words]

theorem words_dropWhile (text : List Char) : words (text.dropWhile isBlank) = words text := by
  induction text with
  | nil => rfl
  | cons c text ih =>
    cases hc : isBlank c with
    | true => rw [List.dropWhile_cons_of_pos hc, ih, words_cons_of_isBlank hc]
    | false => rw [List.dropWhile_cons_of_neg (by simp [hc])]

/-- A text that starts with a non-blank splits into its first word and a rest that is empty or
starts with a blank. -/
theorem exists_first_word {text : List Char} (hne : text ≠ [])
    (hhead : ∀ c ∈ text.head?, isBlank c = false) :
    ∃ word rest, text = word ++ rest ∧ word ≠ [] ∧ (∀ c ∈ word, isBlank c = false) ∧
      ∀ c ∈ rest.head?, isBlank c = true := by
  refine ⟨text.takeWhile (!isBlank ·), text.dropWhile (!isBlank ·),
    List.takeWhile_append_dropWhile.symm, ?_, fun c hc => ?_, fun c hc => ?_⟩
  · cases text with
    | nil => exact absurd rfl hne
    | cons c text => simp [hhead c rfl]
  · simpa using List.mem_takeWhile_imp hc
  · have hstop := List.head?_dropWhile_not (!isBlank ·) text
    rw [Option.mem_def.1 hc] at hstop
    simpa using hstop

/-- `words text` is a `Spread` of a text that starts with a non-blank, up to trailing blanks. -/
theorem exists_spread {text : List Char} (hne : text ≠ [])
    (hhead : ∀ c ∈ text.head?, isBlank c = false) :
    ∃ body trail, text = body ++ trail ∧ (∀ c ∈ trail, isBlank c = true) ∧
      Spread body (words text) := by
  induction hlength : text.length using Nat.strong_induction_on generalizing text with
  | _ length ih =>
    obtain ⟨word, rest, rfl, hword, hsolid, hrest⟩ := exists_first_word hne hhead
    cases rest with
    | nil =>
      refine ⟨word, [], rfl, nofun, ?_⟩
      rw [List.append_nil, words_of_not_isBlank hword hsolid]
      exact .last hword hsolid
    | cons c rest =>
      have hc := hrest c rfl
      rw [words_append_cons hword hsolid hc, ← words_dropWhile]
      by_cases hnil : rest.dropWhile isBlank = []
      · refine ⟨word, c :: rest, rfl, fun d hd => ?_, ?_⟩
        · rcases List.mem_cons.1 hd with rfl | hd
          · exact hc
          · exact List.dropWhile_eq_nil_iff.1 hnil d hd
        · rw [hnil]
          exact .last hword hsolid
      · have hshort : (rest.dropWhile isBlank).length < length := by
          have := (List.dropWhile_sublist isBlank (l := rest)).length_le
          rw [List.length_append, List.length_cons] at hlength
          omega
        obtain ⟨body, trail, hsplit, htrail, hspread⟩ :=
          ih _ hshort hnil (fun d => isBlank_of_mem_head?_dropWhile) rfl
        refine ⟨word ++ c :: rest.takeWhile isBlank ++ body, trail, ?_, htrail,
          .next hword hsolid (List.cons_ne_nil _ _) (fun d hd => ?_) hspread⟩
        · rw [List.append_assoc, ← hsplit, List.append_assoc, List.cons_append,
            List.takeWhile_append_dropWhile]
        · rcases List.mem_cons.1 hd with rfl | hd
          · exact hc
          · exact List.mem_takeWhile_imp hd

/-- A `Bare` text is a `Spread` of its `words`. -/
theorem Bare.spread_words {text : List Char} (h : Bare text) : Spread text (words text) := by
  obtain ⟨body, trail, hsplit, htrail, hspread⟩ := exists_spread h.ne_nil h.head
  rcases List.eq_nil_or_concat trail with rfl | ⟨init, c, rfl⟩
  · rw [List.append_nil] at hsplit
    rwa [← hsplit] at hspread
  · -- The last character would be a blank.
    have hlast := h.last c (by rw [hsplit]; simp)
    rw [htrail c (by simp)] at hlast
    cases hlast

end Text

/-! ## Lines -/

namespace Line

/-- `line.text` is `code` without the blanks around it, and `line.words` is a `Spread` of it. -/
structure Shows (line : Line) (code : List Char) : Prop where
  text : ∃ lead trail, code = lead ++ line.text.toList ++ trail ∧
    (∀ c ∈ lead, Text.isBlank c = true) ∧ ∀ c ∈ trail, Text.isBlank c = true
  head : ∀ c ∈ line.text.toList.head?, Text.isBlank c = false
  last : ∀ c ∈ line.text.toList.getLast?, Text.isBlank c = false
  comment : ¬['/', '/'] <:+: line.text.toList
  spread : Text.Spread line.text.toList (line.words.map String.toList)
  words_ne_nil : line.words ≠ []
  word : ∀ word ∈ line.words, word ≠ "" ∧ ∀ c ∈ word.toList, Text.isBlank c = false
  flatten : line.words.flatMap String.toList = line.text.toList.filter fun c => !Text.isBlank c

theorem ofChars?_eq_none_iff {number : UInt32} {chars : List Char} :
    ofChars? number chars = none ↔ ∀ c ∈ Text.uncommented chars, Text.isBlank c = true := by
  rw [ofChars?, ← Text.trim_eq_nil_iff]
  simp

/-- A line of `ofChars?` shows `uncommented chars`. -/
theorem shows_of_ofChars? {number : UInt32} {chars : List Char} {line : Line}
    (hfeed : '\n' ∉ chars) (h : ofChars? number chars = some line) :
    line.Shows (Text.uncommented chars) := by
  simp only [ofChars?] at h
  split_ifs at h with hempty
  cases h
  have hbare := Text.bare_trim hfeed (by simpa using hempty)
  have hspread := hbare.spread_words
  have hwords : ((Text.words (Text.trim (Text.uncommented chars))).map String.ofList).map
      String.toList = Text.words (Text.trim (Text.uncommented chars)) := by
    simp [Function.comp_def]
  constructor <;> simp only [String.toList_ofList, hwords]
  · exact Text.exists_blanks_around _
  · exact hbare.head
  · exact hbare.last
  · exact hbare.uncommented ▸ Text.not_infix_uncommented _
  · exact hspread
  · simpa using hspread.words_ne_nil
  · intro word hword
    obtain ⟨chars, hchars, rfl⟩ := List.mem_map.1 hword
    obtain ⟨hne, hsolid⟩ := hspread.word chars hchars
    rw [String.toList_ofList]
    exact ⟨by simpa using hne, hsolid⟩
  · rw [List.flatMap_def, hwords]
    exact hspread.flatten

/-- `entry` shows the code at `place` and is numbered by the line feeds before it, from `n` on. -/
def Tells (n : Nat) (place : List Char × List Char) (entry : Nat × Line) : Prop :=
  entry.2.number = UInt32.ofNat (n + place.1.count '\n') ∧ entry.2.Shows place.2

/-- `exists_places` for a single physical line. -/
theorem exists_places_of_not_mem (n : Nat) {text : List Char} (h : '\n' ∉ text) :
    ∃ places : List (List Char × List Char),
      places.Pairwise (fun first second => first.1.length < second.1.length) ∧
      (∀ place, place ∈ places ↔ Text.SignificantAt text place.1 place.2) ∧
      List.Forall₂ (Tells n) places (placedFrom n text) := by
  simp only [Text.significantAt_of_not_mem h, Prod.mk.eta]
  rw [placedFrom_of_not_mem h]
  cases hentry : placedAt n text with
  | none =>
    refine ⟨[], .nil, fun place => ?_, .nil⟩
    have hblank := ofChars?_eq_none_iff.1 (Option.map_eq_none_iff.1 hentry)
    refine iff_of_false List.not_mem_nil ?_
    rintro ⟨-, c, hc, hvisible⟩
    rw [hblank c hc] at hvisible
    cases hvisible
  | some entry =>
    obtain ⟨hplace, hline⟩ := placedAt_eq_some_iff.1 hentry
    refine ⟨[([], Text.uncommented text)], List.pairwise_singleton _ _, fun place => ?_,
      .cons ⟨?_, shows_of_ofChars? h hline⟩ .nil⟩
    · rw [List.mem_singleton, iff_self_and]
      rintro -
      by_contra hblank
      push Not at hblank
      rw [ofChars?_eq_none_iff.2 fun c hc => Bool.eq_true_of_not_eq_false (hblank c hc)] at hline
      cases hline
    · exact number_of_ofChars? hline

/-- The significant places of a text and the lines of `placedFrom` correspond one to one, in
order. -/
theorem exists_places (n : Nat) (text : List Char) :
    ∃ places : List (List Char × List Char),
      places.Pairwise (fun first second => first.1.length < second.1.length) ∧
      (∀ place, place ∈ places ↔ Text.SignificantAt text place.1 place.2) ∧
      List.Forall₂ (Tells n) places (placedFrom n text) := by
  induction text using Text.lines_induction generalizing n with
  | hlast text h => exact exists_places_of_not_mem n h
  | hline first rest h ih =>
    obtain ⟨front, hfront, hmem, htells⟩ := exists_places_of_not_mem n h
    obtain ⟨behind, hbehind, hmem', htells'⟩ := ih (n + 1)
    have hempty : ∀ place ∈ front, place.1 = [] := fun place hplace =>
      congrArg Prod.fst ((Text.significantAt_of_not_mem h).1 ((hmem place).1 hplace)).1
    refine ⟨front ++ behind.map fun place => (first ++ '\n' :: place.1, place.2),
      List.pairwise_append.2 ⟨hfront, List.pairwise_map.2 (hbehind.imp ?_), ?_⟩,
      fun place => ?_, ?_⟩
    · intro one two hlength
      simp only [List.length_append, List.length_cons]
      omega
    · intro one hone two htwo
      obtain ⟨two, -, rfl⟩ := List.mem_map.1 htwo
      simp [hempty one hone]
    · rw [List.mem_append, hmem, Text.significantAt_append h, List.mem_map]
      refine or_congr_right ⟨?_, ?_⟩
      · rintro ⟨other, hother, rfl⟩
        exact ⟨other.1, rfl, (hmem' other).1 hother⟩
      · rintro ⟨before, hbefore, hsignificant⟩
        exact ⟨(before, place.2), (hmem' _).2 hsignificant, Prod.ext hbefore.symm rfl⟩
    · rw [placedFrom_append h, ← placedFrom_of_not_mem h]
      refine List.rel_append htells (List.forall₂_map_left_iff.2 (htells'.imp ?_))
      rintro place entry ⟨hnumber, hshows⟩
      refine ⟨?_, hshows⟩
      rw [hnumber, List.count_append, List.count_eq_zero.2 h, List.count_cons_self, Nat.zero_add,
        Nat.add_assoc, Nat.add_comm 1]

/-! ## Text behind text -/

/-- `line` with its number moved up by `count`, modulo `2 ^ 32`. -/
def shift (count : Nat) (line : Line) : Line :=
  { line with number := line.number + UInt32.ofNat count }

theorem placedAt_add (n count : Nat) (chars : List Char) :
    placedAt (n + count) chars = (placedAt n chars).map (Prod.map (· + count) (shift count)) := by
  simp only [placedAt, ofChars?, UInt32.ofNat_add]
  split_ifs <;> rfl

theorem placedFrom_add (n count : Nat) (text : List Char) :
    placedFrom (n + count) text = (placedFrom n text).map (Prod.map (· + count) (shift count)) := by
  induction text using Text.lines_induction generalizing n with
  | hlast text h =>
    rw [placedFrom_of_not_mem h, placedFrom_of_not_mem h, placedAt_add, Option.toList_map]
  | hline first rest h ih =>
    rw [placedFrom_append h, placedFrom_append h, List.map_append, placedAt_add, Option.toList_map,
      Nat.add_right_comm, ih]

/-- `placedFrom` of two texts with a line feed between them. -/
theorem placedFrom_append_feed (n : Nat) (text more : List Char) :
    placedFrom n (text ++ '\n' :: more) =
      placedFrom n text ++ placedFrom (n + (text.count '\n' + 1)) more := by
  induction text using Text.lines_induction generalizing n with
  | hlast text h =>
    rw [placedFrom_append h, placedFrom_of_not_mem h, List.count_eq_zero.2 h]
  | hline first rest h ih =>
    rw [List.append_assoc, List.cons_append, placedFrom_append h, ih, placedFrom_append h,
      List.append_assoc, List.count_append, List.count_eq_zero.2 h, List.count_cons_self]
    congr 3
    omega

theorem scan_append_feed (source more : String) :
    scan (source ++ "\n" ++ more) =
      scan source ++ (scan more).map (shift (source.toList.count '\n' + 1)) := by
  have htext : (source ++ "\n" ++ more).toList = source.toList ++ '\n' :: more.toList := by
    rw [String.toList_append, String.toList_append, List.append_assoc]
    rfl
  simp only [← map_snd_placed, placed]
  rw [htext, placedFrom_append_feed, placedFrom_add, List.map_append, List.map_map, List.map_map]
  rfl

end Line

/-! ## Empty commands -/

/-- The message `"empty command"` belongs to `Malformed.empty` only. -/
theorem Malformed.message_ne_empty {problem : Malformed} (h : problem ≠ .empty) :
    problem.message ≠ "empty command" := by
  -- The fixed words at the start of the other complaints tell them apart.
  have hstart : ∃ start ∈ ["'", "expected a non-negative integer, found '", "unknown command '"],
      start.toList <+: problem.message.toList := by
    cases problem with
    | empty => exact absurd rfl h
    | arity keyword wanted found =>
      refine ⟨"'", by simp, ?_⟩
      unfold message
      simp only [String.toList_append, List.append_assoc]
      exact List.prefix_append _ _
    | number text =>
      refine ⟨"expected a non-negative integer, found '", by simp, ?_⟩
      unfold message
      simp only [String.toList_append, List.append_assoc]
      exact List.prefix_append _ _
    | unknown keyword =>
      refine ⟨"unknown command '", by simp, ?_⟩
      unfold message
      simp only [String.toList_append, List.append_assoc]
      exact List.prefix_append _ _
  intro hmessage
  rw [hmessage] at hstart
  exact absurd hstart (by decide)

namespace Opcode

theorem ofNameAndNumber_ne_empty (keyword : String) (make : String → Word → Opcode)
    (args : List String) : ofNameAndNumber keyword make args ≠ .error .empty := by
  unfold ofNameAndNumber
  split
  · split <;> simp
  · simp

theorem ofName_ne_empty (keyword : String) (make : String → Opcode) (args : List String) :
    ofName keyword make args ≠ .error .empty := by
  unfold ofName
  split <;> simp

theorem ofNoArgument_ne_empty (keyword : String) (opcode : Opcode) (args : List String) :
    ofNoArgument keyword opcode args ≠ .error .empty := by
  unfold ofNoArgument
  split <;> simp

/-- `Malformed.empty` arises from the empty list of words only. -/
theorem ofWords_ne_empty {words : List String} (h : words ≠ []) :
    ofWords words ≠ .error .empty := by
  cases words with
  | nil => exact absurd rfl h
  | cons keyword args =>
    unfold ofWords
    dsimp only
    split
    · exact ofNameAndNumber_ne_empty _ _ _
    · exact ofNameAndNumber_ne_empty _ _ _
    · exact ofName_ne_empty _ _ _
    · exact ofName_ne_empty _ _ _
    · exact ofName_ne_empty _ _ _
    · exact ofNameAndNumber_ne_empty _ _ _
    · exact ofNameAndNumber_ne_empty _ _ _
    · exact ofNoArgument_ne_empty _ _ _
    · split <;> simp

end Opcode

theorem Line.item_ne_empty {line : Line} (h : line.words ≠ []) (moduleName : String)
    (location : Location) :
    line.item moduleName ≠ .error (.malformed location "empty command") := by
  unfold Line.item
  dsimp only
  split
  · nofun
  · rename_i problem hproblem
    intro heq
    obtain ⟨-, hmessage⟩ := Fault.malformed.inj (Except.error.inj heq)
    exact Malformed.message_ne_empty (fun hempty => Opcode.ofWords_ne_empty h (hempty ▸ hproblem))
      hmessage

/-- **Scanning is faithful.** The significant places of a source text, in order, correspond to the
lines of `Line.scan` one to one. A scanned line shows the code at its place (`Line.Shows`), and its
number is one plus the line feeds before it, as a 32-bit word; that is the natural number itself iff
it is below `2 ^ 32`. No item of `readModule` is the fault `"empty command"`, and a line feed with
more text behind a source appends the items of that text, numbered on. -/
theorem scan_faithful (moduleName source : String) :
    (∃ places : List (List Char × List Char),
      places.Pairwise (fun first second => first.1.length < second.1.length) ∧
      (∀ before code, (before, code) ∈ places ↔ Text.SignificantAt source.toList before code) ∧
      List.Forall₂ (fun place line =>
        line.number = UInt32.ofNat (place.1.count '\n' + 1) ∧
        (line.number.toNat = place.1.count '\n' + 1 ↔ place.1.count '\n' + 1 < 2 ^ 32) ∧
        line.Shows place.2) places (Line.scan source)) ∧
    (∀ location, .error (.malformed location "empty command") ∉ readModule moduleName source) ∧
    ∀ more, readModule moduleName (source ++ "\n" ++ more) = readModule moduleName source ++
      ((Line.scan more).map (Line.shift (source.toList.count '\n' + 1))).map
        (Line.item moduleName) := by
  obtain ⟨places, hpairwise, hmem, htells⟩ := Line.exists_places 1 source.toList
  have hstep : List.Forall₂ (fun place line => line.number = UInt32.ofNat (place.1.count '\n' + 1) ∧
      line.Shows place.2) places (Line.scan source) := by
    rw [← Line.map_snd_placed, List.forall₂_map_right_iff]
    refine htells.imp fun place entry h => ⟨?_, h.2⟩
    rw [h.1, Nat.add_comm]
  refine ⟨⟨places, hpairwise, fun before code => hmem (before, code), hstep.imp ?_⟩,
    fun location hfound => ?_, fun more => ?_⟩
  · rintro place line ⟨hnumber, hshows⟩
    refine ⟨hnumber, ?_, hshows⟩
    rw [hnumber, UInt32.toNat_ofNat', Nat.mod_eq_iff_lt (by decide)]
  · obtain ⟨line, hline, hitem⟩ := List.mem_map.1 hfound
    obtain ⟨chars, hfeed, hchars⟩ := exists_chars_of_mem_scan hline
    exact Line.item_ne_empty (Line.shows_of_ofChars? hfeed hchars).words_ne_nil moduleName location
      hitem
  · rw [readModule, Line.scan_append_feed, List.map_append, readModule]

/-- Blanks of several kinds, carriage returns, three slashes in a row, and no line feed at the
end. -/
def oddSource : String := "// top\r\n\u3000push\tlocal 1 ///x\r\n\n / \nneg// "

theorem scan_faithful_oddSource :
    (∃ line ∈ Line.scan oddSource, line.number = 2 ∧ line.Shows "\u3000push\tlocal 1 ".toList) ∧
      (∀ location, .error (.malformed location "empty command") ∉ readModule "M" oddSource) ∧
      readModule "M" (oddSource ++ "\n" ++ "add") =
        readModule "M" oddSource ++ [.ok ⟨.arithmetic "add", "add", ⟨"M", 6⟩⟩] := by
  obtain ⟨⟨places, -, hmem, hstep⟩, hnone, hmore⟩ := scan_faithful "M" oddSource
  have hat : Text.LineAt oddSource.toList "// top\r\n".toList "\u3000push\tlocal 1 ///x\r".toList
      "\n\n / \nneg// ".toList :=
    ⟨by decide +kernel, by decide +kernel, .inr ⟨"// top\r".toList, by decide +kernel⟩,
      .inr ⟨"\n / \nneg// ".toList, by decide +kernel⟩⟩
  have hcode : Text.BeforeComment "\u3000push\tlocal 1 ///x\r".toList
      "\u3000push\tlocal 1 ".toList :=
    .inr ⟨"/x\r".toList, by decide +kernel, by decide +kernel⟩
  refine ⟨?_, hnone, ?_⟩
  · obtain ⟨i, hi, hplace⟩ := List.getElem_of_mem
      ((hmem _ _).2 ⟨⟨_, _, hat, hcode⟩, 'p', by decide +kernel, by decide⟩)
    have hi' : i < (Line.scan oddSource).length := hstep.length_eq ▸ hi
    obtain ⟨hnumber, -, hshows⟩ := hstep.get hi hi'
    rw [show places.get ⟨i, hi⟩ = _ from hplace] at hnumber hshows
    exact ⟨_, List.get_mem _ ⟨i, hi'⟩, hnumber.trans (by decide +kernel), hshows⟩
  · rw [hmore]
    decide +kernel

end HackVM
