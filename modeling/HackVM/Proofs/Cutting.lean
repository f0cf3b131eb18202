/-
  Text and how it is cut: `pieces` at a stop, `lines` at line feeds (`lines_append`,
  `lines_induction`), comments (`uncommented`), blanks (`squeeze`, `trim`), words and numerals.
  `IsWord` is the predicate for a word of a line: not empty, without blanks and without `//`. Every
  word of a scanned line satisfies it (`isWord_of_mem_words`).
-/
import Mathlib
import HackVM.Text.Line
import HackVM.Text.Numeral

namespace HackVM.Text

/-! ## Pieces -/

theorem pieces_cons (stop : Char → Bool) (c : Char) (text : List Char) :
    pieces stop (c :: text) =
      if stop c then [] :: pieces stop text
      else match pieces stop text with
        | [] => [[c]]
        | piece :: others => (c :: piece) :: others := rfl

theorem pieces_append_stop {stop : Char → Bool} {piece rest : List Char} {c : Char}
    (h : ∀ x ∈ piece, stop x = false) (hc : stop c = true) :
    pieces stop (piece ++ c :: rest) = piece :: pieces stop rest := by
  induction piece with
  | nil => simp [pieces_cons, hc]
  | cons x piece ih =>
    rw [List.cons_append, pieces_cons, h x (by simp), ih fun y hy => h y (by simp [hy])]
    rfl

theorem pieces_of_not_stop {stop : Char → Bool} {text : List Char}
    (h : ∀ x ∈ text, stop x = false) : pieces stop text = if text = [] then [] else [text] := by
  induction text with
  | nil => rfl
  | cons c text ih =>
    rw [pieces_cons, h c (by simp), ih fun x hx => h x (by simp [hx])]
    cases text <;> rfl

/-- `pieces` of two texts with a stop between them. -/
theorem pieces_append {stop : Char → Bool} {c : Char} (hc : stop c = true) (text rest : List Char) :
    pieces stop (text ++ c :: rest) = pieces stop (text ++ [c]) ++ pieces stop rest := by
  induction text with
  | nil => simp [hc, pieces]
  | cons x text ih =>
    rw [List.cons_append, List.cons_append, pieces_cons, pieces_cons, ih]
    cases stop x with
    | true => rfl
    | false =>
      cases hpieces : pieces stop (text ++ [c]) with
      | nil =>
        -- A text with a stop in it has a piece.
        cases text with
        | nil => simp [pieces_cons, hc] at hpieces
        | cons y text =>
          rw [List.cons_append, pieces_cons] at hpieces
          split_ifs at hpieces
          split at hpieces <;> cases hpieces
      | cons piece others => rfl

/-- A piece is made of characters of the text that are no stops. -/
theorem of_mem_pieces {stop : Char → Bool} {text piece : List Char} (h : piece ∈ pieces stop text) :
    ∀ c ∈ piece, c ∈ text ∧ stop c = false := by
  induction text generalizing piece with
  | nil => simp [pieces] at h
  | cons x text ih =>
    rw [pieces_cons] at h
    cases hx : stop x with
    | true =>
      rw [hx, if_pos rfl, List.mem_cons] at h
      rcases h with rfl | h
      · simp
      · exact fun c hc => ⟨by simp [(ih h c hc).1], (ih h c hc).2⟩
    | false =>
      rw [hx] at h
      cases hp : pieces stop text with
      | nil =>
        simp only [hp, Bool.false_eq_true, if_false, List.mem_singleton] at h
        subst h
        simp [hx]
      | cons first others =>
        simp only [hp, Bool.false_eq_true, if_false, List.mem_cons] at h
        intro c hc
        rcases h with rfl | h
        · rcases List.mem_cons.1 hc with rfl | hc
          · simp [hx]
          · have := ih (hp ▸ List.mem_cons_self) c hc
            exact ⟨by simp [this.1], this.2⟩
        · have := ih (hp ▸ List.mem_cons_of_mem _ h) c hc
          exact ⟨by simp [this.1], this.2⟩

theorem pieces_isInfix (stop : Char → Bool) (text : List Char) :
    (∀ piece ∈ (pieces stop text).head?, piece <+: text) ∧
      ∀ piece ∈ pieces stop text, piece <:+: text := by
  induction text with
  | nil => simp [pieces]
  | cons c text ih =>
    obtain ⟨hhead, hall⟩ := ih
    rw [pieces_cons]
    cases hc : stop c with
    | true =>
      refine ⟨by simp, fun piece hpiece => ?_⟩
      rcases List.mem_cons.1 hpiece with rfl | hpiece
      · exact List.nil_infix
      · exact List.infix_cons (hall piece hpiece)
    | false =>
      cases hpieces : pieces stop text with
      | nil =>
        have : [c] <:+: c :: text := (List.prefix_append [c] text).isInfix
        simpa using this
      | cons first others =>
        rw [hpieces] at hhead hall
        have hfirst : c :: first <+: c :: text := List.prefix_cons_inj c |>.2 (hhead first rfl)
        refine ⟨fun piece hpiece => ?_, fun piece hpiece => ?_⟩
        · cases hpiece
          exact hfirst
        · rcases List.mem_cons.1 hpiece with rfl | hpiece
          · exact hfirst.isInfix
          · exact List.infix_cons (hall piece (List.mem_cons_of_mem _ hpiece))

/-! ## Lines -/

theorem lines_append {line rest : List Char} (h : '\n' ∉ line) :
    lines (line ++ '\n' :: rest) = line :: lines rest := by
  refine pieces_append_stop (fun x hx => ?_) rfl
  rw [beq_eq_false_iff_ne]
  rintro rfl
  exact h hx

theorem lines_of_not_mem {line : List Char} (h : '\n' ∉ line) :
    lines line = if line = [] then [] else [line] := by
  refine pieces_of_not_stop fun c hc => beq_eq_false_iff_ne.2 ?_
  rintro rfl
  exact h hc

/-- Induction over lines: a text is one line without `'\n'`, or `line ++ '\n' :: rest`. -/
theorem lines_induction {P : List Char → Prop} (hlast : ∀ line, '\n' ∉ line → P line)
    (hline : ∀ line rest, '\n' ∉ line → P rest → P (line ++ '\n' :: rest)) (text : List Char) :
    P text := by
  suffices h : ∀ line, '\n' ∉ line → P (line ++ text) from h [] List.not_mem_nil
  induction text with
  | nil =>
    intro line h
    rw [List.append_nil]
    exact hlast line h
  | cons c text ih =>
    intro line h
    by_cases hc : c = '\n'
    · rw [hc]
      exact hline line text h (ih [] List.not_mem_nil)
    · rw [List.append_cons]
      refine ih (line ++ [c]) ?_
      rw [List.mem_append, List.mem_singleton, not_or]
      exact ⟨h, Ne.symm hc⟩

/-! ## Comments -/

theorem uncommented_cons {c : Char} {text : List Char} (h : c ≠ '/' ∨ text.head? ≠ some '/') :
    uncommented (c :: text) = c :: uncommented text := by
  cases text with
  | nil => simp [uncommented]
  | cons d text =>
    rw [uncommented]
    rintro rest rfl heq
    cases heq
    simp at h

/-- No `//` starts across a character other than a slash. -/
theorem uncommented_append_cons {text rest : List Char} {c : Char}
    (h : uncommented text = text) (hc : c ≠ '/') :
    uncommented (text ++ c :: rest) = text ++ c :: uncommented rest := by
  induction text with
  | nil => exact uncommented_cons (.inl hc)
  | cons x text ih =>
    have hx : x ≠ '/' ∨ text.head? ≠ some '/' := by
      by_contra hboth
      push Not at hboth
      obtain ⟨rfl, hhead⟩ := hboth
      obtain ⟨tail, rfl⟩ := List.head?_eq_some_iff.1 hhead
      simp [uncommented] at h
    rw [uncommented_cons hx] at h
    have hx' : x ≠ '/' ∨ (text ++ c :: rest).head? ≠ some '/' := by
      refine hx.imp_right fun hne => ?_
      cases text with
      | nil => simpa using hc
      | cons y text => simpa using hne
    rw [List.cons_append, uncommented_cons hx', ih (List.cons.inj h).2, List.cons_append]

theorem uncommented_eq_self {text : List Char} (h : '/' ∉ text) : uncommented text = text := by
  induction text with
  | nil => rfl
  | cons c text ih =>
    rw [uncommented_cons (.inl fun e => h (by simp [e])), ih fun hmem => h (by simp [hmem])]

theorem uncommented_isPrefix (text : List Char) : uncommented text <+: text := by
  fun_induction uncommented text with
  | case1 rest => exact List.nil_prefix
  | case2 c rest h ih => exact List.prefix_cons_inj c |>.2 ih
  | case3 => exact List.nil_prefix

/-- `uncommented text` holds no `//`. -/
theorem not_infix_uncommented (text : List Char) : ¬['/', '/'] <:+: uncommented text := by
  fun_induction uncommented text with
  | case1 rest => simp
  | case2 c rest h ih =>
    intro hwithin
    rcases List.infix_cons_iff.1 hwithin with hprefix | hwithin
    · obtain ⟨rfl, hslash⟩ := List.cons_prefix_cons.1 hprefix
      obtain ⟨tail, htail⟩ := hslash.trans (uncommented_isPrefix rest)
      exact h tail rfl htail.symm
    · exact ih hwithin
  | case3 => simp

theorem uncommented_eq_self_of_not_infix {text : List Char} (h : ¬['/', '/'] <:+: text) :
    uncommented text = text := by
  fun_induction uncommented text with
  | case1 rest => exact absurd (List.prefix_append ['/', '/'] rest).isInfix h
  | case2 c rest hne ih => rw [ih fun hwithin => h (List.infix_cons hwithin)]
  | case3 => rfl

/-- Text without `'\n'` and without `//`. -/
def Inline (text : List Char) : Prop := '\n' ∉ text ∧ uncommented text = text

instance (text : List Char) : Decidable (Inline text) := inferInstanceAs (Decidable (_ ∧ _))

/-! ## Blanks -/

theorem squeeze_eq_self {text : List Char} (h : ∀ c ∈ text, isBlank c = false) :
    squeeze text = text := List.filter_eq_self.2 fun c hc => by simp [h c hc]

theorem squeeze_append (text rest : List Char) :
    squeeze (text ++ rest) = squeeze text ++ squeeze rest := List.filter_append ..

theorem trim_isPrefix (text : List Char) : trim text <+: text.dropWhile isBlank := by
  apply List.reverse_suffix.1
  rw [trim, List.reverse_reverse]
  exact List.dropWhile_suffix _

theorem trim_isInfix (text : List Char) : trim text <:+: text :=
  (trim_isPrefix text).isInfix.trans (List.dropWhile_suffix _).isInfix

/-! ## First occurrences -/

theorem splitAtFirst_append {c : Char} {text rest : List Char} (h : c ∉ text) :
    splitAtFirst c (text ++ c :: rest) = some (text, rest) := by
  have hall : ∀ x ∈ text, (x != c) = true := fun x hx => bne_iff_ne.2 fun e => h (e ▸ hx)
  rw [splitAtFirst, List.dropWhile_append_of_pos hall, List.takeWhile_append_of_pos hall]
  simp

theorem splitAtFirst_eq_none {c : Char} {text : List Char} (h : c ∉ text) :
    splitAtFirst c text = none := by
  have hall : ∀ x ∈ text, (x != c) = true := fun x hx => bne_iff_ne.2 fun e => h (e ▸ hx)
  rw [splitAtFirst, List.dropWhile_eq_nil_iff.2 hall]

/-! ## Words -/

/-- A word of a line: not empty, without blanks and without `//`. -/
def IsWord (text : List Char) : Prop :=
  text ≠ [] ∧ (∀ c ∈ text, isBlank c = false) ∧ ¬['/', '/'] <:+: text

instance (text : List Char) : Decidable (IsWord text) :=
  decidable_of_iff (text ≠ [] ∧ text.any isBlank = false ∧ ¬['/', '/'] <:+: text)
    (by simp [IsWord])

theorem IsWord.squeeze {text : List Char} (h : IsWord text) : squeeze text = text :=
  squeeze_eq_self h.2.1

theorem IsWord.uncommented {text : List Char} (h : IsWord text) : uncommented text = text :=
  uncommented_eq_self_of_not_infix h.2.2

theorem IsWord.inline {text : List Char} (h : IsWord text) : Inline text :=
  ⟨fun hmem => Bool.false_ne_true ((h.2.1 _ hmem).symm.trans (by decide)), h.uncommented⟩

theorem isWord_of_mem_words {text word : List Char} (h : word ∈ words (trim (uncommented text))) :
    IsWord word := by
  obtain ⟨hpiece, hne⟩ := List.mem_filter.1 h
  refine ⟨by simpa using hne, fun c hc => (of_mem_pieces hpiece c hc).2, fun hwithin => ?_⟩
  exact not_infix_uncommented text
    (hwithin.trans (((pieces_isInfix _ _).2 word hpiece).trans (trim_isInfix _)))

/-! ## Numerals -/

theorem le_ofDigitChars (digits : List Char) (value : Nat) :
    value ≤ Nat.ofDigitChars 10 digits value := by
  induction digits generalizing value with
  | nil => simp
  | cons c digits ih =>
    rw [Nat.ofDigitChars_cons]
    exact le_trans (by omega) (ih _)

theorem readDigits_eq_ok {greatest value : Nat} {digits : List Char}
    (hdigits : ∀ c ∈ digits, isDigit c = true)
    (hle : Nat.ofDigitChars 10 digits value ≤ greatest) :
    readDigits greatest value digits = .ok (Nat.ofDigitChars 10 digits value) := by
  induction digits generalizing value with
  | nil => simp [readDigits]
  | cons c digits ih =>
    rw [Nat.ofDigitChars_cons] at hle ⊢
    have hnext : 10 * value + digitValue c ≤ greatest := le_trans (le_ofDigitChars ..) hle
    rw [readDigits, if_pos (hdigits c (by simp))]
    simp only [if_pos hnext]
    exact ih (fun d hd => hdigits d (by simp [hd])) hle

theorem isDigit_of_mem_toString {n : Nat} {c : Char} (h : c ∈ (toString n).toList) :
    isDigit c = true := by
  rw [Nat.toString_eq_ofList_toDigits, String.toList_ofList] at h
  exact Nat.isDigit_of_mem_toDigits (by decide) (by decide) h

/-- `readDigits` inverts `toString` up to `greatest`. -/
theorem readDigits_toString {greatest n : Nat} (h : n ≤ greatest) :
    readDigits greatest 0 (toString n).toList = .ok n := by
  have hvalue : Nat.ofDigitChars 10 (toString n).toList 0 = n := by
    rw [Nat.toString_eq_ofList_toDigits, String.toList_ofList, Nat.ofDigitChars_ten_toDigits]
  rw [readDigits_eq_ok (fun c hc => isDigit_of_mem_toString hc) (by rw [hvalue]; exact h), hvalue]

/-! ## Visible characters -/

theorem isBlank_eq_false {c : Char} (hlo : 32 < c.toNat) (hhi : c.toNat < 127) :
    isBlank c = false := by
  simp only [isBlank, blankRanges, List.any_cons, List.any_nil, Bool.or_false, Bool.or_eq_false_iff,
    Bool.and_eq_false_iff, decide_eq_false_iff_not]
  omega

theorem toNat_of_isDigit {c : Char} (h : isDigit c = true) : 48 ≤ c.toNat ∧ c.toNat ≤ 57 := by
  rw [isDigit, Bool.and_eq_true, decide_eq_true_iff, decide_eq_true_iff] at h
  exact h

theorem isWord_of_visible {text : List Char} (hne : text ≠ [])
    (h : ∀ c ∈ text, 32 < c.toNat ∧ c.toNat < 127 ∧ c ≠ '/') : IsWord text :=
  ⟨hne, fun c hc => isBlank_eq_false (h c hc).1 (h c hc).2.1,
    fun hwithin => (h '/' (hwithin.subset List.mem_cons_self)).2.2 rfl⟩

theorem visible_toString {n : Nat} :
    ∀ c ∈ (toString n).toList, 32 < c.toNat ∧ c.toNat < 127 ∧ c ≠ '/' := by
  intro c hc
  have := toNat_of_isDigit (isDigit_of_mem_toString hc)
  refine ⟨by omega, by omega, ?_⟩
  rintro rfl
  simp at this

end HackVM.Text
