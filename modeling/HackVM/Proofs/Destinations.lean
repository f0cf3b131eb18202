/-
  Destinations by their letters. `Dest.parse` sorts the letters, drops repeated ones and compares
  the count with the bytes of the text. The count agrees only if nothing was dropped and every
  letter takes one byte (`perm_of_length_eq`), so `parse` accepts the permutations of mnemonics
  (`Dest.parse_eq_ok_iff`): the non-empty texts over `A`, `D` and `M` without repetition
  (`Dest.parse_by_letters`).
-/
import Mathlib
import HackVM.Proofs.Stepping

namespace HackVM.Assembly

namespace Dest

/-! ## Sorting and dropping -/

theorem sortLetters_eq (text : List Char) : sortLetters text = text.insertionSort (· ≤ ·) := by
  have hinsert : ∀ letter letters,
      insertLetter letter letters = List.orderedInsert (· ≤ ·) letter letters := by
    intro letter letters
    induction letters with
    | nil => rfl
    | cons other letters ih => rw [insertLetter, ih, List.orderedInsert_cons]
  induction text with
  | nil => rfl
  | cons letter text ih =>
    rw [List.insertionSort_cons, ← ih, ← hinsert]
    rfl

theorem sortLetters_perm (text : List Char) : (sortLetters text).Perm text := by
  rw [sortLetters_eq]
  exact List.perm_insertionSort _ text

/-- `sortLetters` is constant on permutations. -/
theorem sortLetters_congr {text other : List Char} (h : text.Perm other) :
    sortLetters text = sortLetters other := by
  have hperm := (sortLetters_perm text).trans (h.trans (sortLetters_perm other).symm)
  rw [sortLetters_eq, sortLetters_eq] at hperm ⊢
  exact hperm.eq_of_pairwise (fun _ _ _ _ => le_antisymm) (List.pairwise_insertionSort _ _)
    (List.pairwise_insertionSort _ _)

theorem eraseReps_eq_destutter (letters : List Char) :
    letters.eraseReps = letters.destutter (· ≠ ·) := by
  have hloop : ∀ (first : Char) (rest kept : List Char),
      List.eraseRepsBy.loop (· == ·) first rest kept =
        kept.reverse ++ List.destutter' (· ≠ ·) first rest := by
    intro first rest
    induction rest generalizing first with
    | nil =>
      intro kept
      simp [List.eraseRepsBy.loop]
    | cons next rest ih =>
      intro kept
      rw [List.eraseRepsBy.loop, List.destutter'_cons]
      by_cases heq : first = next
      · simp [heq, ih]
      · simp [beq_eq_false_iff_ne.2 heq, heq, ih]
  cases letters with
  | nil => rfl
  | cons first rest => exact hloop first rest []

theorem length_le_utf8Len (text : List Char) : text.length ≤ String.utf8Len text := by
  induction text with
  | nil => exact Nat.zero_le _
  | cons c text ih =>
    have hpos := c.utf8Size_pos
    rw [List.length_cons, String.utf8Len_cons]
    omega

theorem utf8Len_congr {text other : List Char} (h : text.Perm other) :
    String.utf8Len text = String.utf8Len other := by
  induction h with
  | nil => rfl
  | cons c _ ih => rw [String.utf8Len_cons, String.utf8Len_cons, ih]
  | swap c d text => simp only [String.utf8Len_cons, Nat.add_right_comm]
  | trans _ _ ih ih' => exact ih.trans ih'

/-- If the sorted text without repetitions has as many letters as `text` has bytes, it is a
permutation of `text`. -/
theorem perm_of_length_eq {text : String}
    (h : (sortLetters text.toList).eraseReps.length = text.utf8ByteSize) :
    (sortLetters text.toList).eraseReps.Perm text.toList := by
  have hbytes := length_le_utf8Len text.toList
  rw [String.utf8Len_toList, ← h, ← (sortLetters_perm text.toList).length_eq] at hbytes
  rw [eraseReps_eq_destutter] at hbytes ⊢
  rw [(List.destutter_sublist _ _).eq_of_length_le hbytes]
  exact sortLetters_perm text.toList

/-! ## Mnemonics -/

/-- The letters of a mnemonic are distinct and take one byte each. -/
theorem eraseReps_text (dest : Dest) :
    (sortLetters dest.text.toList).eraseReps = sortLetters dest.text.toList ∧
      (sortLetters dest.text.toList).length = String.utf8Len dest.text.toList := by
  cases dest <;> decide

theorem ofSorted?_eq_some_iff {letters : List Char} {dest : Dest} :
    ofSorted? letters = some dest ↔ letters = sortLetters dest.text.toList := by
  constructor
  · intro h
    unfold ofSorted? at h
    split at h <;> cases h <;> decide
  · rintro rfl
    cases dest <;> decide

/-- `Dest.parse text = .ok dest` iff `text` is a permutation of the mnemonic of `dest`. -/
theorem parse_eq_ok_iff {text : String} {dest : Dest} :
    Dest.parse text = .ok dest ↔ text.toList.Perm dest.text.toList := by
  unfold Dest.parse
  dsimp only
  constructor
  · intro h
    split at h
    · cases h
    · rename_i hlength
      split at h
      · rename_i found hfound
        cases h
        have hperm := perm_of_length_eq (not_not.1 hlength)
        rw [ofSorted?_eq_some_iff.1 hfound] at hperm
        exact hperm.symm.trans (sortLetters_perm _)
      · cases h
  · intro h
    obtain ⟨hkept, hlength⟩ := dest.eraseReps_text
    rw [← String.utf8Len_toList, utf8Len_congr h, sortLetters_congr h, hkept, ← hlength,
      if_neg (not_not.2 rfl), ofSorted?_eq_some_iff.2 rfl]

/-- A text that is no destination is the argument of the error. -/
theorem parse_eq_error {text : String} (h : ∀ dest, Dest.parse text ≠ .ok dest) :
    Dest.parse text = .error (.destination text) := by
  revert h
  unfold Dest.parse
  dsimp only
  split
  · exact fun _ => rfl
  · split
    · exact fun h => absurd rfl (h _)
    · exact fun _ => rfl

end Dest

/-! ## Letters -/

/-- The letters of destinations. -/
def letters : List Char := ['A', 'D', 'M']

/-- Texts over `letters` without repetition are permutations iff they have the same letters. -/
theorem perm_letters_iff {text other : List Char} (htext : text.Nodup) (hother : other.Nodup)
    (hin : ∀ c ∈ text, c ∈ letters) (hin' : ∀ c ∈ other, c ∈ letters) :
    text.Perm other ↔ ∀ c ∈ letters, c ∈ text ↔ c ∈ other := by
  rw [List.perm_ext_iff_of_nodup htext hother]
  constructor
  · exact fun h c _ => h c
  · intro h c
    by_cases hc : c ∈ letters
    · exact h c hc
    · exact iff_of_false (mt (hin c) hc) (mt (hin' c) hc)

namespace Dest

theorem nodup_text (dest : Dest) : dest.text.toList.Nodup := by cases dest <;> decide

theorem mem_letters_of_mem_text (dest : Dest) : ∀ c ∈ dest.text.toList, c ∈ letters := by
  have hall : dest.text.toList.all (letters.contains ·) = true := by cases dest <;> decide
  simpa using hall

/-- Every non-empty choice of letters is that of a destination. -/
theorem exists_mem_text_iff (a d m : Prop) (h : a ∨ d ∨ m) :
    ∃ dest : Dest, ('A' ∈ dest.text.toList ↔ a) ∧ ('D' ∈ dest.text.toList ↔ d) ∧
      ('M' ∈ dest.text.toList ↔ m) := by
  by_cases ha : a <;> by_cases hd : d <;> by_cases hm : m
  · exact ⟨.amd, by simp [text, ha, hd, hm]⟩
  · exact ⟨.ad, by simp [text, ha, hd, hm]⟩
  · exact ⟨.am, by simp [text, ha, hd, hm]⟩
  · exact ⟨.a, by simp [text, ha, hd, hm]⟩
  · exact ⟨.md, by simp [text, ha, hd, hm]⟩
  · exact ⟨.d, by simp [text, ha, hd, hm]⟩
  · exact ⟨.m, by simp [text, ha, hd, hm]⟩
  · simp [ha, hd, hm] at h

/-- The permutations of mnemonics are the non-empty texts over `letters` without repetition. -/
theorem exists_perm_text_iff {text : List Char} :
    (∃ dest : Dest, text.Perm dest.text.toList) ↔
      text ≠ [] ∧ (∀ c ∈ text, c ∈ letters) ∧ text.Nodup := by
  constructor
  · rintro ⟨dest, hperm⟩
    refine ⟨?_, fun c hc => dest.mem_letters_of_mem_text c (hperm.mem_iff.1 hc),
      hperm.nodup_iff.2 dest.nodup_text⟩
    rintro rfl
    cases dest <;> exact absurd hperm.length_eq (by decide)
  · rintro ⟨hne, hin, hnodup⟩
    obtain ⟨c, hc⟩ := List.exists_mem_of_ne_nil text hne
    obtain ⟨dest, ha, hd, hm⟩ := exists_mem_text_iff ('A' ∈ text) ('D' ∈ text) ('M' ∈ text) (by
      have hletter := hin c hc
      simp only [letters, List.mem_cons, List.not_mem_nil, or_false] at hletter
      rcases hletter with rfl | rfl | rfl
      · exact .inl hc
      · exact .inr (.inl hc)
      · exact .inr (.inr hc))
    refine ⟨dest, (perm_letters_iff hnodup dest.nodup_text hin dest.mem_letters_of_mem_text).2 ?_⟩
    simp [letters, ha, hd, hm]

/-- **Destinations by their letters.** `Dest.parse` accepts a text iff it is not empty, has no
letters but `A`, `D` and `M`, and none of them twice. The destination writes exactly what the
letters name, in any order. The error for any other text carries that text. -/
theorem parse_by_letters (text : String) :
    ((∃ dest, Dest.parse text = .ok dest) ↔
      text ≠ "" ∧ (∀ c ∈ text.toList, c = 'A' ∨ c = 'D' ∨ c = 'M') ∧ text.toList.Nodup) ∧
    (∀ dest, Dest.parse text = .ok dest →
      (dest.writesA = true ↔ 'A' ∈ text.toList) ∧ (dest.writesD = true ↔ 'D' ∈ text.toList) ∧
        (dest.writesM = true ↔ 'M' ∈ text.toList)) ∧
    (∀ other : String, text.toList.Perm other.toList →
      ∀ dest, Dest.parse text = .ok dest ↔ Dest.parse other = .ok dest) ∧
    ((∀ dest, Dest.parse text ≠ .ok dest) → Dest.parse text = .error (.destination text)) := by
  refine ⟨?_, fun dest h => ?_, fun other hperm dest => ?_, parse_eq_error⟩
  · simp only [parse_eq_ok_iff, exists_perm_text_iff, letters, List.mem_cons, List.not_mem_nil,
      or_false, ne_eq, String.toList_eq_nil_iff]
  · have hperm := parse_eq_ok_iff.1 h
    obtain ⟨ha, hd, hm⟩ := Dest.writes_iff (some dest)
    simp only [Option.any_some, Names, Option.mem_some_iff, exists_eq_left'] at ha hd hm
    exact ⟨ha.trans hperm.mem_iff.symm, hd.trans hperm.mem_iff.symm, hm.trans hperm.mem_iff.symm⟩
  · rw [parse_eq_ok_iff, parse_eq_ok_iff]
    exact ⟨hperm.symm.trans, hperm.trans⟩

theorem parse_by_letters_mda :
    "MDA".toList.Perm "ADM".toList ∧ Dest.parse "MDA" = .ok .amd ∧ Dest.parse "ADM" = .ok .amd ∧
      Dest.amd.writesM = true ∧ Dest.parse "MDé" = .error (.destination "MDé") := by
  obtain ⟨-, hwrites, hsame, -⟩ := parse_by_letters "MDA"
  have hperm : "MDA".toList.Perm "ADM".toList := by decide
  have hread : Dest.parse "MDA" = .ok .amd := by decide
  obtain ⟨hiff, -, -, herror⟩ := parse_by_letters "MDé"
  have hnone : ∀ dest, Dest.parse "MDé" ≠ .ok dest := by
    intro dest hdest
    exact absurd ((hiff.1 ⟨dest, hdest⟩).2.1 'é' (by decide)) (by decide)
  exact ⟨hperm, hread, (hsame "ADM" hperm .amd).1 hread, (hwrites .amd hread).2.2.2 (by decide),
    herror hnone⟩

end Dest

end HackVM.Assembly
