/-
  The significant lines of a source text with their places. `placed` counts physical lines in `Nat`,
  `scan` in 32 bits; a number is the place modulo `2 ^ 32` (`map_snd_placed`,
  `number_of_mem_placedFrom`). Places increase (`pairwise_placedFrom`), and emptying some lines
  leaves the others at their places (`placedFrom_emptyLines`).
-/
import Mathlib
import HackVM.Command.Source
import HackVM.Proofs.Cutting

namespace HackVM

/-! ## Emptied lines -/

namespace Text

/-- `text` with every line empty whose place satisfies `drop`. The first line has place `n`. -/
def emptyLines (drop : Nat → Bool) : Nat → List Char → List Char
  | _, [] => []
  | n, c :: text =>
    if c = '\n' then c :: emptyLines drop (n + 1) text
    else if drop n then emptyLines drop n text
    else c :: emptyLines drop n text

variable {drop : Nat → Bool} {n : Nat}

theorem emptyLines_of_not_mem {line : List Char} (h : '\n' ∉ line) :
    emptyLines drop n line = if drop n then [] else line := by
  induction line with
  | nil => simp [emptyLines]
  | cons c line ih =>
    rw [List.mem_cons, not_or] at h
    rw [emptyLines, if_neg (Ne.symm h.1), ih h.2]
    cases drop n <;> rfl

theorem emptyLines_append {line rest : List Char} (h : '\n' ∉ line) :
    emptyLines drop n (line ++ '\n' :: rest) =
      (if drop n then [] else line) ++ '\n' :: emptyLines drop (n + 1) rest := by
  induction line with
  | nil => simp [emptyLines]
  | cons c line ih =>
    rw [List.mem_cons, not_or] at h
    rw [List.cons_append, emptyLines, if_neg (Ne.symm h.1), ih h.2]
    cases drop n <;> rfl

end Text

/-! ## Placed lines -/

namespace Line

/-- `ofChars?` of physical line `n`, with `n` itself. -/
def placedAt (n : Nat) (chars : List Char) : Option (Nat × Line) :=
  (ofChars? (UInt32.ofNat n) chars).map (n, ·)

/-- The significant lines of `text` with their places; its first physical line has place `n`. -/
def placedFrom (n : Nat) (text : List Char) : List (Nat × Line) :=
  ((Text.lines text).zipIdx n).filterMap fun line => placedAt line.2 line.1

/-- `placedFrom 1`: the lines of `scan`, with places in `Nat`. -/
def placed (source : String) : List (Nat × Line) := placedFrom 1 source.toList

theorem map_snd_placed (source : String) : (placed source).map Prod.snd = scan source := by
  rw [placed, placedFrom, List.map_filterMap, scan]
  refine List.filterMap_congr fun line _ => ?_
  rw [placedAt, Option.map_map]
  exact Option.map_id' ..

theorem ofChars?_nil (number : UInt32) : ofChars? number [] = none := rfl

theorem number_of_ofChars? {number : UInt32} {chars : List Char} {line : Line}
    (h : ofChars? number chars = some line) : line.number = number := by
  simp only [ofChars?] at h
  split_ifs at h
  cases h
  rfl

theorem placedAt_eq_some_iff {n : Nat} {chars : List Char} {entry : Nat × Line} :
    placedAt n chars = some entry ↔
      entry.1 = n ∧ ofChars? (UInt32.ofNat n) chars = some entry.2 := by
  rw [placedAt, Option.map_eq_some_iff]
  constructor
  · rintro ⟨line, hline, rfl⟩
    exact ⟨rfl, hline⟩
  · rintro ⟨rfl, hline⟩
    exact ⟨entry.2, hline, rfl⟩

theorem placedFrom_of_not_mem {n : Nat} {line : List Char} (h : '\n' ∉ line) :
    placedFrom n line = (placedAt n line).toList := by
  rw [placedFrom, Text.lines_of_not_mem h]
  split_ifs with hnil
  · rw [hnil, placedAt, ofChars?_nil]
    rfl
  · rw [List.zipIdx_singleton, List.filterMap_cons]
    cases placedAt n line <;> rfl

theorem placedFrom_append {n : Nat} {line rest : List Char} (h : '\n' ∉ line) :
    placedFrom n (line ++ '\n' :: rest) = (placedAt n line).toList ++ placedFrom (n + 1) rest := by
  rw [placedFrom, Text.lines_append h, List.zipIdx_cons, List.filterMap_cons, ← placedFrom]
  cases placedAt n line <;> rfl

theorem filter_toList_placedAt (drop : Nat → Bool) (n : Nat) (chars : List Char) :
    (placedAt n (if drop n then [] else chars)).toList =
      (placedAt n chars).toList.filter fun entry => !drop entry.1 := by
  cases hentry : placedAt n chars with
  | none =>
    split_ifs
    · rfl
    · rw [hentry]
      rfl
  | some entry =>
    rw [Option.toList_some, List.filter_singleton, (placedAt_eq_some_iff.1 hentry).1]
    cases drop n with
    | true => rfl
    | false =>
      simp only [Bool.false_eq_true, if_false, hentry]
      rfl

/-- `emptyLines` removes the dropped lines and leaves the others at their places. -/
theorem placedFrom_emptyLines (drop : Nat → Bool) (n : Nat) (text : List Char) :
    placedFrom n (Text.emptyLines drop n text) =
      (placedFrom n text).filter fun entry => !drop entry.1 := by
  induction text using Text.lines_induction generalizing n with
  | hlast line h =>
    have hkept : '\n' ∉ (if drop n then [] else line) := by
      split_ifs
      · exact List.not_mem_nil
      · exact h
    rw [Text.emptyLines_of_not_mem h, placedFrom_of_not_mem hkept, placedFrom_of_not_mem h,
      filter_toList_placedAt]
  | hline line rest h ih =>
    have hkept : '\n' ∉ (if drop n then [] else line) := by
      split_ifs
      · exact List.not_mem_nil
      · exact h
    rw [Text.emptyLines_append h, placedFrom_append hkept, placedFrom_append h, ih,
      List.filter_append, filter_toList_placedAt]

/-- The number of a line is its place modulo `2 ^ 32`. -/
theorem number_of_mem_placedFrom {n : Nat} {text : List Char} {entry : Nat × Line}
    (h : entry ∈ placedFrom n text) : entry.2.number = UInt32.ofNat entry.1 := by
  obtain ⟨line, -, hline⟩ := List.mem_filterMap.1 h
  obtain ⟨hplace, hchars⟩ := placedAt_eq_some_iff.1 hline
  rw [number_of_ofChars? hchars, hplace]

/-- Places lie in `[n, n + k)` for a text of `k` physical lines. -/
theorem place_of_mem_placedFrom {n : Nat} {text : List Char} {entry : Nat × Line}
    (h : entry ∈ placedFrom n text) :
    n ≤ entry.1 ∧ entry.1 < n + (Text.lines text).length := by
  obtain ⟨⟨chars, place⟩, hmem, hline⟩ := List.mem_filterMap.1 h
  rw [(placedAt_eq_some_iff.1 hline).1]
  exact ⟨List.le_snd_of_mem_zipIdx hmem, List.snd_lt_add_of_mem_zipIdx hmem⟩

/-- Places increase strictly. -/
theorem pairwise_placedFrom (n : Nat) (text : List Char) :
    (placedFrom n text).Pairwise fun first second => first.1 < second.1 := by
  induction text using Text.lines_induction generalizing n with
  | hlast line h =>
    rw [placedFrom_of_not_mem h]
    cases placedAt n line with
    | none => exact List.Pairwise.nil
    | some found => exact List.pairwise_singleton _ _
  | hline line rest h ih =>
    rw [placedFrom_append h]
    cases hline : placedAt n line with
    | none => exact ih (n + 1)
    | some found =>
      refine List.pairwise_cons.2 ⟨fun other hother => ?_, ih (n + 1)⟩
      rw [(placedAt_eq_some_iff.1 hline).1]
      exact (place_of_mem_placedFrom hother).1

theorem nodup_places (source : String) : ((placed source).map Prod.fst).Nodup :=
  List.pairwise_map.2 ((pairwise_placedFrom 1 source.toList).imp Nat.ne_of_lt)

end Line

end HackVM
