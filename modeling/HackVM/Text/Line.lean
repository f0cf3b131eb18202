/-
  Cutting text: physical lines, comments, surrounding blanks, words. Everything works on lists of
  characters, so that it can be followed by induction.
-/
import HackVM.Text.Blank

namespace HackVM.Text

/-- The pieces of a text, each ended by a character that satisfies `stop` or by the end of the
text. Nothing stands after a final stop, so it ends the last piece and starts none. -/
def pieces (stop : Char → Bool) (text : List Char) : List (List Char) :=
  text.foldr
    (fun c rest =>
      if stop c then [] :: rest
      else match rest with
        | [] => [[c]]
        | piece :: others => (c :: piece) :: others)
    []

/-- The physical lines of a text. A carriage return before a line feed stays: it is blank. -/
def lines (text : List Char) : List (List Char) := pieces (· == '\n') text

/-- The prefix of a text before its first `//`. -/
def uncommented : List Char → List Char
  | '/' :: '/' :: _ => []
  | c :: rest => c :: uncommented rest
  | [] => []

/-- The text without leading and trailing blanks. -/
def trim (text : List Char) : List Char :=
  ((text.dropWhile isBlank).reverse.dropWhile isBlank).reverse

/-- The maximal runs of non-blank characters. -/
def words (text : List Char) : List (List Char) :=
  (pieces isBlank text).filter fun piece => !piece.isEmpty

/-- The non-blank characters of a text. -/
def squeeze (text : List Char) : List Char := text.filter fun c => !isBlank c

/-- The text before and after the first `c`, `none` without one. -/
def splitAtFirst (c : Char) (text : List Char) : Option (List Char × List Char) :=
  match text.dropWhile (· != c) with
  | [] => none
  | _ :: rest => some (text.takeWhile (· != c), rest)

end HackVM.Text
