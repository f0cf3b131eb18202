/-
  The vocabulary of compute instructions: destinations, computations and jump conditions, with
  their spellings and their effect on words.
-/
import HackVM.Word
import HackVM.Text.Line

namespace HackVM.Assembly

/-- A text that is no destination, computation or jump. -/
inductive MnemonicError where
  | destination (text : String)
  | computation (text : String)
  | jump (text : String)
deriving DecidableEq

/-- The text of the error. -/
def MnemonicError.message : MnemonicError → String
  | .destination text => s!"unknown destination '{text}'"
  | .computation text => s!"unknown computation '{text}'"
  | .jump text => s!"unknown jump condition '{text}'"

/-! ## Destinations -/

/-- The registers that receive a computed value: a non-empty set of `A`, `D` and `M`, where `M` is
the memory cell that `A` points at. -/
inductive Dest where
  | a | d | m | am | ad | md | amd
deriving DecidableEq

namespace Dest

def text : Dest → String
  | .a => "A"
  | .d => "D"
  | .m => "M"
  | .am => "AM"
  | .ad => "AD"
  | .md => "MD"
  | .amd => "AMD"

def writesA : Dest → Bool
  | .a | .am | .ad | .amd => true
  | .d | .m | .md => false

def writesD : Dest → Bool
  | .d | .ad | .md | .amd => true
  | .a | .m | .am => false

def writesM : Dest → Bool
  | .m | .am | .md | .amd => true
  | .a | .d | .ad => false

/-- Insertion into a sorted text. -/
def insertLetter (letter : Char) : List Char → List Char
  | [] => [letter]
  | other :: letters =>
    if letter ≤ other then letter :: other :: letters else other :: insertLetter letter letters

/-- Insertion sort of the letters. -/
def sortLetters (text : List Char) : List Char := text.foldr insertLetter []

/-- The destination whose letters, in increasing order, are the given ones. -/
def ofSorted? : List Char → Option Dest
  | ['A'] => some .a
  | ['D'] => some .d
  | ['M'] => some .m
  | ['A', 'M'] => some .am
  | ['A', 'D'] => some .ad
  | ['D', 'M'] => some .md
  | ['A', 'D', 'M'] => some .amd
  | _ => none

/-- Reads a destination: its letters in any order. Of equal neighbours in the sorted text one is
kept, so that fewer letters are left than the text has bytes if a letter is repeated or takes more
than one byte. -/
def parse (text : String) : Except MnemonicError Dest :=
  let letters := (sortLetters text.toList).eraseReps
  if letters.length ≠ text.utf8ByteSize then .error (.destination text)
  else match ofSorted? letters with
    | some dest => .ok dest
    | none => .error (.destination text)

end Dest

/-! ## Computations -/

/-- The second operand of a computation, `A` or `M`. -/
inductive Source where
  | a | m
deriving DecidableEq

/-- A computation on `D` and a `Source`. -/
inductive Comp where
  | zero | one | minusOne
  | d | notD | negD | incD | decD
  | src (s : Source) | notSrc (s : Source) | negSrc (s : Source)
  | incSrc (s : Source) | decSrc (s : Source)
  | add (s : Source) | sub (s : Source) | subFrom (s : Source)
  | and (s : Source) | or (s : Source)
deriving DecidableEq

namespace Comp

def text : Comp → String
  | .zero => "0"
  | .one => "1"
  | .minusOne => "-1"
  | .d => "D"
  | .notD => "!D"
  | .negD => "-D"
  | .incD => "D+1"
  | .decD => "D-1"
  | .src .a => "A"
  | .src .m => "M"
  | .notSrc .a => "!A"
  | .notSrc .m => "!M"
  | .negSrc .a => "-A"
  | .negSrc .m => "-M"
  | .incSrc .a => "A+1"
  | .incSrc .m => "M+1"
  | .decSrc .a => "A-1"
  | .decSrc .m => "M-1"
  | .add .a => "D+A"
  | .add .m => "D+M"
  | .sub .a => "D-A"
  | .sub .m => "D-M"
  | .subFrom .a => "A-D"
  | .subFrom .m => "M-D"
  | .and .a => "D&A"
  | .and .m => "D&M"
  | .or .a => "D|A"
  | .or .m => "D|M"

/-- All computations. -/
def all : List Comp :=
  [.zero, .one, .minusOne, .d, .notD, .negD, .incD, .decD,
    .src .a, .src .m, .notSrc .a, .notSrc .m, .negSrc .a, .negSrc .m,
    .incSrc .a, .incSrc .m, .decSrc .a, .decSrc .m,
    .add .a, .add .m, .sub .a, .sub .m, .subFrom .a, .subFrom .m,
    .and .a, .and .m, .or .a, .or .m]

/-- The spellings of the commutative computations with their operands exchanged. -/
def swapped : List (String × Comp) :=
  [("1+D", .incD), ("1+A", .incSrc .a), ("1+M", .incSrc .m), ("A+D", .add .a), ("M+D", .add .m),
    ("A&D", .and .a), ("M&D", .and .m), ("A|D", .or .a), ("M|D", .or .m)]

/-- The texts that `parse` accepts. -/
def spellings : List (String × Comp) := all.map (fun c => (c.text, c)) ++ swapped

/-- The computation with the given spelling, blanks ignored. -/
def parse (text : String) : Except MnemonicError Comp :=
  match spellings.lookup (String.ofList (Text.squeeze text.toList)) with
  | some comp => .ok comp
  | none => .error (.computation text)

/-- The second operand, if the computation has one. -/
def source? : Comp → Option Source
  | .zero | .one | .minusOne | .d | .notD | .negD | .incD | .decD => none
  | .src s | .notSrc s | .negSrc s | .incSrc s | .decSrc s => some s
  | .add s | .sub s | .subFrom s | .and s | .or s => some s

/-- The second operand is `M`. -/
def readsMemory (c : Comp) : Bool := c.source? = some .m

/-- The value of the computation at `D = d` and second operand `s`, modulo `2 ^ 16`. -/
def eval (d s : Word) : Comp → Word
  | .zero => 0
  | .one => 1
  | .minusOne => -1
  | .d => d
  | .notD => ~~~d
  | .negD => -d
  | .incD => d + 1
  | .decD => d - 1
  | .src _ => s
  | .notSrc _ => ~~~s
  | .negSrc _ => -s
  | .incSrc _ => s + 1
  | .decSrc _ => s - 1
  | .add _ => d + s
  | .sub _ => d - s
  | .subFrom _ => s - d
  | .and _ => d &&& s
  | .or _ => d ||| s

end Comp

/-! ## Jump conditions -/

/-- A condition on the sign of the computed value. -/
inductive Jump where
  | jgt | jeq | jge | jlt | jne | jle | jmp
deriving DecidableEq

namespace Jump

def text : Jump → String
  | .jgt => "JGT"
  | .jeq => "JEQ"
  | .jge => "JGE"
  | .jlt => "JLT"
  | .jne => "JNE"
  | .jle => "JLE"
  | .jmp => "JMP"

/-- All jump conditions. -/
def all : List Jump := [.jgt, .jeq, .jge, .jlt, .jne, .jle, .jmp]

/-- The condition with the given mnemonic. -/
def parse (text : String) : Except MnemonicError Jump :=
  match all.find? (·.text == text) with
  | some jump => .ok jump
  | none => .error (.jump text)

/-- The condition holds of `value.signed`. -/
def taken (jump : Jump) (value : Word) : Bool :=
  let v := Word.signed value
  match jump with
  | .jgt => 0 < v
  | .jeq => v = 0
  | .jge => 0 ≤ v
  | .jlt => v < 0
  | .jne => v ≠ 0
  | .jle => v ≤ 0
  | .jmp => true

end Jump

end HackVM.Assembly
