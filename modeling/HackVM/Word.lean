/-
  Machine words: 16 bits, read unsigned or in two's complement.
-/

namespace HackVM

/-- A machine word. Arithmetic on words wraps at `2 ^ 16`. -/
abbrev Word := UInt16

namespace Word

/-- The two's complement value of `w`, in `[-32768, 32767]`. -/
def signed (w : Word) : Int :=
  if w.toNat < 32768 then (w.toNat : Int) else (w.toNat : Int) - 65536

/-- `i` modulo `2 ^ 16`. -/
def ofSigned (i : Int) : Word := UInt16.ofInt i

end Word

end HackVM
