/-
  The assembler. The first pass binds labels to ROM addresses, the second gives every name its
  value; names without one become variables.
-/
import HackVM.Event
import HackVM.Rom.Statement
import HackVM.Sweep

namespace HackVM.Rom

/-! ## Labels -/

/-- First pass: the labels with their ROM addresses, the next address, and the errors of labels that
are defined again. -/
structure LabelScan where
  symbols : SymbolTable := {}
  address : Word := 0
  duplicates : Array AssemblyError := #[]

/-- A label gets the next address unless it is predefined or bound already; any other statement
takes one word. -/
def LabelScan.add (scan : LabelScan) (line : Nat) (statement : Statement) : LabelScan :=
  match statement with
  | .label name =>
    if scan.symbols.contains name || (predefined? name).isSome then
      { scan with duplicates := scan.duplicates.push ⟨line, .duplicateLabel name⟩ }
    else { scan with symbols := scan.symbols.insert name scan.address }
  | _ => { scan with address := scan.address + 1 }

/-- The first pass over `statements`. Addresses wrap at `2 ^ 16`. -/
def scanLabels (statements : List (Nat × Statement)) : LabelScan :=
  statements.foldl (fun scan numbered => scan.add numbered.1 numbered.2) {}

/-! ## Values of names -/

/-- The address of the first variable. -/
def firstVariable : Word := 16

/-- Second pass: the values of names, and the address of the next variable. -/
structure Naming where
  symbols : SymbolTable
  nextVariable : Word := firstVariable

/-- The ROM word of a statement, none for a label. A name that is neither predefined nor bound
becomes the next variable. -/
def Naming.resolve (naming : Naming) (statement : Statement) : (Option Op × List Event) × Naming :=
  match statement with
  | .label _ => ((none, []), naming)
  | .literal value => ((some (.load value), []), naming)
  | .compute dest comp jump => ((some (.compute dest comp jump), []), naming)
  | .symbol name =>
    match (predefined? name).or naming.symbols[name]? with
    | some value => ((some (.load value), []), naming)
    | none =>
      let address := naming.nextVariable
      ((some (.load address), [.allocatedVariable name address]),
        ⟨naming.symbols.insert name address, address + 1⟩)

/-! ## The whole text -/

/-- Two passes over the statements of `source`. The errors are those of the malformed lines, then
the duplicate labels, each in the order of the lines. -/
def assemble (source : String) : Except (List AssemblyError) Program × List Event :=
  let parsed := statements source
  let malformed := parsed.filterMap fun numbered =>
    match numbered.2 with
    | .error problem => some (AssemblyError.mk numbered.1 problem)
    | .ok _ => none
  let wellFormed := parsed.filterMap fun numbered =>
    match numbered.2 with
    | .ok statement => some (numbered.1, statement)
    | .error _ => none
  let labels := scanLabels wellFormed
  match malformed ++ labels.duplicates.toList with
  | [] =>
    let (words, naming) := sweep (fun naming numbered => Naming.resolve naming numbered.2)
      { symbols := labels.symbols } wellFormed
    let ops := (words.filterMap Prod.fst).toArray
    (.ok ⟨ops, naming.symbols⟩,
      words.flatMap Prod.snd ++ [.assembled ops.size naming.symbols.size])
  | errors => (.error errors, [])

end HackVM.Rom
