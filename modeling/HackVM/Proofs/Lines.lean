/-
  The lines of lowered code. Most code is `Plain`: its lines have neither names nor comments.
  Lowered code has no comments (`Lowers.withoutComments_eq`), and a name that it loads is one of its
  labels or a target of its opcode (`Lowers.closed`).
-/
import Mathlib
import HackVM.Proofs.Legibility

namespace HackVM.Assembly

/-- The line has neither a name nor a comment. -/
def Inst.isPlain : Inst → Bool
  | .load (.symbol _) | .label _ | .comment _ => false
  | .load (.const _) | .load (.reg _) | .assign _ _ | .branch _ _ => true

/-- The line is a comment. -/
def Inst.isComment : Inst → Bool
  | .comment _ => true
  | .load _ | .assign _ _ | .branch _ _ | .label _ => false

/-- `code` less its comments. -/
def withoutComments (code : List Inst) : List Inst := code.filter fun inst => !inst.isComment

theorem withoutComments_append (code rest : List Inst) :
    withoutComments (code ++ rest) = withoutComments code ++ withoutComments rest :=
  List.filter_append ..

end HackVM.Assembly

namespace HackVM.Compile

open Assembly Rom

/-! ## Plain code -/

/-- All lines of `code` are plain. -/
def Plain (code : List Inst) : Prop := code.all Inst.isPlain = true

theorem plain_append {code rest : List Inst} : Plain (code ++ rest) ↔ Plain code ∧ Plain rest := by
  rw [Plain, List.all_append, Bool.and_eq_true]
  rfl

theorem plain_cons {inst : Inst} {code : List Inst} :
    Plain (inst :: code) ↔ inst.isPlain = true ∧ Plain code := by
  rw [Plain, List.all_cons, Bool.and_eq_true]
  rfl

theorem Plain.withoutComments_eq {code : List Inst} (h : Plain code) :
    withoutComments code = code := by
  refine List.filter_eq_self.2 fun inst hinst => ?_
  have hplain := List.all_eq_true.1 h inst hinst
  cases inst with
  | comment text => cases hplain
  | _ => rfl

theorem Plain.loads {code : List Inst} (h : Plain code) : code.filterMap Inst.loaded? = [] := by
  refine List.filterMap_eq_nil_iff.2 fun inst hinst => ?_
  have hplain := List.all_eq_true.1 h inst hinst
  cases inst with
  | load address =>
    cases address with
    | symbol name => cases hplain
    | _ => rfl
  | _ => rfl

theorem plain_targetToA (base : Register) (index : Word) : Plain (targetToA base index) := by
  unfold targetToA
  split_ifs <;> rfl

theorem plain_targetToD (base : Register) (index : Word) : Plain (targetToD base index) := by
  unfold targetToD
  split_ifs <;> rfl

theorem isPlain_load {address : Address} (h : SmallOperand (.direct address)) :
    (Inst.load address).isPlain = true := by
  cases address with
  | symbol name => exact h.elim
  | _ => rfl

theorem plain_operandToD {source : Operand} (h : SmallOperand source) :
    Plain (operandToD source) := by
  cases source with
  | immediate value =>
    change Plain (constToD value)
    unfold constToD
    split_ifs <;> rfl
  | pointer base index => exact plain_append.2 ⟨plain_targetToA base index, rfl⟩
  | direct address => exact plain_cons.2 ⟨isPlain_load h, rfl⟩

theorem plain_storeViaSum (pops : Bool) : Plain (storeViaSum pops) := by cases pops <;> rfl

theorem plain_push {source : Operand} (h : SmallOperand source) : Plain (push source) :=
  plain_append.2 ⟨plain_operandToD h, rfl⟩

theorem plain_pop {target : Resolved} {code : List Inst} (h : SmallOperand target.operand)
    (hcode : pop target = .ok code) : Plain code := by
  obtain ⟨segment, operand⟩ := target
  unfold pop at hcode
  cases operand with
  | immediate value => cases hcode
  | direct address =>
    cases hcode
    exact plain_append.2 ⟨rfl, plain_cons.2 ⟨isPlain_load h, rfl⟩⟩
  | pointer base index =>
    dsimp only at hcode
    split_ifs at hcode
    · cases hcode
      exact plain_append.2 ⟨plain_append.2 ⟨rfl, plain_targetToA base index⟩, rfl⟩
    · cases hcode
      exact plain_append.2 ⟨plain_targetToD base index, plain_storeViaSum true⟩

theorem plain_move {source : Operand} {target : Resolved} {code : List Inst}
    (hs : SmallOperand source) (ht : SmallOperand target.operand)
    (hcode : move source target = .ok code) : Plain code := by
  obtain ⟨segment, operand⟩ := target
  unfold move at hcode
  have hsource := plain_operandToD hs
  cases operand with
  | immediate value => cases hcode
  | direct address =>
    cases hcode
    exact plain_append.2 ⟨hsource, plain_cons.2 ⟨isPlain_load ht, rfl⟩⟩
  | pointer base index =>
    dsimp only at hcode
    split_ifs at hcode
    · cases hcode
      exact plain_append.2 ⟨plain_append.2 ⟨hsource, plain_targetToA base index⟩, rfl⟩
    · cases hcode
      exact plain_append.2 ⟨plain_append.2 ⟨plain_append.2 ⟨hsource, rfl⟩,
        plain_targetToD base index⟩, plain_storeViaSum false⟩

theorem LowersMove.plain {s s' : State} {first second : Opcode} {code : List Inst}
    (h : LowersMove s first second code s') : Plain code := by
  cases h with
  | intro hsource htarget hcode =>
    exact plain_move (smallOperand_of_resolve hsource) (smallOperand_of_resolve htarget) hcode

/-- `function name locals` is the label `name` and plain code. -/
theorem exists_plain_function (name : String) (locals : Word) :
    ∃ rest, function name locals = .label name :: rest ∧ Plain rest := by
  unfold function
  split_ifs
  · exact ⟨[], rfl, rfl⟩
  · refine ⟨_, rfl, plain_append.2 ⟨plain_append.2 ⟨rfl, ?_⟩, rfl⟩⟩
    generalize locals.toNat = count
    induction count with
    | zero => rfl
    | succ count ih => exact plain_append.2 ⟨rfl, ih⟩

/-! ## Comments and loads -/

/-- Lowered code has no comments. -/
theorem Lowers.withoutComments_eq {s s' : State} {opcode : Opcode} {code : List Inst}
    (h : Lowers s opcode code s') : withoutComments code = code := by
  cases h with
  | push hsource => exact (plain_push (smallOperand_of_resolve hsource)).withoutComments_eq
  | pop htarget hcode =>
    exact (plain_pop (smallOperand_of_resolve htarget) hcode).withoutComments_eq
  | function name locals =>
    obtain ⟨rest, hcode, hplain⟩ := exists_plain_function name locals
    rw [hcode]
    exact congrArg (Inst.label name :: ·) hplain.withoutComments_eq
  | _ => rfl

/-- Every name that `code` loads is one of `targets` or a label of `code`. -/
def Closed (targets : List String) (code : List Inst) : Prop :=
  ∀ name ∈ code.filterMap Inst.loaded?, name ∈ targets ∨ name ∈ definitions code

theorem Closed.append {targets : List String} {code rest : List Inst} (h : Closed targets code)
    (hrest : Closed targets rest) : Closed targets (code ++ rest) := by
  intro name hname
  rw [List.filterMap_append, List.mem_append] at hname
  rw [definitions_append, List.mem_append]
  rcases hname with hname | hname
  · exact (h name hname).imp_right .inl
  · exact (hrest name hname).imp_right .inr

theorem Closed.mono {targets others : List String} {code : List Inst} (h : Closed targets code)
    (hsubset : targets ⊆ others) : Closed others code :=
  fun name hname => (h name hname).imp_left fun hmem => hsubset hmem

theorem Plain.closed {code : List Inst} (h : Plain code) (targets : List String) :
    Closed targets code := by
  intro name hname
  rw [h.loads] at hname
  exact absurd hname List.not_mem_nil

theorem closed_label (name : String) : Closed [] [.label name] :=
  fun _ hname => absurd hname List.not_mem_nil

theorem closed_call (callee : String) (args : Word) (returnLabel : String) :
    Closed [callee] (call callee args returnLabel) := by
  intro name hname
  have hloads : (call callee args returnLabel).filterMap Inst.loaded? =
      [returnLabel, callee] := rfl
  have hlabels : definitions (call callee args returnLabel) = [returnLabel] := rfl
  rw [hloads, List.mem_cons] at hname
  rw [hlabels]
  exact hname.symm.imp_right fun hreturn => List.mem_singleton.2 hreturn

/-- Lowered code is `Closed` under the targets of its opcode. -/
theorem Lowers.closed {s s' : State} {opcode : Opcode} {code : List Inst}
    (h : Lowers s opcode code s') : Closed opcode.targets code := by
  cases h with
  | @binary _ _ comp => exact (show Plain (Compile.binary comp) from rfl).closed _
  | @unary _ _ comp => exact (show Plain (Compile.unary comp) from rfl).closed _
  | comparison => exact fun name hname => .inr hname
  | push hsource => exact (plain_push (smallOperand_of_resolve hsource)).closed _
  | pop htarget hcode => exact (plain_pop (smallOperand_of_resolve htarget) hcode).closed _
  | label name => exact closed_label name
  | goto name => exact fun _ hname => .inl hname
  | ifGoto name => exact fun _ hname => .inl hname
  | function name locals =>
    obtain ⟨rest, hcode, hplain⟩ := exists_plain_function name locals
    rw [hcode]
    exact (closed_label name).append (hplain.closed _)
  | call hargs => exact closed_call _ _ _
  | ret => exact (show Plain Compile.ret from rfl).closed _

end HackVM.Compile
