/-
  Compiled code is legible: its constants are literals, its generated labels and the names that
  source text can give are `IsLabel`. The module name enters return labels as it stands, so a call
  is legible iff that name is `Inline`. A target that is all digits is the only other line that is
  not read as it is written (`AllSound`).
-/
import Mathlib
import HackVM.Proofs.Listing
import HackVM.Proofs.Lowering
import HackVM.Proofs.Reading

namespace HackVM.Compile

open Assembly Rom

/-! ## Operands and the stack -/

/-- All lines of `code` are `Legible`. -/
def AllLegible (code : List Inst) : Prop := ∀ inst ∈ code, inst.Legible

theorem allLegible_append {code rest : List Inst} :
    AllLegible (code ++ rest) ↔ AllLegible code ∧ AllLegible rest := List.forall_mem_append

theorem allLegible_cons {inst : Inst} {code : List Inst} :
    AllLegible (inst :: code) ↔ inst.Legible ∧ AllLegible code := List.forall_mem_cons

theorem allLegible_nil : AllLegible [] := fun _ h => absurd h List.not_mem_nil

theorem legible_reg (register : Register) : (Inst.reg register).Legible := trivial

theorem legible_const {value : Word} (h : value.toNat ≤ maxLiteral) :
    (Inst.const value).Legible := h

theorem legible_assign (dest : Dest) (comp : Comp) : (Inst.assign dest comp).Legible := trivial

theorem legible_branch (comp : Comp) (jump : Jump) : (Inst.branch comp jump).Legible := trivial

theorem legible_jump : Inst.jump.Legible := trivial

attribute [local simp] allLegible_append allLegible_cons allLegible_nil legible_reg legible_assign
  legible_branch legible_jump

/-- The number in an operand is at most `maxLiteral`. -/
def SmallOperand : Operand → Prop
  | .immediate value => value.toNat ≤ maxLiteral
  | .pointer _ index => index.toNat ≤ maxLiteral
  | .direct (.const address) => address.toNat ≤ maxLiteral
  | .direct (.reg _) => True
  | .direct (.symbol _) => False

theorem allLegible_pushD : AllLegible pushD := by simp [pushD]

theorem allLegible_popToD : AllLegible popToD := by simp [popToD]

theorem allLegible_topToA : AllLegible topToA := by simp [topToA]

theorem allLegible_targetToA (base : Register) {index : Word} (h : index.toNat ≤ maxLiteral) :
    AllLegible (targetToA base index) := by
  unfold targetToA
  split_ifs <;> simp [legible_const h]

theorem allLegible_targetToD (base : Register) {index : Word} (h : index.toNat ≤ maxLiteral) :
    AllLegible (targetToD base index) := by
  unfold targetToD
  split_ifs <;> simp [legible_const h]

theorem legible_load {address : Address} (h : SmallOperand (.direct address)) :
    (Inst.load address).Legible := by
  cases address with
  | const value => exact h
  | reg register => trivial
  | symbol name => exact h.elim

theorem allLegible_operandToD {source : Operand} (h : SmallOperand source) :
    AllLegible (operandToD source) := by
  cases source with
  | immediate value =>
    simp only [operandToD, constToD]
    split_ifs <;> simp [legible_const h]
  | pointer base index => simp [operandToD, allLegible_targetToA base h]
  | direct address => simp [operandToD, legible_load h]

theorem allLegible_storeViaSum (pops : Bool) : AllLegible (storeViaSum pops) := by
  cases pops <;> simp [storeViaSum]

theorem allLegible_push {source : Operand} (h : SmallOperand source) :
    AllLegible (push source) := by
  simp [push, allLegible_operandToD h, allLegible_pushD]

theorem allLegible_pop {target : Resolved} {code : List Inst} (h : SmallOperand target.operand)
    (hcode : pop target = .ok code) : AllLegible code := by
  obtain ⟨segment, operand⟩ := target
  cases operand with
  | immediate value => cases hcode
  | direct address =>
    cases hcode
    simp [allLegible_popToD, legible_load h]
  | pointer base index =>
    simp only [pop] at hcode
    split_ifs at hcode
    · cases hcode
      simp [allLegible_popToD, allLegible_targetToA base h]
    · cases hcode
      simp [allLegible_targetToD base h, allLegible_storeViaSum]

theorem allLegible_move {source : Operand} {target : Resolved} {code : List Inst}
    (hs : SmallOperand source) (ht : SmallOperand target.operand)
    (hcode : move source target = .ok code) : AllLegible code := by
  obtain ⟨segment, operand⟩ := target
  cases operand with
  | immediate value => cases hcode
  | direct address =>
    cases hcode
    simp [allLegible_operandToD hs, legible_load ht]
  | pointer base index =>
    simp only [move] at hcode
    split_ifs at hcode
    · cases hcode
      simp [allLegible_operandToD hs, allLegible_targetToA base ht]
    · cases hcode
      simp [allLegible_operandToD hs, allLegible_targetToD base ht, allLegible_storeViaSum]

theorem smallOperand_operand {statics : Statics} {index : Word} {segment : Segment}
    (h : index.toNat < segment.currentLimit statics) :
    SmallOperand (segment.operand statics index) := by
  cases segment with
  | lcl | arg | this | that | constant => exact Nat.le_of_lt_succ h
  | temp =>
    have hlimit : index.toNat < 8 := h
    simp only [SmallOperand, Segment.operand, Statics.saturatingAdd, maxLiteral]
    rw [show Segment.tempBase.toNat = 5 from rfl, UInt16.toNat_ofNat']
    exact (Nat.mod_le _ _).trans (by omega)
  | static =>
    have hlimit : index.toNat < Segment.literalCount - Segment.staticBase.toNat - statics.offset :=
      h.trans_le (min_le_right _ _)
    rw [show Segment.literalCount - Segment.staticBase.toNat = 32752 from rfl] at hlimit
    simp only [SmallOperand, Segment.operand, Statics.slot, Statics.saturatingAdd, maxLiteral]
    rw [show Segment.staticBase.toNat = 16 from rfl, UInt16.toNat_ofNat']
    exact (Nat.mod_le _ _).trans (by omega)
  | pointer =>
    have hcell : (Register.this.address + index).toNat ≤ maxLiteral := by
      have hlimit : index.toNat < 2 := h
      rw [UInt16.toNat_add, show Register.this.address.toNat = 3 from rfl]
      exact (Nat.mod_le _ _).trans (by simp only [maxLiteral]; omega)
    change SmallOperand (.direct (Segment.cellAt _))
    unfold Segment.cellAt
    cases Register.atAddress? (Register.this.address + index) with
    | none => exact hcell
    | some register => trivial

theorem smallOperand_of_resolve {s s' : State} {segment : String} {index : Word}
    {resolved : Resolved} (h : s.resolve segment index = (.ok resolved, s')) :
    SmallOperand resolved.operand := by
  obtain ⟨found, -, hlimit, rfl, -⟩ := resolve_eq_ok_iff.1 h
  exact smallOperand_operand hlimit

/-! ## Names -/

/-- A word that is not all digits. -/
def IsLabel (name : String) : Prop :=
  Text.IsWord name.toList ∧ name.toList.all Text.isDigit = false

theorem legible_symbol {name : String} (h : IsLabel name) : (Inst.symbol name).Legible :=
  ⟨h.1.inline, by rw [h.1.squeeze]; exact h.1.1, by rw [h.1.squeeze]; exact h.2⟩

theorem legible_label {name : String} (h : Text.IsWord name.toList) : (Inst.label name).Legible :=
  ⟨h.inline, by rw [h.squeeze]; exact h.1⟩

/-- `stem` followed by a number is a label, if `stem` is visible ASCII and not all digits. -/
theorem isLabel_numbered {stem : String} {n : Nat}
    (hvisible : ∀ c ∈ stem.toList, 32 < c.toNat ∧ c.toNat < 127 ∧ c ≠ '/')
    (hdigit : stem.toList.all Text.isDigit = false) : IsLabel (stem ++ toString n) := by
  rw [IsLabel, String.toList_append, List.all_append, hdigit, Bool.false_and]
  refine ⟨Text.isWord_of_visible ?_ fun c hc => ?_, rfl⟩
  · intro hnil
    rw [(List.append_eq_nil_iff.1 hnil).1] at hdigit
    cases hdigit
  · rcases List.mem_append.1 hc with hc | hc
    · exact hvisible c hc
    · exact Text.visible_toString c hc

theorem isLabel_compareTrue (id : UInt32) : IsLabel (Label.compareTrue id) :=
  isLabel_numbered (by simp) (by decide)

theorem isLabel_compareFinished (id : UInt32) : IsLabel (Label.compareFinished id) :=
  isLabel_numbered (by simp) (by decide)

theorem isLabel_halt : IsLabel Label.halt :=
  ⟨Text.isWord_of_visible (by simp [Label.halt]) (by simp [Label.halt]), by decide⟩

/-- A return label has a dot, so it is not all digits. -/
theorem legible_callReturn {moduleName callee : String} (id : UInt32)
    (hmodule : Text.Inline moduleName.toList) (hcallee : Text.IsWord callee.toList) :
    (Inst.symbol (Label.callReturn moduleName callee id)).Legible ∧
      (Inst.label (Label.callReturn moduleName callee id)).Legible := by
  have hlist : (Label.callReturn moduleName callee id).toList =
      moduleName.toList ++ '.' :: (callee.toList ++ '$' ::
        ("ret.".toList ++ (toString id.toNat).toList)) := by
    simp [Label.callReturn]
  have htail : Text.IsWord ("ret.".toList ++ (toString id.toNat).toList) := by
    rw [← String.toList_append]
    exact (isLabel_numbered (by simp) (by decide)).1
  have hinline : Text.Inline (Label.callReturn moduleName callee id).toList := by
    rw [hlist]
    constructor
    · simp only [List.mem_append, List.mem_cons, not_or]
      exact ⟨hmodule.1, by decide, hcallee.inline.1, by decide,
        not_or.1 fun h => htail.inline.1 (List.mem_append.2 h)⟩
    · rw [Text.uncommented_append_cons hmodule.2 (by decide),
        Text.uncommented_append_cons hcallee.uncommented (by decide), htail.uncommented]
  have hstop : '.' ∈ Text.squeeze (Label.callReturn moduleName callee id).toList := by
    rw [hlist]
    exact List.mem_filter.2 ⟨by simp, by decide⟩
  have hne := List.ne_nil_of_mem hstop
  refine ⟨⟨hinline, hne, ?_⟩, hinline, hne⟩
  rw [List.all_eq_false]
  exact ⟨'.', hstop, by decide⟩

/-! ## Opcodes -/

/-- All lines of `code` are `Legible`, except loads of `targets`. -/
def AllSound (targets : List String) (code : List Inst) : Prop :=
  ∀ inst ∈ code, inst.Legible ∨ ∃ name ∈ targets, inst = .symbol name

theorem allSound_append {targets : List String} {code rest : List Inst} :
    AllSound targets (code ++ rest) ↔ AllSound targets code ∧ AllSound targets rest :=
  List.forall_mem_append

theorem AllLegible.allSound {code : List Inst} (h : AllLegible code) (targets : List String) :
    AllSound targets code := fun inst hinst => .inl (h inst hinst)

theorem AllSound.allLegible {targets : List String} {code : List Inst} (h : AllSound targets code)
    (htargets : ∀ name ∈ targets, IsLabel name) : AllLegible code := by
  intro inst hinst
  rcases h inst hinst with hlegible | ⟨name, hname, rfl⟩
  · exact hlegible
  · exact legible_symbol (htargets name hname)

theorem allSound_symbol (name : String) : AllSound [name] [.symbol name] := fun _ hinst =>
  .inr ⟨name, List.mem_singleton_self _, List.mem_singleton.1 hinst⟩

theorem allLegible_binary (comp : Comp) : AllLegible (binary comp) := by
  simp [binary, allLegible_popToD]

theorem allLegible_unary (comp : Comp) : AllLegible (unary comp) := by
  simp [unary, allLegible_topToA]

theorem allLegible_comparison (jump : Jump) (id : UInt32) : AllLegible (comparison jump id) := by
  simp [comparison, allLegible_popToD, allLegible_topToA, legible_symbol, legible_label,
    isLabel_compareTrue, isLabel_compareFinished, (isLabel_compareTrue id).1,
    (isLabel_compareFinished id).1]

theorem allLegible_function {name : String} (locals : Word) (h : Text.IsWord name.toList) :
    AllLegible (function name locals) := by
  unfold function
  split_ifs
  · simp [legible_label h]
  · simp only [allLegible_append]
    refine ⟨⟨by simp [legible_label h], fun inst hinst => ?_⟩, by simp⟩
    obtain ⟨pair, hpair, hinst⟩ := List.mem_flatten.1 hinst
    rw [List.eq_of_mem_replicate hpair] at hinst
    simp only [List.mem_cons, List.not_mem_nil, or_false] at hinst
    rcases hinst with rfl | rfl <;> trivial

theorem allSound_call {moduleName callee : String} {args : Word} (id : UInt32)
    (hargs : args.toNat < argumentLimit) (hmodule : Text.Inline moduleName.toList)
    (hcallee : Text.IsWord callee.toList) :
    AllSound [callee] (call callee args (Label.callReturn moduleName callee id)) := by
  have hliteral : (args + frameSize).toNat ≤ maxLiteral := by
    have hlt : args.toNat < 32763 := hargs
    rw [UInt16.toNat_add]
    exact (Nat.mod_le _ _).trans (by simp [frameSize, maxLiteral]; omega)
  obtain ⟨hload, hlabel⟩ := legible_callReturn id hmodule hcallee
  have hsplit : call callee args (Label.callReturn moduleName callee id) =
      ([.symbol (Label.callReturn moduleName callee id), .assign .d (.src .a)] ++ pushD ++
        [Register.lcl, .arg, .this, .that].flatMap pushRegister ++
        [.reg .sp, .assign .d (.src .m), .reg .lcl, .assign .m .d, .const (args + frameSize),
          .assign .d (.sub .a), .reg .arg, .assign .m .d]) ++
      [.symbol callee] ++ [.jump, .label (Label.callReturn moduleName callee id)] := by
    simp [call]
  rw [hsplit, allSound_append, allSound_append]
  refine ⟨⟨AllLegible.allSound ?_ _, allSound_symbol callee⟩, AllLegible.allSound ?_ _⟩
  · simp [pushRegister, allLegible_pushD, hload, legible_const hliteral]
  · simp [hlabel]

theorem allLegible_ret : AllLegible ret := by
  simp [ret, restore, allLegible_popToD,
    legible_const (show frameSize.toNat ≤ maxLiteral by decide)]

theorem allLegible_halt : AllLegible halt := by
  simp [halt, legible_label isLabel_halt.1, legible_symbol isLabel_halt]

theorem allSound_bootstrap {entry : String} (id : UInt32) (h : Text.IsWord entry.toList) :
    AllSound [entry] (bootstrap entry (Label.callReturn bootModule entry id)) := by
  have hbase : (Inst.const Segment.stackBase).Legible := legible_const (by decide)
  refine allSound_append.2 ⟨AllLegible.allSound ?_ _, allSound_call id ?_ ?_ h⟩
  · simp [hbase]
  · exact show (0 : Word).toNat < argumentLimit by decide
  · exact show Text.Inline bootModule.toList by decide

/-- The opcode is a call. -/
def isCall : Opcode → Bool
  | .call _ _ => true
  | _ => false

/-- The names of `opcode` are words, and if it is a call its module name is `Inline`. -/
def Writable (moduleName : String) (opcode : Opcode) : Prop :=
  (∀ name ∈ opcode.names, Text.IsWord name.toList) ∧
    (isCall opcode = true → Text.Inline moduleName.toList)

/-- The code of a `Writable` opcode is legible, except loads of its targets. -/
theorem Lowers.allSound {s s' : State} {opcode : Opcode} {code : List Inst}
    (h : Lowers s opcode code s') (hw : Writable s.moduleName opcode) :
    AllSound opcode.targets code := by
  cases h with
  | binary => exact (allLegible_binary _).allSound _
  | unary => exact (allLegible_unary _).allSound _
  | comparison => exact (allLegible_comparison _ _).allSound _
  | push hsource => exact (allLegible_push (smallOperand_of_resolve hsource)).allSound _
  | pop htarget hcode => exact (allLegible_pop (smallOperand_of_resolve htarget) hcode).allSound _
  | label name =>
    refine AllLegible.allSound ?_ _
    simp [Compile.label, legible_label (hw.1 name (List.mem_singleton_self _))]
  | goto name =>
    exact allSound_append.2 ⟨allSound_symbol name, AllLegible.allSound (by simp) _⟩
  | ifGoto name =>
    exact allSound_append.2 ⟨allLegible_popToD.allSound _,
      allSound_append.2 ⟨allSound_symbol name, AllLegible.allSound (by simp) _⟩⟩
  | function name locals =>
    exact (allLegible_function locals (hw.1 name (List.mem_singleton_self _))).allSound _
  | @call callee args hargs =>
    exact allSound_call _ hargs (hw.2 rfl) (hw.1 callee (List.mem_singleton_self _))
  | ret => exact allLegible_ret.allSound _

theorem LowersMove.allLegible {s s' : State} {first second : Opcode} {code : List Inst}
    (h : LowersMove s first second code s') : AllLegible code := by
  cases h with
  | intro hsource htarget hcode =>
    exact allLegible_move (smallOperand_of_resolve hsource) (smallOperand_of_resolve htarget) hcode

/-! ## Steps -/

theorem allLegible_comments {options : Options} {texts : List String}
    (h : ∀ text ∈ texts, '\n' ∉ text.toList) : AllLegible (comments options texts) := by
  unfold comments
  split_ifs
  · intro inst hinst
    obtain ⟨text, htext, rfl⟩ := List.mem_map.1 hinst
    exact h text htext
  · exact allLegible_nil

/-- The code of a step is legible, except loads of the targets of its commands. -/
theorem allSound_compileStep {options : Options} {s : State} {step : Step} {targets : List String}
    (hitems : ∀ command, .ok command ∈ step.items → command.Printable ∧
      Writable s.moduleName command.opcode ∧ command.opcode.targets ⊆ targets) :
    AllSound targets (compileStep options s step).1.code := by
  refine compileStep_induction (fun _ hnil => absurd hnil List.not_mem_nil)
    (fun code rest hcode hrest => allSound_append.2 ⟨hcode, hrest⟩) ?_ ?_ ?_
  · intro _ command hitem
    refine AllLegible.allSound (fun inst hinst => ?_) _
    rw [List.mem_singleton.1 hinst]
    exact (hitems command hitem).1.2
  · intro command hitem s₁ code s₂ hcurrent hlowers
    obtain ⟨-, hwritable, hsubset⟩ := hitems command hitem
    have hmodule : s₁.moduleName = s.moduleName := by rw [State.moduleName, hcurrent]; rfl
    intro inst hinst
    refine (hlowers.allSound (hmodule ▸ hwritable) inst hinst).imp_right ?_
    rintro ⟨name, hname, rfl⟩
    exact ⟨name, hsubset hname, rfl⟩
  · intro first second code s₁ hmove
    exact hmove.allLegible.allSound _

end HackVM.Compile
