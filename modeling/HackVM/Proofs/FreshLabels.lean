/-
  Generated labels. `Generated.name` determines the family and the number, for any module and
  function names (`Generated.alike_of_name_eq`), and a session of operations in any order draws the
  numbers of comparisons and calls consecutively (`Numbered`, `numbered_perform`). Hence no
  generated label is defined twice (`generated_labels_unique`).
-/
import Mathlib
import HackVM.Proofs.Listing
import HackVM.Proofs.Lowering
import HackVM.Sweep

namespace HackVM

open Assembly

/-! ## Names -/

namespace Label

/-- The labels that the compiler generates: two per comparison, one per call, and the halt loop. -/
inductive Generated where
  | compareTrue (id : UInt32)
  | compareFinished (id : UInt32)
  | callReturn (moduleName callee : String) (id : UInt32)
  | halt
deriving DecidableEq

namespace Generated

def name : Generated → String
  | .compareTrue id => Label.compareTrue id
  | .compareFinished id => Label.compareFinished id
  | .callReturn moduleName callee id => Label.callReturn moduleName callee id
  | .halt => Label.halt

/-- The same family and the same number. -/
def Alike : Generated → Generated → Prop
  | .compareTrue id, .compareTrue other => id = other
  | .compareFinished id, .compareFinished other => id = other
  | .callReturn _ _ id, .callReturn _ _ other => id = other
  | .halt, .halt => True
  | _, _ => False

end Generated

theorem not_mem_toString {n : Nat} : '.' ∉ (toString n).toList := by
  intro h
  have := Text.toNat_of_isDigit (Text.isDigit_of_mem_toString h)
  simp at this

/-- The number of a return label is what stands behind its last dot. -/
theorem takeWhile_callReturn (moduleName callee : String) (id : UInt32) :
    (callReturn moduleName callee id).toList.reverse.takeWhile (· != '.') =
      (toString id.toNat).toList.reverse := by
  have hdot : (callReturn moduleName callee id).toList.reverse =
      (toString id.toNat).toList.reverse ++
        '.' :: ((moduleName ++ "." ++ callee ++ "$ret").toList.reverse) := by
    simp [callReturn]
  rw [hdot, List.takeWhile_append_of_pos]
  · simp
  · intro c hc
    rw [bne_iff_ne]
    rintro rfl
    exact not_mem_toString (List.mem_reverse.1 hc)

theorem mem_callReturn (moduleName callee : String) (id : UInt32) :
    '.' ∈ (callReturn moduleName callee id).toList := by
  simp [callReturn]

theorem not_mem_numbered {stem : String} (h : '.' ∉ stem.toList) (n : Nat) :
    '.' ∉ (stem ++ toString n).toList := by
  rw [String.toList_append, List.mem_append, not_or]
  exact ⟨h, not_mem_toString⟩

/-- Equal texts have equal prefixes of length `k`, within both stems. -/
theorem take_stem {stem other rest rest' : String} (h : stem ++ rest = other ++ rest') (k : Nat)
    (hstem : k ≤ stem.toList.length) (hother : k ≤ other.toList.length) :
    stem.toList.take k = other.toList.take k := by
  have hchars := congrArg (List.take k) (congrArg String.toList h)
  rwa [String.toList_append, String.toList_append, List.take_append_of_le_length hstem,
    List.take_append_of_le_length hother] at hchars

namespace Generated

/-- Only return labels have a dot in their names. -/
theorem not_mem_name {label : Generated} (h : ∀ m c id, label ≠ .callReturn m c id) :
    '.' ∉ label.name.toList := by
  cases label with
  | compareTrue id => exact not_mem_numbered (by decide) _
  | compareFinished id => exact not_mem_numbered (by decide) _
  | callReturn moduleName callee id => exact absurd rfl (h moduleName callee id)
  | halt => decide

/-- `name` determines the family and the number. -/
theorem alike_of_name_eq {first second : Generated} (h : first.name = second.name) :
    Alike first second := by
  have hdot : ∀ {m c id} {label : Generated}, label.name = (callReturn m c id).name →
      (∀ m c id, label ≠ .callReturn m c id) → False := fun {m c id label} hname hother =>
    not_mem_name hother (hname ▸ mem_callReturn m c id)
  have hhalt : halt.name = Label.halt ++ "" := rfl
  cases first with
  | callReturn moduleName callee id =>
    cases second with
    | callReturn moduleName' callee' id' =>
      have hdigits := takeWhile_callReturn moduleName callee id
      rw [show Label.callReturn moduleName callee id =
          Label.callReturn moduleName' callee' id' from h, takeWhile_callReturn, List.reverse_inj,
        String.toList_inj] at hdigits
      exact UInt32.toNat_inj.1 (Nat.repr_injective hdigits).symm
    | _ => exact (hdot h.symm (by simp)).elim
  | compareTrue id =>
    cases second with
    | compareTrue id' =>
      have := (String.append_right_inj "_COMPARE_TRUE").1 h
      exact UInt32.toNat_inj.1 (Nat.repr_injective this)
    | callReturn moduleName callee id' => exact (hdot h (by simp)).elim
    | compareFinished id' => exact absurd (take_stem h 10 (by decide) (by decide)) (by decide)
    | halt => exact absurd (take_stem (h.trans hhalt) 2 (by decide) (by decide)) (by decide)
  | compareFinished id =>
    cases second with
    | compareFinished id' =>
      have := (String.append_right_inj "_COMPARE_FINISHED").1 h
      exact UInt32.toNat_inj.1 (Nat.repr_injective this)
    | callReturn moduleName callee id' => exact (hdot h (by simp)).elim
    | compareTrue id' => exact absurd (take_stem h 10 (by decide) (by decide)) (by decide)
    | halt => exact absurd (take_stem (h.trans hhalt) 2 (by decide) (by decide)) (by decide)
  | halt =>
    cases second with
    | halt => trivial
    | callReturn moduleName callee id' => exact (hdot h (by simp)).elim
    | compareTrue id' =>
      exact absurd (take_stem (hhalt.symm.trans h) 2 (by decide) (by decide)) (by decide)
    | compareFinished id' =>
      exact absurd (take_stem (hhalt.symm.trans h) 2 (by decide) (by decide)) (by decide)

/-- The number of a `compareTrue` label. -/
def trueId? : Generated → Option UInt32
  | .compareTrue id => some id
  | .compareFinished _ | .callReturn _ _ _ | .halt => none

/-- The number of a `compareFinished` label. -/
def finishedId? : Generated → Option UInt32
  | .compareFinished id => some id
  | .compareTrue _ | .callReturn _ _ _ | .halt => none

/-- The number of a `callReturn` label. -/
def returnId? : Generated → Option UInt32
  | .callReturn _ _ id => some id
  | .compareTrue _ | .compareFinished _ | .halt => none

theorem ne_of_nodup {id? : Generated → Option UInt32} {label : Generated} {labels : List Generated}
    {id : UInt32} (h : ((label :: labels).filterMap id?).Nodup) (hid : id? label = some id) :
    ∀ other ∈ labels, id? other ≠ some id := by
  rw [List.filterMap_cons_some hid, List.nodup_cons] at h
  exact fun other hother heq => h.1 (List.mem_filterMap.2 ⟨other, hother, heq⟩)

/-- Labels with distinct numbers in each family have distinct names. -/
theorem nodup_names {labels : List Generated} (htrue : (labels.filterMap trueId?).Nodup)
    (hfinished : (labels.filterMap finishedId?).Nodup)
    (hreturn : (labels.filterMap returnId?).Nodup) (hhalt : labels.count .halt ≤ 1) :
    (labels.map name).Nodup := by
  induction labels with
  | nil => exact List.nodup_nil
  | cons label labels ih =>
    have hfresh : ∀ other ∈ labels, ¬Alike label other := by
      intro other hother halike
      cases label with
      | compareTrue id =>
        cases other <;> cases halike
        exact ne_of_nodup htrue rfl _ hother rfl
      | compareFinished id =>
        cases other <;> cases halike
        exact ne_of_nodup hfinished rfl _ hother rfl
      | callReturn moduleName callee id =>
        cases other <;> cases halike
        exact ne_of_nodup hreturn rfl _ hother rfl
      | halt =>
        cases other <;> cases halike
        rw [List.count_cons_self] at hhalt
        have := List.count_pos_iff.2 hother
        omega
    have hnames : (labels.map name).Nodup := by
      refine ih (htrue.sublist ?_) (hfinished.sublist ?_) (hreturn.sublist ?_)
        (le_trans (List.Sublist.count_le _ (List.sublist_cons_self ..)) hhalt) <;>
      exact (List.sublist_cons_self ..).filterMap _
    rw [List.map_cons, List.nodup_cons]
    refine ⟨fun hmem => ?_, hnames⟩
    obtain ⟨other, hother, heq⟩ := List.mem_map.1 hmem
    exact hfresh other hother (alike_of_name_eq heq.symm)

end Generated

end Label

namespace Compile

open Label (Generated)

/-! ## Operations and what they lower -/

/-- The operations of the emitter. -/
inductive Operation where
  | setModule (name : String)
  | translate (command : Command)
  | translatePair (first second : Command)
  | bootstrap (entry : Entry)

namespace Operation

/-- What an operation adds to the output, and the state behind it: `enter`, `compileCommand`,
`compilePair` or `compileBootstrap`. -/
def perform (options : Options) (s : State) : Operation → Emission × State
  | .setModule name => ({ events := (s.enter name).2 }, (s.enter name).1)
  | .translate command => compileCommand options s command
  | .translatePair first second => compilePair options s first second
  | .bootstrap entry => compileBootstrap options s entry

end Operation

/-- The kind of a piece of code, with the number drawn for it. -/
inductive Purpose where
  | comparison (id : UInt32)
  | call (moduleName callee : String) (id : UInt32)
  | bootstrap (function : String) (id : UInt32)
  | halt
  | other
deriving DecidableEq

namespace Purpose

/-- The labels generated for a purpose. -/
def labels : Purpose → List Generated
  | .comparison id => [.compareTrue id, .compareFinished id]
  | .call moduleName callee id => [.callReturn moduleName callee id]
  | .bootstrap function id => [.callReturn bootModule function id]
  | .halt => [.halt]
  | .other => []

def compareId? : Purpose → Option UInt32
  | .comparison id => some id
  | .call _ _ _ | .bootstrap _ _ | .halt | .other => none

def callId? : Purpose → Option UInt32
  | .call _ _ id | .bootstrap _ id => some id
  | .comparison _ | .halt | .other => none

def isComparison : Purpose → Bool
  | .comparison _ => true
  | .call _ _ _ | .bootstrap _ _ | .halt | .other => false

def isCall : Purpose → Bool
  | .call _ _ _ => true
  | .comparison _ | .bootstrap _ _ | .halt | .other => false

def isBootstrap : Purpose → Bool
  | .bootstrap _ _ => true
  | .comparison _ | .call _ _ _ | .halt | .other => false

/-- The purpose of the code of an opcode in state `s`. -/
def ofOpcode (s : State) : Opcode → Purpose
  | .arithmetic word =>
    if (Arith.ofWord word).toOption.any Arith.isComparison then .comparison s.comparisons
    else .other
  | .call callee _ => .call s.moduleName callee s.calls
  | .push _ _ | .pop _ _ | .label _ | .goto _ | .ifGoto _ | .function _ _ | .ret => .other

end Purpose

/-- A piece of code with its purpose. -/
structure Lowering where
  purpose : Purpose
  code : List Inst

/-- The code of a command with its purpose, nothing if it is refused. -/
def lowerings (options : Options) (s : State) (command : Command) : List Lowering :=
  match lower s command.opcode with
  | .ok lowered =>
    [⟨.ofOpcode s command.opcode, comments options [command.sourceText] ++ lowered.code⟩]
  | .error _ => []

/-- The pieces of code of an operation. -/
def Operation.lowerings (options : Options) (s : State) : Operation → List Lowering
  | .setModule _ => []
  | .translate command => Compile.lowerings options s command
  | .translatePair first second =>
    match lowerMove s first.opcode second.opcode with
    | .ok lowered =>
      [⟨.other, comments options [first.sourceText, second.sourceText] ++ lowered.code⟩]
    | .error _ =>
      Compile.lowerings options s first ++
        Compile.lowerings options (compileCommand options s first).2 second
  | .bootstrap entry =>
    if s.bootstrapped then []
    else
      [⟨.bootstrap entry.function s.calls,
        comments options ["bootstrap: call " ++ entry.function] ++
          Compile.bootstrap entry.function (Label.callReturn bootModule entry.function s.calls)⟩]

/-- The pieces of code of `compileEnd`. -/
def endLowerings (options : Options) (s : State) : List Lowering :=
  if s.bootstrapped then [] else [⟨.halt, comments options ["halt"] ++ halt⟩]

/-! ## Code and its labels -/

theorem code_lowerings (options : Options) (s : State) (command : Command) :
    (compileCommand options s command).1.code =
      (lowerings options s command).flatMap Lowering.code := by
  unfold compileCommand lowerings
  cases lower s command.opcode with
  | ok lowered => exact (List.append_nil _).symm
  | error fault => rfl

/-- The code of an operation is the concatenation of its lowerings. -/
theorem Operation.code_perform (options : Options) (s : State) (operation : Operation) :
    (operation.perform options s).1.code =
      (operation.lowerings options s).flatMap Lowering.code := by
  cases operation with
  | setModule name => rfl
  | translate command => exact code_lowerings ..
  | translatePair first second =>
    simp only [perform, lowerings]
    cases hmove : lowerMove s first.opcode second.opcode with
    | ok lowered =>
      rw [compilePair, hmove]
      exact (List.append_nil _).symm
    | error attempt =>
      rw [compilePair_of_error options hmove, List.flatMap_append, ← code_lowerings,
        ← code_lowerings]
      rfl
  | bootstrap entry =>
    simp only [perform, lowerings, compileBootstrap]
    split_ifs
    · rfl
    · have hcalls : (s.enter bootModule).1.calls = s.calls := by
        unfold State.enter
        split_ifs <;> rfl
      simp only [State.returnLabel, hcalls]
      exact (List.append_nil _).symm

theorem code_compileEnd (options : Options) (s : State) :
    (compileEnd options s).code = (endLowerings options s).flatMap Lowering.code := by
  unfold compileEnd endLowerings
  split_ifs
  · rfl
  · exact (List.append_nil _).symm

/-- Code with a purpose other than `other` defines exactly the labels of its purpose. -/
def Lowering.Defines (lowering : Lowering) : Prop :=
  lowering.purpose ≠ .other →
    definitions lowering.code = lowering.purpose.labels.map Generated.name

theorem definitions_comments (options : Options) (texts : List String) :
    definitions (comments options texts) = [] := by
  unfold comments
  split_ifs
  · rw [definitions, List.filterMap_map]
    exact List.filterMap_eq_nil_iff.2 fun _ _ => rfl
  · rfl

theorem isComparison_of_ofWord {word : String} {arith : Arith} (h : Arith.ofWord word = .ok arith) :
    (Arith.ofWord word).toOption.any Arith.isComparison = arith.isComparison := by
  rw [h]
  rfl

theorem defines_lowerings {options : Options} {s : State} {command : Command} {lowering : Lowering}
    (h : lowering ∈ lowerings options s command) : lowering.Defines := by
  unfold lowerings at h
  cases hlower : lower s command.opcode with
  | error fault =>
    rw [hlower] at h
    cases h
  | ok lowered =>
    rw [hlower] at h
    cases List.mem_singleton.1 h
    intro hpurpose
    have hlowers := lowers_of_lower hlower
    rw [definitions_append, definitions_comments, List.nil_append]
    generalize command.opcode = opcode, lowered.code = code, lowered.state = s' at *
    cases hlowers with
    | @comparison word arith jump hword hshape =>
      simp only [Purpose.ofOpcode, isComparison_of_ofWord hword, Arith.isComparison, hshape]
      rfl
    | @binary word arith comp hword hshape =>
      simp [Purpose.ofOpcode, isComparison_of_ofWord hword, Arith.isComparison, hshape] at hpurpose
    | @unary word arith comp hword hshape =>
      simp [Purpose.ofOpcode, isComparison_of_ofWord hword, Arith.isComparison, hshape] at hpurpose
    | call hargs => rfl
    | _ => exact absurd rfl hpurpose

theorem Operation.defines {options : Options} {s : State} {operation : Operation}
    {lowering : Lowering} (h : lowering ∈ operation.lowerings options s) : lowering.Defines := by
  cases operation with
  | setModule name => cases h
  | translate command => exact defines_lowerings h
  | translatePair first second =>
    rw [lowerings] at h
    split at h
    · cases List.mem_singleton.1 h
      exact fun hpurpose => absurd rfl hpurpose
    · rcases List.mem_append.1 h with h | h
      · exact defines_lowerings h
      · exact defines_lowerings h
  | bootstrap entry =>
    rw [lowerings] at h
    split_ifs at h
    · cases h
    · cases List.mem_singleton.1 h
      intro _
      rw [definitions_append, definitions_comments]
      rfl

theorem defines_endLowerings {options : Options} {s : State} {lowering : Lowering}
    (h : lowering ∈ endLowerings options s) : lowering.Defines := by
  unfold endLowerings at h
  split_ifs at h
  · cases h
  · cases List.mem_singleton.1 h
    intro _
    rw [definitions_append, definitions_comments]
    rfl

/-! ## Numbers -/

/-- `ids` are the numbers from `before` up to `after`, in order, modulo `2 ^ 32`. -/
def Consecutive (ids : List UInt32) (before after : UInt32) : Prop :=
  ids = (List.range ids.length).map (fun k => before + UInt32.ofNat k) ∧
    after = before + UInt32.ofNat ids.length

theorem consecutive_nil (counter : UInt32) : Consecutive [] counter counter :=
  ⟨rfl, (UInt32.add_zero counter).symm⟩

theorem consecutive_singleton (counter : UInt32) : Consecutive [counter] counter (counter + 1) :=
  ⟨by simp, rfl⟩

theorem Consecutive.append {ids rest : List UInt32} {first second third : UInt32}
    (h : Consecutive ids first second) (hrest : Consecutive rest second third) :
    Consecutive (ids ++ rest) first third := by
  obtain ⟨hids, rfl⟩ := h
  obtain ⟨hothers, rfl⟩ := hrest
  constructor
  · rw [List.length_append, List.range_add, List.map_append, ← hids, List.map_map]
    refine congrArg (ids ++ ·) (hothers.trans (List.map_congr_left fun k _ => ?_))
    rw [Function.comp_apply, UInt32.ofNat_add, UInt32.add_assoc]
  · rw [List.length_append, UInt32.ofNat_add, UInt32.add_assoc]

/-- At most `2 ^ 32` consecutive numbers from zero are distinct. -/
theorem Consecutive.nodup {ids : List UInt32} {after : UInt32} (h : Consecutive ids 0 after)
    (hlength : ids.length ≤ 2 ^ 32) : ids.Nodup := by
  rw [h.1]
  refine List.Nodup.map_on (fun m hm n hn heq => ?_) List.nodup_range
  rw [List.mem_range] at hm hn
  rw [UInt32.zero_add, UInt32.zero_add] at heq
  have := congrArg UInt32.toNat heq
  rwa [UInt32.toNat_ofNat_of_lt' (hm.trans_le hlength),
    UInt32.toNat_ofNat_of_lt' (hn.trans_le hlength)] at this

/-- The comparison numbers of `lowerings`. -/
def compareIds (lowerings : List Lowering) : List UInt32 :=
  lowerings.filterMap fun lowering => lowering.purpose.compareId?

/-- The call numbers of `lowerings`, bootstraps included. -/
def callIds (lowerings : List Lowering) : List UInt32 :=
  lowerings.filterMap fun lowering => lowering.purpose.callId?

/-- The number of bootstraps among `lowerings`. -/
def bootstrapCount (lowerings : List Lowering) : Nat :=
  lowerings.countP fun lowering => lowering.purpose.isBootstrap

/-- From `s` to `s'`, `lowerings` draw consecutive comparison and call numbers; a bootstrap is
written only if there is none, and no halt loop. -/
structure Numbered (s : State) (lowerings : List Lowering) (s' : State) : Prop where
  comparisons : Consecutive (compareIds lowerings) s.comparisons s'.comparisons
  calls : Consecutive (callIds lowerings) s.calls s'.calls
  bootstraps : s.bootstrapped.toNat + bootstrapCount lowerings = s'.bootstrapped.toNat
  halts : ∀ lowering ∈ lowerings, lowering.purpose ≠ .halt

/-- Code with purpose `other` draws no numbers. -/
theorem numbered_of_other {s s' : State} {lowerings : List Lowering}
    (hother : ∀ lowering ∈ lowerings, lowering.purpose = .other)
    (hcomparisons : s'.comparisons = s.comparisons) (hcalls : s'.calls = s.calls)
    (hbootstrapped : s'.bootstrapped = s.bootstrapped) : Numbered s lowerings s' := by
  have hcompare : compareIds lowerings = [] :=
    List.filterMap_eq_nil_iff.2 fun lowering h => by rw [hother lowering h]; rfl
  have hcall : callIds lowerings = [] :=
    List.filterMap_eq_nil_iff.2 fun lowering h => by rw [hother lowering h]; rfl
  have hboot : bootstrapCount lowerings = 0 :=
    List.countP_eq_zero.2 fun lowering h => by rw [hother lowering h]; exact Bool.false_ne_true
  refine ⟨?_, ?_, ?_, fun lowering h => ?_⟩
  · rw [hcompare, hcomparisons]
    exact consecutive_nil _
  · rw [hcall, hcalls]
    exact consecutive_nil _
  · rw [hboot, hbootstrapped]
    rfl
  · rw [hother lowering h]
    nofun

theorem numbered_nil {s s' : State} (hcomparisons : s'.comparisons = s.comparisons)
    (hcalls : s'.calls = s.calls) (hbootstrapped : s'.bootstrapped = s.bootstrapped) :
    Numbered s [] s' :=
  numbered_of_other (fun _ hmem => absurd hmem List.not_mem_nil) hcomparisons hcalls hbootstrapped

theorem Numbered.append {s₁ s₂ s₃ : State} {first second : List Lowering}
    (h : Numbered s₁ first s₂) (hnext : Numbered s₂ second s₃) :
    Numbered s₁ (first ++ second) s₃ := by
  refine ⟨?_, ?_, ?_, fun lowering hmem => ?_⟩
  · rw [compareIds, List.filterMap_append]
    exact h.comparisons.append hnext.comparisons
  · rw [callIds, List.filterMap_append]
    exact h.calls.append hnext.calls
  · rw [bootstrapCount, List.countP_append, ← Nat.add_assoc, ← hnext.bootstraps, ← h.bootstraps]
    rfl
  · rcases List.mem_append.1 hmem with hmem | hmem
    · exact h.halts lowering hmem
    · exact hnext.halts lowering hmem

theorem resolve_counters {s s' : State} {name : String} {index : Word} {resolved : Resolved}
    (h : s.resolve name index = (.ok resolved, s')) :
    s'.comparisons = s.comparisons ∧ s'.calls = s.calls ∧ s'.bootstrapped = s.bootstrapped := by
  obtain ⟨segment, -, -, -, rfl⟩ := resolve_eq_ok_iff.1 h
  exact ⟨rfl, rfl, rfl⟩

/-- A command draws the numbers it is lowered with, a refused one none. -/
theorem numbered_lowerings (options : Options) (s : State) (command : Command) :
    Numbered s (lowerings options s command) (compileCommand options s command).2 := by
  unfold lowerings compileCommand
  cases hlower : lower s command.opcode with
  | error refusal =>
    dsimp only
    rw [(of_lower_error hlower).1]
    exact numbered_nil rfl rfl rfl
  | ok lowered =>
    have hlowers := lowers_of_lower hlower
    dsimp only
    generalize comments options [command.sourceText] ++ lowered.code = written
    generalize command.opcode = opcode, lowered.code = code, lowered.state = s' at hlowers
    have hother : Purpose.ofOpcode s opcode = .other →
        ∀ lowering ∈ [(⟨.ofOpcode s opcode, written⟩ : Lowering)], lowering.purpose = .other :=
      fun hpurpose lowering hmem => by rw [List.mem_singleton.1 hmem]; exact hpurpose
    cases hlowers with
    | @comparison word arith jump hword hshape =>
      have hpurpose : Purpose.ofOpcode s (.arithmetic word) = .comparison s.comparisons := by
        simp only [Purpose.ofOpcode, isComparison_of_ofWord hword, Arith.isComparison, hshape,
          if_true]
      rw [hpurpose]
      exact ⟨consecutive_singleton _, consecutive_nil _, rfl, by simp⟩
    | call hargs =>
      exact ⟨consecutive_nil _, consecutive_singleton _, rfl, by simp [Purpose.ofOpcode]⟩
    | @binary word arith comp hword hshape =>
      refine numbered_of_other (hother ?_) rfl rfl rfl
      simp [Purpose.ofOpcode, isComparison_of_ofWord hword, Arith.isComparison, hshape]
    | @unary word arith comp hword hshape =>
      refine numbered_of_other (hother ?_) rfl rfl rfl
      simp [Purpose.ofOpcode, isComparison_of_ofWord hword, Arith.isComparison, hshape]
    | push hsource =>
      obtain ⟨hcomparisons, hcalls, hbootstrapped⟩ := resolve_counters hsource
      exact numbered_of_other (hother rfl) hcomparisons hcalls hbootstrapped
    | pop htarget hcode =>
      obtain ⟨hcomparisons, hcalls, hbootstrapped⟩ := resolve_counters htarget
      exact numbered_of_other (hother rfl) hcomparisons hcalls hbootstrapped
    | _ => exact numbered_of_other (hother rfl) rfl rfl rfl

theorem enter_counters (s : State) (name : String) :
    (s.enter name).1.comparisons = s.comparisons ∧ (s.enter name).1.calls = s.calls ∧
      (s.enter name).1.bootstrapped = s.bootstrapped := by
  unfold State.enter
  split_ifs <;> exact ⟨rfl, rfl, rfl⟩

/-- Step lemma: every operation is `Numbered`. -/
theorem Operation.numbered (options : Options) (s : State) (operation : Operation) :
    Numbered s (operation.lowerings options s) (operation.perform options s).2 := by
  cases operation with
  | setModule name =>
    obtain ⟨hcomparisons, hcalls, hbootstrapped⟩ := enter_counters s name
    exact numbered_nil hcomparisons hcalls hbootstrapped
  | translate command => exact numbered_lowerings options s command
  | translatePair first second =>
    rw [lowerings, perform]
    cases hmove : lowerMove s first.opcode second.opcode with
    | error attempt =>
      rw [compilePair_of_error options hmove]
      exact (numbered_lowerings options s first).append (numbered_lowerings ..)
    | ok lowered =>
      have hlowers := lowersMove_of_lowerMove hmove
      rw [compilePair, hmove]
      dsimp only
      generalize comments options _ ++ lowered.code = written
      generalize lowered.state = s₂, lowered.code = code at hlowers
      generalize first.opcode = one, second.opcode = two at hlowers
      cases hlowers with
      | intro hsource htarget hcode =>
        obtain ⟨hcomparisons, hcalls, hbootstrapped⟩ := resolve_counters hsource
        obtain ⟨hcomparisons', hcalls', hbootstrapped'⟩ := resolve_counters htarget
        refine numbered_of_other (fun lowering hmem => ?_) (hcomparisons'.trans hcomparisons)
          (hcalls'.trans hcalls) (hbootstrapped'.trans hbootstrapped)
        rw [List.mem_singleton.1 hmem]
  | bootstrap entry =>
    obtain ⟨hcomparisons, hcalls, -⟩ := enter_counters s bootModule
    rw [lowerings, perform, compileBootstrap]
    cases hbootstrapped : s.bootstrapped with
    | true => exact numbered_nil rfl rfl rfl
    | false =>
      refine ⟨?_, ?_, ?_, ?_⟩
      · simp only [Bool.false_eq_true, if_false, State.returnLabel, hcomparisons]
        exact consecutive_nil _
      · simp only [Bool.false_eq_true, if_false, State.returnLabel, hcalls]
        exact consecutive_singleton _
      · rw [hbootstrapped]
        rfl
      · intro lowering hmem
        rw [List.mem_singleton.1 hmem]
        exact Purpose.noConfusion

/-! ## Sessions -/

/-- The emission of an operation, and its lowerings. -/
structure Work where
  emission : Emission
  lowerings : List Lowering

/-- Operations performed in order from the initial state, then `compileEnd`. -/
structure Session where
  options : Options
  operations : List Operation

namespace Session

/-- The work of `operations` from `s`, and the state after them. -/
def perform (options : Options) (s : State) (operations : List Operation) : List Work × State :=
  sweep (fun s operation =>
    (⟨(operation.perform options s).1, operation.lowerings options s⟩,
      (operation.perform options s).2)) s operations

variable (session : Session)

/-- The state after the last operation. -/
def final : State := (perform session.options {} session.operations).2

/-- The work of all operations and of `compileEnd`. -/
def works : List Work :=
  (perform session.options {} session.operations).1 ++
    [⟨compileEnd session.options session.final, endLowerings session.options session.final⟩]

/-- All lowerings of the session, in order. -/
def lowerings : List Lowering := session.works.flatMap Work.lowerings

/-- All labels generated in the session, in order. -/
def generated : List Generated :=
  session.lowerings.flatMap fun lowering => lowering.purpose.labels

/-- The labels defined by code with a purpose other than `other`. -/
def generatedDefinitions : List String :=
  (session.lowerings.filter fun lowering => lowering.purpose ≠ .other).flatMap fun lowering =>
    definitions lowering.code

/-- The number of comparisons lowered. -/
def comparisons : Nat := session.lowerings.countP fun lowering => lowering.purpose.isComparison

/-- The number of calls lowered, bootstraps not included. -/
def calls : Nat := session.lowerings.countP fun lowering => lowering.purpose.isCall

/-- The number of bootstraps written. -/
def bootstraps : Nat := bootstrapCount session.lowerings

theorem perform_cons (options : Options) (s : State) (operation : Operation)
    (operations : List Operation) :
    perform options s (operation :: operations) =
      (⟨(operation.perform options s).1, operation.lowerings options s⟩ ::
          (perform options (operation.perform options s).2 operations).1,
        (perform options (operation.perform options s).2 operations).2) := sweep_cons ..

/-- Run lemma: a list of operations is `Numbered`. -/
theorem numbered_perform (options : Options) (s : State) (operations : List Operation) :
    Numbered s ((perform options s operations).1.flatMap Work.lowerings)
      (perform options s operations).2 := by
  induction operations generalizing s with
  | nil => exact numbered_nil rfl rfl rfl
  | cons operation operations ih =>
    rw [perform_cons, List.flatMap_cons]
    exact (operation.numbered options s).append (ih _)

theorem of_mem_perform {options : Options} {s : State} {operations : List Operation} {work : Work}
    (h : work ∈ (perform options s operations).1) :
    work.emission.code = work.lowerings.flatMap Lowering.code ∧
      ∀ lowering ∈ work.lowerings, lowering.Defines := by
  induction operations generalizing s with
  | nil => cases h
  | cons operation operations ih =>
    rw [perform_cons] at h
    rcases List.mem_cons.1 h with rfl | h
    · exact ⟨operation.code_perform options s, fun lowering hmem => Operation.defines hmem⟩
    · exact ih h

/-- The code of a work is the concatenation of its lowerings, and each of these `Defines` its
labels. -/
theorem of_mem_works {work : Work} (h : work ∈ session.works) :
    work.emission.code = work.lowerings.flatMap Lowering.code ∧
      ∀ lowering ∈ work.lowerings, lowering.Defines := by
  rcases List.mem_append.1 h with h | h
  · exact of_mem_perform h
  · rw [List.mem_singleton.1 h]
    exact ⟨code_compileEnd .., fun lowering hmem => defines_endLowerings hmem⟩

theorem lowerings_eq : session.lowerings =
    (perform session.options {} session.operations).1.flatMap Work.lowerings ++
      endLowerings session.options session.final := by
  rw [lowerings, works, List.flatMap_append, List.flatMap_singleton]

/-- `compileEnd` draws no comparison number. -/
theorem compareIds_eq : compareIds session.lowerings =
    compareIds ((perform session.options {} session.operations).1.flatMap Work.lowerings) := by
  rw [lowerings_eq, compareIds, List.filterMap_append, ← compareIds, endLowerings]
  split_ifs <;> exact List.append_nil _

theorem callIds_eq : callIds session.lowerings =
    callIds ((perform session.options {} session.operations).1.flatMap Work.lowerings) := by
  rw [lowerings_eq, callIds, List.filterMap_append, ← callIds, endLowerings]
  split_ifs <;> exact List.append_nil _

theorem bootstraps_eq : session.bootstraps = session.final.bootstrapped.toNat := by
  have h := (numbered_perform session.options {} session.operations).bootstraps
  rw [show ({} : State).bootstrapped.toNat = 0 from rfl, Nat.zero_add] at h
  rw [bootstraps, lowerings_eq, bootstrapCount, List.countP_append, ← bootstrapCount, h,
    endLowerings]
  split_ifs <;> rfl

theorem consecutive_comparisons :
    Consecutive (compareIds session.lowerings) 0 session.final.comparisons := by
  rw [compareIds_eq]
  exact (numbered_perform session.options {} session.operations).comparisons

theorem consecutive_calls : Consecutive (callIds session.lowerings) 0 session.final.calls := by
  rw [callIds_eq]
  exact (numbered_perform session.options {} session.operations).calls

/-- The halt loop is written iff there is no bootstrap. -/
theorem count_halt : session.generated.count .halt = 1 - session.bootstraps := by
  have hhalts := (numbered_perform session.options {} session.operations).halts
  rw [generated, lowerings_eq, List.flatMap_append, List.count_append,
    List.count_eq_zero_of_not_mem, Nat.zero_add, bootstraps_eq, endLowerings]
  · split_ifs with hboot
    · rw [hboot]
      rfl
    · rw [Bool.eq_false_of_not_eq_true hboot]
      rfl
  · rw [List.mem_flatMap]
    rintro ⟨lowering, hmem, hhalt⟩
    have hne := hhalts lowering hmem
    cases hpurpose : lowering.purpose with
    | halt => exact hne hpurpose
    | _ => simp [hpurpose, Purpose.labels] at hhalt

theorem length_compareIds : (compareIds session.lowerings).length = session.comparisons := by
  rw [compareIds, comparisons, List.length_filterMap_eq_countP]
  refine List.countP_congr fun lowering _ => ?_
  cases lowering.purpose <;> rfl

theorem length_callIds :
    (callIds session.lowerings).length = session.calls + session.bootstraps := by
  have hone : ∀ purpose : Purpose, (if purpose.callId?.isSome then 1 else 0) =
      (if purpose.isCall then 1 else 0) + if purpose.isBootstrap then 1 else 0 := by
    intro purpose
    cases purpose <;> rfl
  rw [callIds, calls, bootstraps, bootstrapCount, List.length_filterMap_eq_countP]
  induction session.lowerings with
  | nil => rfl
  | cons lowering lowerings ih =>
    rw [List.countP_cons, List.countP_cons, List.countP_cons, ih, hone]
    omega

/-- The numbers of a family are those of the purposes that generate it. -/
theorem filterMap_generated (id? : Generated → Option UInt32) (ofPurpose? : Purpose → Option UInt32)
    (h : ∀ purpose, purpose.labels.filterMap id? = (ofPurpose? purpose).toList) :
    session.generated.filterMap id? =
      session.lowerings.filterMap fun lowering => ofPurpose? lowering.purpose := by
  rw [generated]
  induction session.lowerings with
  | nil => rfl
  | cons lowering lowerings ih =>
    rw [List.flatMap_cons, List.filterMap_append, ih, h, List.filterMap_cons]
    cases ofPurpose? lowering.purpose <;> rfl

/-- Code with a purpose of its own defines the generated labels, in order. -/
theorem generatedDefinitions_eq :
    session.generatedDefinitions = session.generated.map Generated.name := by
  have hdefines : ∀ lowering ∈ session.lowerings, lowering.Defines := by
    intro lowering hmem
    obtain ⟨work, hwork, hmem⟩ := List.mem_flatMap.1 hmem
    exact (session.of_mem_works hwork).2 lowering hmem
  rw [generatedDefinitions, generated]
  generalize session.lowerings = lowerings at hdefines
  induction lowerings with
  | nil => rfl
  | cons lowering lowerings ih =>
    have hrest := ih fun other hother => hdefines other (List.mem_cons_of_mem _ hother)
    rw [List.flatMap_cons, List.map_append, ← hrest]
    by_cases hpurpose : lowering.purpose = .other
    · rw [List.filter_cons_of_neg (by simp [hpurpose]), hpurpose]
      rfl
    · rw [List.filter_cons_of_pos (by simp [hpurpose]), List.flatMap_cons,
        hdefines lowering List.mem_cons_self hpurpose]

theorem nodup_generated (hcomparisons : session.comparisons < 2 ^ 32)
    (hcalls : session.calls < 2 ^ 32) : (session.generated.map Generated.name).Nodup := by
  have hcompare : (compareIds session.lowerings).Nodup :=
    session.consecutive_comparisons.nodup (by rw [length_compareIds]; exact hcomparisons.le)
  have hboot : session.bootstraps ≤ 1 := by
    rw [bootstraps_eq]
    exact Bool.toNat_le _
  refine Generated.nodup_names ?_ ?_ ?_ ?_
  · rw [session.filterMap_generated Generated.trueId? Purpose.compareId? fun purpose => by
      cases purpose <;> rfl]
    exact hcompare
  · rw [session.filterMap_generated Generated.finishedId? Purpose.compareId? fun purpose => by
      cases purpose <;> rfl]
    exact hcompare
  · rw [session.filterMap_generated Generated.returnId? Purpose.callId? fun purpose => by
      cases purpose <;> rfl]
    exact session.consecutive_calls.nodup (by rw [length_callIds]; omega)
  · rw [count_halt]
    exact Nat.sub_le _ _

/-- **Generated labels.** In a session of any operations with fewer than `2 ^ 32` comparisons and
calls, the generated labels have distinct names. Each is defined in the emission of the operation
that generates it, and once in all code of comparisons, calls, bootstraps and the halt loop. There
is at most one bootstrap, a halt loop iff there is none, and the counters are the numbers of
comparisons and calls. -/
theorem generated_labels_unique (hcomparisons : session.comparisons < 2 ^ 32)
    (hcalls : session.calls < 2 ^ 32) :
    (∀ work ∈ session.works, work.emission.code = work.lowerings.flatMap Lowering.code) ∧
      (session.generated.map Generated.name).Nodup ∧
      (∀ work ∈ session.works, ∀ lowering ∈ work.lowerings, ∀ label ∈ lowering.purpose.labels,
        .label label.name ∈ work.emission.code ∧
          session.generatedDefinitions.count label.name = 1) ∧
      session.bootstraps ≤ 1 ∧
      (.halt ∈ session.generated ↔ session.bootstraps = 0) ∧
      compareIds session.lowerings = (List.range session.comparisons).map UInt32.ofNat ∧
      session.final.comparisons.toNat = session.comparisons ∧
      callIds session.lowerings =
        (List.range (session.calls + session.bootstraps)).map UInt32.ofNat ∧
      (session.calls + session.bootstraps < 2 ^ 32 →
        session.final.calls.toNat = session.calls + session.bootstraps) := by
  have hnodup := session.nodup_generated hcomparisons hcalls
  have hboot : session.bootstraps ≤ 1 := by
    rw [bootstraps_eq]
    exact Bool.toNat_le _
  obtain ⟨hcompareIds, hcompared⟩ := session.consecutive_comparisons
  obtain ⟨hcallIds, hcalled⟩ := session.consecutive_calls
  simp only [UInt32.zero_add, length_compareIds] at hcompareIds hcompared
  simp only [UInt32.zero_add, length_callIds] at hcallIds hcalled
  refine ⟨fun work hwork => (session.of_mem_works hwork).1, hnodup,
    fun work hwork lowering hlowering label hlabel => ⟨?_, ?_⟩, hboot, ?_, hcompareIds, ?_,
    hcallIds, fun hlt => ?_⟩
  · obtain ⟨hcode, hdefines⟩ := session.of_mem_works hwork
    rw [hcode, List.mem_flatMap]
    have hpurpose : lowering.purpose ≠ .other := by
      intro hother
      rw [hother] at hlabel
      cases hlabel
    refine ⟨lowering, hlowering, mem_definitions.1 ?_⟩
    rw [hdefines lowering hlowering hpurpose]
    exact List.mem_map_of_mem hlabel
  · rw [generatedDefinitions_eq]
    refine List.count_eq_one_of_mem hnodup (List.mem_map_of_mem ?_)
    exact List.mem_flatMap.2 ⟨lowering, List.mem_flatMap.2 ⟨work, hwork, hlowering⟩, hlabel⟩
  · rw [← List.count_pos_iff, count_halt]
    omega
  · rw [hcompared, UInt32.toNat_ofNat_of_lt' hcomparisons]
  · rw [hcalled, UInt32.toNat_ofNat_of_lt' hlt]

end Session

/-- A session with a module whose name looks like a return label, two comparisons of which one is
asked for as a pair, a call from each of two modules, a rejected command and a second bootstrap. -/
def mixedSession : Session :=
  ⟨{ comments := true },
    [.setModule "Boot.f$ret.0", .translate ⟨.arithmetic "eq", "eq", ⟨"A", 1⟩⟩,
      .bootstrap ⟨"Sys", "f"⟩, .translate ⟨.call "f$ret.1" 0, "call f$ret.1 0", ⟨"A", 2⟩⟩,
      .translatePair ⟨.arithmetic "lt", "lt", ⟨"A", 3⟩⟩
        ⟨.push "nowhere" 0, "push nowhere 0", ⟨"A", 4⟩⟩,
      .bootstrap ⟨"Sys", "f"⟩, .setModule "Boot", .translate ⟨.call "f" 0, "call f 0", ⟨"A", 5⟩⟩]⟩

theorem generated_labels_unique_mixed :
    (mixedSession.comparisons = 2 ∧ mixedSession.calls = 2) ∧
      (mixedSession.generated.map Generated.name).Nodup ∧ mixedSession.bootstraps ≤ 1 ∧
      mixedSession.final.calls.toNat = 3 ∧ .halt ∉ mixedSession.generated := by
  have hcomparisons : mixedSession.comparisons = 2 := by decide +kernel
  have hcalls : mixedSession.calls = 2 := by decide +kernel
  have hbootstraps : mixedSession.bootstraps = 1 := by decide +kernel
  obtain ⟨-, hnodup, -, hboot, hhalt, -, -, -, hcalled⟩ := mixedSession.generated_labels_unique
    (by rw [hcomparisons]; decide) (by rw [hcalls]; decide)
  rw [hcalls, hbootstraps] at hcalled
  refine ⟨⟨hcomparisons, hcalls⟩, hnodup, hboot, hcalled (by decide), fun hmem => ?_⟩
  rw [hhalt, hbootstraps] at hmem
  cases hmem

end Compile

end HackVM
