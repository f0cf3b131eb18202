/-
  Inversion lemmas of the compiler: `resolve_cases` for `State.resolve`, `Lowers` for `lower`,
  `compileCommand_of_clean` and `compilePair_of_clean` for a step without diagnostics. A resolution
  or an opcode that is refused returns the state unchanged (`of_resolve_error`, `of_lower_error`),
  and a pair that cannot be moved compiles as its two commands (`compilePair_of_error`).
  `compileStep_induction` reduces properties of code to those of lowered code.
-/
import Mathlib
import HackVM.Compile.Emission

namespace HackVM

open Assembly

/-! ## Resolving -/

namespace Segment

/-- `locate` as a table: the operand of `index` in each segment. -/
def operand (statics : Statics) (index : Word) : Segment → Operand
  | .lcl => .pointer .lcl index
  | .arg => .pointer .arg index
  | .this => .pointer .this index
  | .that => .pointer .that index
  | .temp => .direct (.const (UInt16.ofNat (Statics.saturatingAdd tempBase.toNat index.toNat)))
  | .static => .direct (.const (UInt16.ofNat
      (Statics.saturatingAdd staticBase.toNat (statics.slot index.toNat))))
  | .constant => .immediate index
  | .pointer => .direct (cellAt (Register.this.address + index))

/-- `locate` never gives `none`: the indirect segments have registers as bases. Only `static`
changes `statics`. -/
theorem locate_eq (statics : Statics) (index : Word) (segment : Segment) :
    segment.locate statics index =
      (some (segment.operand statics index),
        if segment.isPerModule then statics.use index.toNat else statics) := by
  cases segment with
  | pointer => simp [locate, isImmediate, isIndirect, isPerModule, base, Base.cell, operand]
  | _ => rfl

end Segment

namespace Compile

/-- Inversion of `State.resolve`: an unknown name or an index beyond the limit is refused in state
`s`; otherwise the operand is given and only `statics` may change. -/
theorem resolve_cases (s : State) (name : String) (index : Word) :
    (Segment.ofName? name = none ∧ s.resolve name index = (.error (.invalidSegment name), s)) ∨
    (∃ segment, Segment.ofName? name = some segment ∧
      segment.currentLimit s.statics ≤ index.toNat ∧
      s.resolve name index = (.error (.indexOutOfRange segment.name index.toNat
        (segment.currentLimit s.statics)), s)) ∨
    ∃ segment, Segment.ofName? name = some segment ∧
      index.toNat < segment.currentLimit s.statics ∧
      s.resolve name index = (.ok ⟨segment, segment.operand s.statics index⟩,
        { s with statics :=
          if segment.isPerModule then s.statics.use index.toNat else s.statics }) := by
  simp only [State.resolve, Segment.resolve]
  cases Segment.ofName? name with
  | none => exact .inl ⟨rfl, rfl⟩
  | some segment =>
    by_cases hlimit : segment.currentLimit s.statics ≤ index.toNat
    · exact .inr (.inl ⟨segment, rfl, hlimit, by simp only [if_pos hlimit]⟩)
    · refine .inr (.inr ⟨segment, rfl, Nat.lt_of_not_le hlimit, ?_⟩)
      simp only [if_neg hlimit, Segment.locate_eq]

theorem resolve_eq_ok_iff {s s' : State} {name : String} {index : Word} {resolved : Resolved} :
    s.resolve name index = (.ok resolved, s') ↔
      ∃ segment, Segment.ofName? name = some segment ∧
        index.toNat < segment.currentLimit s.statics ∧
        resolved = ⟨segment, segment.operand s.statics index⟩ ∧
        s' = { s with statics :=
          if segment.isPerModule then s.statics.use index.toNat else s.statics } := by
  obtain ⟨hname, hresolve⟩ | ⟨segment, hname, hlimit, hresolve⟩ |
      ⟨segment, hname, hlimit, hresolve⟩ := resolve_cases s name index
  · simp [hresolve, hname]
  · simp [hresolve, hname, hlimit.not_gt]
  · rw [hresolve, hname]
    simp only [Prod.mk.injEq, Except.ok.injEq, Option.some.injEq, exists_eq_left', hlimit, true_and]
    exact and_congr eq_comm eq_comm

/-- A resolution that fails returns `s`, and its fault is not `malformed`. -/
theorem of_resolve_error {s s' : State} {name : String} {index : Word} {fault : Fault}
    (h : s.resolve name index = (.error fault, s')) :
    s' = s ∧ ∀ location message, fault ≠ .malformed location message := by
  obtain ⟨-, hresolve⟩ | ⟨segment, -, -, hresolve⟩ | ⟨segment, -, -, hresolve⟩ :=
    resolve_cases s name index
  · rw [hresolve] at h
    cases h
    exact ⟨rfl, nofun⟩
  · rw [hresolve] at h
    cases h
    exact ⟨rfl, nofun⟩
  · rw [hresolve] at h
    cases h

/-- Resolving a constant returns `s`. -/
theorem state_of_immediate {s s' : State} {name : String} {index value : Word}
    {resolved : Resolved} (h : s.resolve name index = (.ok resolved, s'))
    (hoperand : resolved.operand = .immediate value) : s' = s := by
  obtain ⟨segment, -, -, rfl, rfl⟩ := resolve_eq_ok_iff.1 h
  cases segment with
  | constant => rfl
  | _ => cases hoperand

theorem resolve_current {s s' : State} {name : String} {index : Word} {resolved : Resolved}
    (h : s.resolve name index = (.ok resolved, s')) : s'.current = s.current := by
  obtain ⟨segment, -, -, -, rfl⟩ := resolve_eq_ok_iff.1 h
  rfl

/-- Resolving the same name and index again gives the same operand and state. -/
theorem resolve_again {s s' : State} {name : String} {index : Word} {resolved : Resolved}
    (h : s.resolve name index = (.ok resolved, s')) :
    s'.resolve name index = (.ok resolved, s') := by
  obtain ⟨segment, hname, hlimit, rfl, rfl⟩ := resolve_eq_ok_iff.1 h
  refine resolve_eq_ok_iff.2 ⟨segment, hname, ?_⟩
  cases hunique : segment.isPerModule with
  | false => exact ⟨hlimit, rfl, rfl⟩
  | true =>
    -- The limit and the operand look at the offset only, which stays.
    have hlimit' : segment.currentLimit (s.statics.use index.toNat) =
        segment.currentLimit s.statics := rfl
    have hoperand : segment.operand (s.statics.use index.toNat) index =
        segment.operand s.statics index := by cases segment <;> rfl
    have huse : (s.statics.use index.toNat).use index.toNat = s.statics.use index.toNat := by
      simp only [Statics.use, max_assoc, max_self]
    simp only [if_true, hlimit', hoperand, huse]
    exact ⟨hlimit, trivial, trivial⟩

/-! ## Opcodes -/

/-- `lower s opcode` succeeds with the given code and state, by cases of the opcode. -/
inductive Lowers (s : State) : Opcode → List Inst → State → Prop where
  | binary {word : String} {arith : Arith} {comp : Comp} (hword : Arith.ofWord word = .ok arith)
      (hshape : arith.shape = .binary comp) : Lowers s (.arithmetic word) (binary comp) s
  | unary {word : String} {arith : Arith} {comp : Comp} (hword : Arith.ofWord word = .ok arith)
      (hshape : arith.shape = .unary comp) : Lowers s (.arithmetic word) (unary comp) s
  | comparison {word : String} {arith : Arith} {jump : Jump} (hword : Arith.ofWord word = .ok arith)
      (hshape : arith.shape = .comparison jump) :
      Lowers s (.arithmetic word) (comparison jump s.comparisons) s.compareLabels.2
  | push {segment : String} {index : Word} {source : Resolved} {s' : State}
      (hsource : s.resolve segment index = (.ok source, s')) :
      Lowers s (.push segment index) (push source.operand) s'
  | pop {segment : String} {index : Word} {target : Resolved} {s' : State} {code : List Inst}
      (htarget : s.resolve segment index = (.ok target, s')) (hcode : pop target = .ok code) :
      Lowers s (.pop segment index) code s'
  | label (name : String) : Lowers s (.label name) (label name) s
  | goto (name : String) : Lowers s (.goto name) (goto name) s
  | ifGoto (name : String) : Lowers s (.ifGoto name) (ifGoto name) s
  | function (name : String) (locals : Word) :
      Lowers s (.function name locals) (function name locals) s
  | call {callee : String} {args : Word} (hargs : args.toNat < argumentLimit) :
      Lowers s (.call callee args)
        (call callee args (Label.callReturn s.moduleName callee s.calls))
        { s with calls := s.calls + 1 }
  | ret : Lowers s .ret ret s

theorem lowers_of_lower {s : State} {opcode : Opcode} {lowered : Lowered}
    (h : lower s opcode = .ok lowered) : Lowers s opcode lowered.code lowered.state := by
  cases opcode with
  | arithmetic word =>
    rw [lower] at h
    split at h
    · cases h
    · rename_i arith hword
      split at h
      all_goals
        rename_i hshape
        cases h
      · exact .binary hword hshape
      · exact .unary hword hshape
      · exact .comparison hword hshape
  | push segment index =>
    rw [lower] at h
    split at h
    · cases h
    · rename_i hsource
      cases h
      exact .push hsource
  | pop segment index =>
    rw [lower] at h
    split at h
    · cases h
    · rename_i htarget
      split at h
      · cases h
      · rename_i hcode
        cases h
        exact .pop htarget hcode
  | label name => cases h; exact .label name
  | goto name => cases h; exact .goto name
  | ifGoto name => cases h; exact .ifGoto name
  | function name locals => cases h; exact .function name locals
  | call callee args =>
    simp only [lower] at h
    split_ifs at h with hargs
    cases h
    exact .call hargs
  | ret => cases h; exact .ret

theorem of_pop_error {target : Resolved} {fault : Fault} (h : pop target = .error fault) :
    (∃ value, target.operand = .immediate value) ∧
      ∀ location message, fault ≠ .malformed location message := by
  rw [pop] at h
  split at h
  · cases h
    exact ⟨⟨_, by assumption⟩, nofun⟩
  · cases h
  · split_ifs at h

theorem immediate_of_move_error {source : Operand} {target : Resolved} {fault : Fault}
    (h : move source target = .error fault) : ∃ value, target.operand = .immediate value := by
  rw [move] at h
  split at h
  · exact ⟨_, by assumption⟩
  · cases h
  · split_ifs at h

/-- A refusal returns `s`: labels are drawn after the last test, and a pop refused after `resolve`
is one into a constant, which allocates nothing. Its fault is not `malformed`. -/
theorem of_lower_error {s : State} {opcode : Opcode} {refusal : Refusal}
    (h : lower s opcode = .error refusal) :
    refusal.state = s ∧ ∀ location message, refusal.fault ≠ .malformed location message := by
  cases opcode with
  | arithmetic word =>
    rw [lower] at h
    split at h
    · rename_i fault hword
      cases h
      rw [Arith.ofWord] at hword
      split at hword
      · cases hword
      · cases hword
        exact ⟨rfl, nofun⟩
    · split at h <;> cases h
  | push segment index =>
    rw [lower] at h
    split at h
    · rename_i hsource
      cases h
      exact of_resolve_error hsource
    · cases h
  | pop segment index =>
    rw [lower] at h
    split at h
    · rename_i htarget
      cases h
      exact of_resolve_error htarget
    · rename_i htarget
      split at h
      · rename_i hcode
        cases h
        obtain ⟨⟨value, hvalue⟩, hfault⟩ := of_pop_error hcode
        exact ⟨state_of_immediate htarget hvalue, hfault⟩
      · cases h
  | call callee args =>
    simp only [lower] at h
    split_ifs at h
    cases h
    exact ⟨rfl, nofun⟩
  | _ => cases h

theorem Lowers.current {s s' : State} {opcode : Opcode} {code : List Inst}
    (h : Lowers s opcode code s') : s'.current = s.current := by
  cases h with
  | push h => exact resolve_current h
  | pop h => exact resolve_current h
  | _ => rfl

/-! ## Steps -/

/-- A command without diagnostics is lowered; its code follows its comment. -/
theorem compileCommand_of_clean {options : Options} {s : State} {command : Command}
    (h : (compileCommand options s command).1.diagnostics = []) :
    ∃ code, Lowers s command.opcode code (compileCommand options s command).2 ∧
      (compileCommand options s command).1.code =
        comments options [command.sourceText] ++ code := by
  unfold compileCommand at h ⊢
  cases hlower : lower s command.opcode with
  | ok lowered => exact ⟨lowered.code, lowers_of_lower hlower, rfl⟩
  | error refusal =>
    simp only [hlower] at h
    exact absurd h (List.cons_ne_nil _ _)

/-- The code of a command is empty, or its comment and lowered code. -/
theorem code_compileCommand (options : Options) (s : State) (command : Command) :
    (compileCommand options s command).1.code = [] ∨
      ∃ code, Lowers s command.opcode code (compileCommand options s command).2 ∧
        (compileCommand options s command).1.code =
          comments options [command.sourceText] ++ code := by
  unfold compileCommand
  cases hlower : lower s command.opcode with
  | ok lowered => exact .inr ⟨lowered.code, lowers_of_lower hlower, rfl⟩
  | error refusal => exact .inl rfl

/-- `lowerMove` succeeds with the given code and state. -/
inductive LowersMove (s : State) : Opcode → Opcode → List Inst → State → Prop where
  | intro {segment segment' : String} {index index' : Word} {source target : Resolved}
      {s₁ s₂ : State} {code : List Inst}
      (hsource : s.resolve segment index = (.ok source, s₁))
      (htarget : s₁.resolve segment' index' = (.ok target, s₂))
      (hcode : move source.operand target = .ok code) :
      LowersMove s (.push segment index) (.pop segment' index') code s₂

theorem LowersMove.current {s s' : State} {first second : Opcode} {code : List Inst}
    (h : LowersMove s first second code s') : s'.current = s.current := by
  cases h with
  | intro hsource htarget => exact (resolve_current htarget).trans (resolve_current hsource)

theorem lowersMove_of_lowerMove {s : State} {first second : Opcode} {lowered : Lowered}
    (h : lowerMove s first second = .ok lowered) :
    LowersMove s first second lowered.code lowered.state := by
  unfold lowerMove at h
  split at h
  · split at h
    · cases h
    · rename_i hsource
      split at h
      · cases h
      · rename_i htarget
        split at h
        · rename_i hcode
          cases h
          exact ⟨hsource, htarget, hcode⟩
        · cases h
  · cases h

/-- A failed `lowerMove` returns `s`, or the state after the push. -/
theorem state_of_lowerMove_error {s s' : State} {first second : Opcode} {events : List Event}
    (h : lowerMove s first second = .error (events, s')) :
    s' = s ∨ ∃ segment index source, first = .push segment index ∧
      s.resolve segment index = (.ok source, s') := by
  unfold lowerMove at h
  split at h
  · split at h
    · rename_i hsource
      cases h
      exact .inl (of_resolve_error hsource).1
    · rename_i hsource
      refine .inr ⟨_, _, _, rfl, hsource.trans (congrArg _ ?_)⟩
      split at h
      · rename_i htarget
        cases h
        exact (of_resolve_error htarget).1.symm
      · rename_i htarget
        split at h
        · cases h
        · rename_i hcode
          cases h
          obtain ⟨value, hvalue⟩ := immediate_of_move_error hcode
          exact (state_of_immediate htarget hvalue).symm
  · cases h
    exact .inl rfl

/-- After a failed `lowerMove` the push compiles as from `s`. -/
theorem compileCommand_of_lowerMove_error (options : Options) {s s' : State} {first : Command}
    {second : Opcode} {events : List Event}
    (h : lowerMove s first.opcode second = .error (events, s')) :
    compileCommand options s' first = compileCommand options s first := by
  rcases state_of_lowerMove_error h with rfl | ⟨segment, index, source, hfirst, hsource⟩
  · rfl
  · have hlower : ∀ t : State, t.resolve segment index = (.ok source, s') →
        lower t first.opcode = .ok ⟨push source.operand, s', source.events⟩ := by
      intro t ht
      rw [hfirst, lower, ht]
    rw [compileCommand, compileCommand, hlower s hsource, hlower s' (resolve_again hsource)]

/-- After a failed `lowerMove` the pair compiles as its two commands from `s`. -/
theorem compilePair_of_error (options : Options) {s s' : State} {first second : Command}
    {events : List Event}
    (h : lowerMove s first.opcode second.opcode = .error (events, s')) :
    compilePair options s first second =
      (({ events } : Emission) ++ (compileCommand options s first).1 ++
          (compileCommand options (compileCommand options s first).2 second).1,
        (compileCommand options (compileCommand options s first).2 second).2) := by
  unfold compilePair
  rw [h]
  simp only [compileCommand_of_lowerMove_error options h]

/-- A pair without diagnostics is one move, or two commands without diagnostics. -/
theorem compilePair_of_clean {options : Options} {s : State} {first second : Command}
    (h : (compilePair options s first second).1.diagnostics = []) :
    (∃ code, LowersMove s first.opcode second.opcode code (compilePair options s first second).2 ∧
      (compilePair options s first second).1.code =
        comments options [first.sourceText, second.sourceText] ++ code) ∨
    ∃ s₁ one two, Lowers s first.opcode one s₁ ∧
      Lowers s₁ second.opcode two (compilePair options s first second).2 ∧
      (compilePair options s first second).1.code = comments options [first.sourceText] ++ one ++
        (comments options [second.sourceText] ++ two) := by
  cases hmove : lowerMove s first.opcode second.opcode with
  | ok lowered =>
    unfold compilePair
    rw [hmove]
    exact .inl ⟨lowered.code, lowersMove_of_lowerMove hmove, rfl⟩
  | error attempt =>
    rw [compilePair_of_error options hmove] at h ⊢
    obtain ⟨hone, htwo⟩ := List.append_eq_nil_iff.1 h
    obtain ⟨one, hone, hcode⟩ := compileCommand_of_clean ((List.nil_append _).symm.trans hone)
    obtain ⟨two, htwo, hcode'⟩ := compileCommand_of_clean htwo
    exact .inr ⟨_, one, two, hone, htwo,
      congrArg₂ (· ++ ·) ((List.nil_append _).trans hcode) hcode'⟩

theorem compileCommand_current (options : Options) (s : State) (command : Command) :
    (compileCommand options s command).2.current = s.current := by
  unfold compileCommand
  cases hlower : lower s command.opcode with
  | ok lowered => exact (lowers_of_lower hlower).current
  | error refusal => exact congrArg State.current (of_lower_error hlower).1

/-- Induction over the code of a step: `p` holds of `[]`, is closed under `++`, and holds of the
comments and of all lowered code. -/
theorem compileStep_induction {p : List Inst → Prop} (hnil : p [])
    (happend : ∀ code rest, p code → p rest → p (code ++ rest)) {options : Options} {s : State}
    {step : Step}
    (hcomment : options.comments = true → ∀ command, .ok command ∈ step.items →
      p [.comment command.sourceText])
    (hlowers : ∀ command, .ok command ∈ step.items → ∀ s₁ code s₂, s₁.current = s.current →
      Lowers s₁ command.opcode code s₂ → p code)
    (hmove : ∀ first second code s₁, LowersMove s first second code s₁ → p code) :
    p (compileStep options s step).1.code := by
  have hcomments : ∀ texts : List String,
      (options.comments = true → ∀ text ∈ texts, p [.comment text]) →
      p (comments options texts) := by
    intro texts htexts
    unfold comments
    split_ifs with hoption
    · specialize htexts hoption
      induction texts with
      | nil => exact hnil
      | cons text texts ih =>
        exact happend [_] _ (htexts text List.mem_cons_self)
          (ih fun other hother => htexts other (List.mem_cons_of_mem _ hother))
    · exact hnil
  have hcommand : ∀ command, .ok command ∈ step.items → ∀ s₁, s₁.current = s.current →
      p (compileCommand options s₁ command).1.code := by
    intro command hitem s₁ hcurrent
    rcases code_compileCommand options s₁ command with hcode | ⟨code, hcode, hwhole⟩
    · rw [hcode]
      exact hnil
    · rw [hwhole]
      exact happend _ _ (hcomments _ fun hoption => by simpa using hcomment hoption command hitem)
        (hlowers command hitem _ _ _ hcurrent hcode)
  cases step with
  | single command => exact hcommand command (List.mem_singleton_self _) s rfl
  | fault reason => exact hnil
  | fused first second =>
    have hfirst : .ok first ∈ (Step.fused first second).items := by simp [Step.items]
    have hsecond : .ok second ∈ (Step.fused first second).items := by simp [Step.items]
    change p (compilePair options s first second).1.code
    cases hlower : lowerMove s first.opcode second.opcode with
    | ok lowered =>
      rw [compilePair, hlower]
      refine happend _ _ (hcomments _ fun hoption => ?_)
        (hmove _ _ _ _ (lowersMove_of_lowerMove hlower))
      simpa using ⟨hcomment hoption first hfirst, hcomment hoption second hsecond⟩
    | error attempt =>
      rw [compilePair_of_error options hlower]
      exact happend _ _ (hcommand first hfirst s rfl)
        (hcommand second hsecond _ (compileCommand_current ..))

theorem compileStep_current (options : Options) (s : State) (step : Step) :
    (compileStep options s step).2.current = s.current := by
  cases step with
  | single command => exact compileCommand_current options s command
  | fault reason => rfl
  | fused first second =>
    change (compilePair options s first second).2.current = s.current
    cases hmove : lowerMove s first.opcode second.opcode with
    | ok lowered =>
      unfold compilePair
      rw [hmove]
      exact (lowersMove_of_lowerMove hmove).current
    | error attempt =>
      rw [compilePair_of_error options hmove]
      exact (compileCommand_current ..).trans (compileCommand_current ..)

end Compile

end HackVM
