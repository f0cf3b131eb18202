/-
  Steps handed out one by one. `Lookahead` reads its source once; for a push it looks one item ahead
  and holds an item that makes no pair. `next?_cases` is its inversion lemma. By induction on the
  pending items the buffer gives `Step.ofItems` (`steps_eq`), so no item is lost, doubled or moved,
  and a push and a pop are fused iff they are neighbours (`lookahead_fuses_neighbours`).
-/
import Mathlib
import HackVM.Proofs.Steps

namespace HackVM

/-! ## Steps of neighbours -/

namespace Step

/-- `fuse` is on, `command` is a push, and the first of `items` is a pop. -/
def Pairs (fuse : Bool) (command : Command) (items : List Item) : Prop :=
  fuse = true ∧ command.opcode.isPush = true ∧
    ∃ pop later, items = .ok pop :: later ∧ pop.opcode.isPop = true

/-- Items `i` and `i + 1` are one fused step. -/
def FusedAt (steps : List Step) (i : Nat) : Prop :=
  ∃ before first second after, steps = before ++ .fused first second :: after ∧
    (before.flatMap items).length = i

theorem ofItems_cons_error (fuse : Bool) (reason : Fault) (items : List Item) :
    ofItems fuse (.error reason :: items) = .fault reason :: ofItems fuse items := rfl

theorem ofItems_cons_single {fuse : Bool} {command : Command} {items : List Item}
    (h : ¬Pairs fuse command items) :
    ofItems fuse (.ok command :: items) = .single command :: ofItems fuse items := by
  -- If the steps behind start with a single pop, that pop is the first of the items.
  have hitems := flatMap_items_ofItems fuse items
  rw [ofItems, List.foldr_cons, ← ofItems, prepend.eq_def]
  split
  · rename_i push pop others heq hrest
    cases heq
    rw [hrest] at hitems
    apply if_neg
    intro hpair
    rw [Bool.and_eq_true, Bool.and_eq_true] at hpair
    exact h ⟨hpair.1.1, hpair.1.2, pop, _, hitems.symm, hpair.2⟩
  · rename_i heq _
    cases heq
    rfl
  · rename_i heq
    cases heq

theorem ofItems_cons_pair {push pop : Command} {items : List Item}
    (hpush : push.opcode.isPush = true) (hpop : pop.opcode.isPop = true) :
    ofItems true (.ok push :: .ok pop :: items) = .fused push pop :: ofItems true items := by
  change ofItems true ([] ++ .ok push :: .ok pop :: items) = _
  rw [ofItems_append_pair hpush hpop]
  rfl

/-- Two steps that are not a single push and a single pop. -/
def Apart : Step → Step → Prop
  | .single first, .single second =>
    ¬(first.opcode.isPush = true ∧ second.opcode.isPop = true)
  | _, _ => True

theorem isChain_prepend (item : Item) {steps : List Step} (h : steps.IsChain Apart) :
    (prepend true item steps).IsChain Apart := by
  cases item with
  | error reason => exact List.isChain_cons.2 ⟨fun _ _ => trivial, h⟩
  | ok command =>
    cases steps with
    | nil => exact List.isChain_singleton _
    | cons step others =>
      cases step with
      | fused first second => exact List.isChain_cons_cons.2 ⟨trivial, h⟩
      | fault reason => exact List.isChain_cons_cons.2 ⟨trivial, h⟩
      | single pop =>
        rw [prepend]
        split_ifs with hpair
        · exact List.isChain_cons.2 ⟨fun _ _ => trivial, h.tail⟩
        · refine List.isChain_cons_cons.2 ⟨fun hboth => hpair ?_, h⟩
          rw [Bool.true_and, Bool.and_eq_true]
          exact hboth

theorem isChain_ofItems (items : List Item) : (ofItems true items).IsChain Apart := by
  induction items with
  | nil => exact List.isChain_nil
  | cons item items ih => exact isChain_prepend item ih

/-- Items `i` and `i + 1` are fused iff `fuse` is on and they are a push and a pop. -/
theorem fusedAt_ofItems_iff {fuse : Bool} {items : List Item} {i : Nat} :
    FusedAt (ofItems fuse items) i ↔ fuse = true ∧ ∃ push pop, items[i]? = some (.ok push) ∧
      items[i + 1]? = some (.ok pop) ∧ push.opcode.isPush = true ∧ pop.opcode.isPop = true := by
  constructor
  · rintro ⟨before, push, pop, after, hsteps, rfl⟩
    have hitems := flatMap_items_ofItems fuse items
    rw [hsteps, List.flatMap_append, List.flatMap_cons] at hitems
    obtain ⟨hfuse, hpush, hpop⟩ := of_fused_mem_ofItems
      (hsteps ▸ List.mem_append_right before List.mem_cons_self)
    refine ⟨hfuse, push, pop, ?_, ?_, hpush, hpop⟩
    · rw [← hitems, List.getElem?_append_right le_rfl, Nat.sub_self]
      rfl
    · rw [← hitems, List.getElem?_append_right (Nat.le_add_right _ 1), Nat.add_sub_cancel_left]
      rfl
  · rintro ⟨rfl, push, pop, hfirst, hsecond, hpush, hpop⟩
    obtain ⟨hi, hfirst⟩ := List.getElem?_eq_some_iff.1 hfirst
    obtain ⟨hi', hsecond⟩ := List.getElem?_eq_some_iff.1 hsecond
    have hsplit : items = items.take i ++ .ok push :: .ok pop :: items.drop (i + 2) := by
      rw [← hfirst, ← hsecond, List.cons_getElem_drop_succ, List.cons_getElem_drop_succ,
        List.take_append_drop]
    rw [hsplit, ofItems_append_pair hpush hpop]
    refine ⟨_, push, pop, _, rfl, ?_⟩
    rw [flatMap_items_ofItems, List.length_take, Nat.min_eq_left hi.le]

end Step

/-! ## The buffer -/

/-- The rest of a one-pass source of items, and a slot `held` for one item read ahead. -/
structure Lookahead where
  fuse : Bool
  held : Option Item
  source : List Item

namespace Lookahead

variable {b b' : Lookahead} {item : Item} {step : Step}

/-- All items in the source, none held. -/
def start (fuse : Bool) (items : List Item) : Lookahead := ⟨fuse, none, items⟩

/-- The items that are in no step yet, in order. -/
def pending (b : Lookahead) : List Item := b.held.toList ++ b.source

/-- The held item, else the next item of the source. -/
def pull (b : Lookahead) : Option (Item × Lookahead) :=
  match b.held, b.source with
  | some item, _ => some (item, { b with held := none })
  | none, item :: source => some (item, { b with source })
  | none, [] => none

/-- Moves the next item of the source into the slot. -/
def hold (b : Lookahead) : Lookahead := { b with held := b.source.head?, source := b.source.tail }

/-- The step of a push: fused with the next item of the source if that is a pop; otherwise that item
is held. -/
def follow (b : Lookahead) (push : Command) : Step × Lookahead :=
  match b.source with
  | .ok pop :: source =>
    if pop.opcode.isPop then (.fused push pop, { b with source }) else (.single push, b.hold)
  | _ => (.single push, b.hold)

/-- The next step, `none` if no item is left. -/
def next? (b : Lookahead) : Option (Step × Lookahead) :=
  match b.pull with
  | none => none
  | some (.error reason, b) => some (.fault reason, b)
  | some (.ok command, b) =>
    if b.fuse && command.opcode.isPush then some (b.follow command) else some (.single command, b)

theorem pull_eq_none (h : b.pull = none) : b.pending = [] := by
  unfold pull at h
  split at h
  · cases h
  · cases h
  · rename_i hheld hsource
    rw [pending, hheld, hsource]
    rfl

theorem of_pull (h : b.pull = some (item, b')) :
    b.pending = item :: b'.source ∧ b'.held = none ∧ b'.fuse = b.fuse := by
  unfold pull at h
  split at h
  · rename_i hheld
    cases h
    rw [pending, hheld]
    exact ⟨rfl, rfl, rfl⟩
  · rename_i hheld hsource
    cases h
    exact ⟨by rw [pending, hheld, hsource]; rfl, hheld, rfl⟩
  · cases h

theorem pending_of_held (h : b.held = none) : b.pending = b.source := by
  rw [pending, h]
  rfl

theorem pending_hold (b : Lookahead) : b.hold.pending = b.source := by
  rw [hold, pending]
  cases b.source <;> rfl

/-- `follow` gives the push alone with all items still pending, or fused with the pop that was
first. -/
theorem of_follow {push : Command} (hheld : b.held = none) (h : b.follow push = (step, b')) :
    b'.fuse = b.fuse ∧
      (step = .single push ∧ b'.pending = b.source ∧ ¬Step.Pairs true push b.source ∨
        ∃ pop, step = .fused push pop ∧ b.source = .ok pop :: b'.pending ∧
          pop.opcode.isPop = true) := by
  unfold follow at h
  split at h
  · rename_i pop source hsource
    split_ifs at h with hpop
    · cases h
      refine ⟨rfl, .inr ⟨pop, rfl, ?_, hpop⟩⟩
      rw [hsource, pending_of_held (b := { b with source }) hheld]
    · cases h
      refine ⟨rfl, .inl ⟨rfl, pending_hold b, ?_⟩⟩
      rintro ⟨-, -, other, later, hother, hpop'⟩
      cases hsource.symm.trans hother
      exact hpop hpop'
  · rename_i hother
    cases h
    refine ⟨rfl, .inl ⟨rfl, pending_hold b, ?_⟩⟩
    rintro ⟨-, -, pop, later, hsource, -⟩
    exact hother pop later hsource

/-- Inversion of `next?`: it takes a fault, a command that makes no pair with the next pending item,
or a fused pair off the front of `pending`. -/
theorem next?_cases (h : b.next? = some (step, b')) :
    b'.fuse = b.fuse ∧
      ((∃ reason, step = .fault reason ∧ b.pending = .error reason :: b'.pending) ∨
        (∃ command, step = .single command ∧ b.pending = .ok command :: b'.pending ∧
          ¬Step.Pairs b.fuse command b'.pending) ∨
        ∃ push pop, step = .fused push pop ∧ b.pending = .ok push :: .ok pop :: b'.pending ∧
          b.fuse = true ∧ push.opcode.isPush = true ∧ pop.opcode.isPop = true) := by
  unfold next? at h
  split at h
  · cases h
  · rename_i reason pulled hpull
    cases h
    obtain ⟨hpending, hheld, hfuse⟩ := of_pull hpull
    exact ⟨hfuse, .inl ⟨reason, rfl, by rw [hpending, pending_of_held hheld]⟩⟩
  · rename_i command pulled hpull
    obtain ⟨hpending, hheld, hfuse⟩ := of_pull hpull
    split_ifs at h with hpush
    · rw [hfuse, Bool.and_eq_true] at hpush
      obtain ⟨hfuse', ⟨rfl, hrest, hpair⟩ | ⟨pop, rfl, hsource, hpop⟩⟩ :=
        of_follow hheld (Option.some.inj h)
      · refine ⟨hfuse'.trans hfuse, .inr (.inl ⟨command, rfl, ?_, ?_⟩)⟩
        · rw [hpending, hrest]
        · rwa [hpush.1, hrest]
      · refine ⟨hfuse'.trans hfuse, .inr (.inr ⟨command, pop, rfl, ?_, hpush.1, hpush.2, hpop⟩)⟩
        rw [hpending, hsource]
    · cases h
      refine ⟨hfuse, .inr (.inl ⟨command, rfl, ?_, fun hpair => hpush ?_⟩)⟩
      · rw [hpending, pending_of_held hheld]
      · rw [hfuse, Bool.and_eq_true]
        exact ⟨hpair.1, hpair.2.1⟩

theorem next?_eq_none (h : b.next? = none) : b.pending = [] := by
  unfold next? at h
  split at h
  · rename_i hpull
    exact pull_eq_none hpull
  · cases h
  · split_ifs at h

/-- `next?` takes the items of its step off the front of `pending`. -/
theorem pending_of_next? (h : b.next? = some (step, b')) :
    b.pending = step.items ++ b'.pending := by
  obtain ⟨-, ⟨reason, rfl, hpending⟩ | ⟨command, rfl, hpending, -⟩ |
    ⟨push, pop, rfl, hpending, -⟩⟩ := next?_cases h <;> exact hpending

theorem length_pending_lt (h : b.next? = some (step, b')) :
    b'.pending.length < b.pending.length := by
  rw [pending_of_next? h, List.length_append]
  cases step <;> simp [Step.items]

/-- The steps that `next?` gives until no item is left. -/
def steps (b : Lookahead) : List Step :=
  match hnext : b.next? with
  | none => []
  | some (step, b') =>
    have := length_pending_lt hnext
    step :: b'.steps
termination_by b.pending.length

/-- The buffer gives `Step.ofItems` of its pending items. -/
theorem steps_eq (b : Lookahead) : b.steps = Step.ofItems b.fuse b.pending := by
  fun_induction steps b with
  | case1 b h => rw [next?_eq_none h]; rfl
  | case2 b step b' h hlt ih =>
    rw [ih]
    obtain ⟨hfuse, ⟨reason, rfl, hpending⟩ | ⟨command, rfl, hpending, hpair⟩ |
      ⟨push, pop, rfl, hpending, hon, hpush, hpop⟩⟩ := next?_cases h
    · rw [hpending, hfuse, Step.ofItems_cons_error]
    · rw [hpending, hfuse, Step.ofItems_cons_single hpair]
    · rw [hpending, hfuse, hon, Step.ofItems_cons_pair hpush hpop]

end Lookahead

/-- **Lookahead.** The steps of the buffer are `Step.ofItems`: their items are those of the source,
in order. Items `i` and `i + 1` are one step iff fusing is on and they are a push and a pop. So
without fusing no step is fused, and with it no single push stands right before a single pop. -/
theorem lookahead_fuses_neighbours (fuse : Bool) (items : List Item) :
    let steps := (Lookahead.start fuse items).steps
    steps = Step.ofItems fuse items ∧ steps.flatMap Step.items = items ∧
      (fuse = false → ∀ push pop, .fused push pop ∉ steps) ∧
      (fuse = true → ∀ i, Step.FusedAt steps i ↔ ∃ push pop, items[i]? = some (.ok push) ∧
        items[i + 1]? = some (.ok pop) ∧ push.opcode.isPush = true ∧ pop.opcode.isPop = true) ∧
      (fuse = true → ∀ before first second after,
        steps = before ++ .single first :: .single second :: after →
          ¬(first.opcode.isPush = true ∧ second.opcode.isPop = true)) := by
  intro steps
  have hsteps : steps = Step.ofItems fuse items := Lookahead.steps_eq _
  rw [hsteps]
  refine ⟨rfl, Step.flatMap_items_ofItems fuse items, ?_, ?_, ?_⟩
  · rintro rfl push pop hmem
    exact Bool.false_ne_true (Step.of_fused_mem_ofItems hmem).1
  · rintro rfl i
    rw [Step.fusedAt_ofItems_iff, and_iff_right rfl]
  · rintro rfl before first second after hsplit
    have hchain := Step.isChain_ofItems items
    rw [hsplit] at hchain
    exact (List.isChain_cons_cons.1 (List.isChain_append.1 hchain).2.1).1

/-- Two pushes, a pop, a malformed line and a pop. -/
def mixedItems : List Item :=
  [.ok ⟨.push "constant" 1, "push constant 1", ⟨"M", 1⟩⟩,
    .ok ⟨.push "constant" 2, "push constant 2", ⟨"M", 2⟩⟩,
    .ok ⟨.pop "local" 0, "pop local 0", ⟨"M", 3⟩⟩,
    .error (.malformed ⟨"M", 4⟩ "unknown"),
    .ok ⟨.pop "local" 1, "pop local 1", ⟨"M", 5⟩⟩]

theorem lookahead_fuses_neighbours_mixed :
    Step.FusedAt (Lookahead.start true mixedItems).steps 1 ∧
      ¬Step.FusedAt (Lookahead.start true mixedItems).steps 0 ∧
      (Lookahead.start true mixedItems).steps.flatMap Step.items = mixedItems ∧
      ∀ push pop, .fused push pop ∉ (Lookahead.start false mixedItems).steps := by
  obtain ⟨-, hitems, -, hfused, -⟩ := lookahead_fuses_neighbours true mixedItems
  obtain ⟨-, -, hnone, -⟩ := lookahead_fuses_neighbours false mixedItems
  refine ⟨(hfused rfl 1).2 ⟨_, _, rfl, rfl, rfl, rfl⟩, fun h => ?_, hitems, hnone rfl⟩
  obtain ⟨push, pop, -, hsecond, -, hpop⟩ := (hfused rfl 0).1 h
  cases hsecond
  cases hpop

end HackVM
