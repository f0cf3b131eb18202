/-
  The steps of a list of items. `Step.ofItems` keeps the items in order (`flatMap_items_ofItems`),
  fuses only a push with the pop behind it (`of_fused_mem_ofItems`), and fuses every such pair
  (`ofItems_append_pair`). Taken apart, the fused steps are the unfused ones (`flatMap_singles`).
-/
import Mathlib
import HackVM.Command.Step

namespace HackVM.Step

/-! ## Items -/

/-- `ofItems` keeps the items and their order. -/
theorem flatMap_items_ofItems (fuse : Bool) (items : List Item) :
    (ofItems fuse items).flatMap Step.items = items := by
  have hprepend : ∀ item rest, (prepend fuse item rest).flatMap Step.items =
      item :: rest.flatMap Step.items := fun item rest => by
    unfold prepend
    split
    · split_ifs <;> simp [Step.items]
    · rfl
    · rfl
  induction items with
  | nil => rfl
  | cons item items ih =>
    rw [ofItems, List.foldr_cons, hprepend]
    exact congrArg (item :: ·) ih

theorem mem_items_of_mem_ofItems {fuse : Bool} {items : List Item} {step : Step} {item : Item}
    (hstep : step ∈ ofItems fuse items) (hitem : item ∈ step.items) : item ∈ items := by
  rw [← flatMap_items_ofItems fuse items]
  exact List.mem_flatMap_of_mem hstep hitem

/-- A fused step is a push and a pop, and fusing is on. -/
theorem of_fused_mem_ofItems {fuse : Bool} {items : List Item} {first second : Command}
    (h : .fused first second ∈ ofItems fuse items) :
    fuse = true ∧ first.opcode.isPush = true ∧ second.opcode.isPop = true := by
  induction items with
  | nil => cases h
  | cons item items ih =>
    rw [ofItems, List.foldr_cons, ← ofItems, prepend.eq_def] at h
    split at h
    · rename_i push pop others heq
      split_ifs at h with hfuse
      · rcases List.mem_cons.1 h with h | h
        · cases h
          simpa only [Bool.and_eq_true, and_assoc] using hfuse
        · exact ih (heq ▸ List.mem_cons_of_mem _ h)
      · rcases List.mem_cons.1 h with h | h
        · cases h
        · exact ih h
    · rcases List.mem_cons.1 h with h | h
      · cases h
      · exact ih h
    · rcases List.mem_cons.1 h with h | h
      · cases h
      · exact ih h

/-! ## Steps one by one -/

/-- The step of a single item. -/
def ofItem : Item → Step
  | .ok command => .single command
  | .error reason => .fault reason

/-- The items of a step as steps of their own. -/
def singles (step : Step) : List Step := step.items.map ofItem

theorem ofItems_false (items : List Item) : ofItems false items = items.map ofItem := by
  induction items with
  | nil => rfl
  | cons item items ih =>
    rw [ofItems, List.foldr_cons, ← ofItems, ih, prepend.eq_def]
    split
    · rfl
    · rfl
    · rfl

theorem flatMap_singles (items : List Item) :
    (ofItems true items).flatMap singles = ofItems false items := by
  rw [ofItems_false, ← flatMap_items_ofItems true items, List.map_flatMap, flatMap_items_ofItems]
  rfl

/-! ## Where pairs come from -/

/-- `prepend` does not reach past a fused pair. -/
theorem prepend_append_fused (fuse : Bool) (item : Item) (first second : Command)
    (steps others : List Step) :
    prepend fuse item (steps ++ .fused first second :: others) =
      prepend fuse item steps ++ .fused first second :: others := by
  cases item with
  | error reason => rfl
  | ok command =>
    cases steps with
    | nil => rfl
    | cons step steps =>
      cases step with
      | fused push pop | fault reason => rfl
      | single pop =>
        simp only [List.cons_append, prepend]
        split_ifs <;> rfl

/-- A push followed by a pop is one fused step; the items before it are not affected. -/
theorem ofItems_append_pair {earlier later : List Item} {first second : Command}
    (hfirst : first.opcode.isPush = true) (hsecond : second.opcode.isPop = true) :
    ofItems true (earlier ++ .ok first :: .ok second :: later) =
      ofItems true earlier ++ .fused first second :: ofItems true later := by
  have hpush : second.opcode.isPush = false := by
    cases hopcode : second.opcode with
    | push segment index =>
      rw [hopcode] at hsecond
      cases hsecond
    | _ => rfl
  induction earlier with
  | nil =>
    have hpop : ofItems true (.ok second :: later) = .single second :: ofItems true later := by
      rw [ofItems, List.foldr_cons, ← ofItems, prepend.eq_def]
      split
      · rename_i heq _
        cases heq
        rw [hpush]
        rfl
      · rename_i heq _
        cases heq
        rfl
      · rename_i heq
        cases heq
    rw [List.nil_append, ofItems, List.foldr_cons, ← ofItems, hpop]
    simp only [prepend, hfirst, hsecond, Bool.and_self, if_true]
    rfl
  | cons item earlier ih =>
    rw [List.cons_append, ofItems, List.foldr_cons, ← ofItems, ih, prepend_append_fused]
    rfl

end HackVM.Step
