/-
  A stateful pass along a list: each element sees the state its predecessors left and gives one
  result. `sweep_cons` and `sweep_append` are the facts that later proofs use.
-/

namespace HackVM

variable {σ α β : Type}

/-- One element of a sweep. -/
private def sweepStep (f : σ → α → β × σ) (done : Array β × σ) (x : α) : Array β × σ :=
  let (ys, s) := done
  let (y, s) := f s x
  (ys.push y, s)

/-- Runs `f` along `xs`, collecting one result per element and threading the state. -/
def sweep (f : σ → α → β × σ) (s : σ) (xs : List α) : List β × σ :=
  let (ys, s) := xs.foldl (sweepStep f) (#[], s)
  (ys.toList, s)

theorem sweep_nil (f : σ → α → β × σ) (s : σ) : sweep f s [] = ([], s) := rfl

private theorem foldl_sweepStep (f : σ → α → β × σ) (xs : List α) (ys : Array β) (s : σ) :
    xs.foldl (sweepStep f) (ys, s) =
      (ys ++ (xs.foldl (sweepStep f) (#[], s)).1, (xs.foldl (sweepStep f) (#[], s)).2) := by
  induction xs generalizing ys s with
  | nil => simp
  | cons x xs ih =>
    simp only [List.foldl_cons, sweepStep]
    rw [ih (ys.push _), ih (#[].push _)]
    simp

/-- The tail is swept from the state that the head leaves. -/
theorem sweep_cons (f : σ → α → β × σ) (s : σ) (x : α) (xs : List α) :
    sweep f s (x :: xs) =
      ((f s x).1 :: (sweep f (f s x).2 xs).1, (sweep f (f s x).2 xs).2) := by
  simp only [sweep, List.foldl_cons, sweepStep]
  rw [foldl_sweepStep]
  simp

/-- `ys` is swept from the state that `xs` leaves. -/
theorem sweep_append (f : σ → α → β × σ) (s : σ) (xs ys : List α) :
    sweep f s (xs ++ ys) =
      ((sweep f s xs).1 ++ (sweep f (sweep f s xs).2 ys).1, (sweep f (sweep f s xs).2 ys).2) := by
  induction xs generalizing s with
  | nil => simp [sweep_nil]
  | cons x xs ih => simp [sweep_cons, ih]

/-- `sweep` of an image. -/
theorem sweep_map {γ : Type} (f : σ → β → γ × σ) (g : α → β) (s : σ) (xs : List α) :
    sweep f s (xs.map g) = sweep (fun s x => f s (g x)) s xs := by
  induction xs generalizing s with
  | nil => rfl
  | cons x xs ih => rw [List.map_cons, sweep_cons, sweep_cons, ih]

end HackVM
