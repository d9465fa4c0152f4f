import Mathlib

/-!
Loops that may stop with an error, and the lists they build: what a loop that ended has done
is said without the loop.
-/

namespace Bloar.Loops

/-! ### Results -/

section Results

variable {α β γ ε : Type}

theorem bind_ok_iff {x : Except ε α} {f : α → Except ε β} {b : β} :
    (x >>= f) = .ok b ↔ ∃ a, x = .ok a ∧ f a = .ok b := by
  cases x with
  | error | ok => simp [bind, Except.bind]

theorem map_ok_iff {x : Except ε α} {f : α → β} {b : β} :
    x.map f = .ok b ↔ ∃ a, x = .ok a ∧ f a = b := by
  cases x with
  | error | ok => simp [Except.map]

theorem pure_ok_iff {a b : α} : (pure a : Except ε α) = .ok b ↔ a = b := by
  simp [pure, Except.pure]

theorem mapM_ok_iff {f : α → Except ε β} {xs : List α} {ys : List β} :
    xs.mapM f = .ok ys ↔ List.Forall₂ (fun x y => f x = .ok y) xs ys := by
  induction xs generalizing ys with
  | nil =>
    rw [List.mapM_nil, pure_ok_iff, List.forall₂_nil_left_iff]
    exact eq_comm
  | cons x rest ih =>
    rw [List.mapM_cons]
    simp only [bind_ok_iff, pure_ok_iff, ih]
    constructor
    · rintro ⟨y, done, others, later, rfl⟩
      exact .cons done later
    · intro pairs
      cases pairs with
      | cons done later => exact ⟨_, done, _, later, rfl⟩

/-- A loop whose every turn adds known items to what was there is one addition of all of them. -/
theorem foldlM_adds {step : β → α → Except ε β} {add : β → γ → β} {items : α → List γ}
    {xs : List α} (adds : ∀ x ∈ xs, ∀ b b', step b x = .ok b' → b' = (items x).foldl add b) {b b' : β}
    (done : xs.foldlM step b = .ok b') : b' = (xs.flatMap items).foldl add b := by
  induction xs generalizing b with
  | nil => exact (pure_ok_iff.mp done).symm
  | cons x rest ih =>
    rw [List.foldlM_cons, bind_ok_iff] at done
    obtain ⟨middle, first, later⟩ := done
    rw [List.flatMap_cons, List.foldl_append, ← adds x List.mem_cons_self b middle first]
    exact ih (fun x member => adds x (List.mem_cons_of_mem _ member)) later

end Results

/-! ### Lists -/

section Lists

variable {α β : Type}

theorem filter_map_eq_flatMap (p : α → Bool) (f : α → β) (xs : List α) :
    (xs.filter p).map f = xs.flatMap fun x => if p x then [f x] else [] := by
  induction xs with
  | nil => rfl
  | cons x rest ih =>
    rw [List.flatMap_cons, ← ih]
    by_cases picked : p x <;> simp [picked]

theorem flatMap_of_single [DecidableEq α] {xs : List α} {f : α → List β} {x : α} (nodup : xs.Nodup)
    (others : ∀ y ∈ xs, y ≠ x → f y = []) : xs.flatMap f = if x ∈ xs then f x else [] := by
  induction xs with
  | nil => rfl
  | cons y rest ih =>
    obtain ⟨fresh, tail⟩ := List.nodup_cons.mp nodup
    have later := ih tail fun z member => others z (List.mem_cons_of_mem _ member)
    rw [List.flatMap_cons, later]
    by_cases same : y = x
    · subst same
      rw [if_neg fresh, if_pos List.mem_cons_self, List.append_nil]
    · rw [others y List.mem_cons_self same, List.nil_append]
      simp [Ne.symm same]

/-- Adding one after the other what is not there yet keeps the first of each. -/
theorem foldl_insert_eq_eraseDups [DecidableEq α] (xs : List α) :
    xs.foldl (fun acc x => if x ∈ acc then acc else acc ++ [x]) [] = xs.eraseDups := by
  induction xs using List.reverseRecOn with
  | nil => rfl
  | append_singleton xs x ih =>
    rw [List.foldl_append, ih, List.foldl_cons, List.foldl_nil, List.eraseDups_append]
    by_cases seen : x ∈ xs
    · simp [seen, List.removeAll]
    · simp [seen, List.removeAll, List.eraseDups_cons]

/-- A sort that only looks at keys finds the one order of a list whose keys are all different. -/
theorem insertionSort_of_perm {r : α → α → Prop} [DecidableRel r] [Std.Total r] [IsTrans α r]
    {xs ys : List α} (perm : xs.Perm ys) (strict : ys.Pairwise fun a b => r a b ∧ ¬ r b a) :
    xs.insertionSort r = ys := by
  refine List.Perm.eq_of_pairwise ?_ (List.pairwise_insertionSort r xs)
    (strict.imp fun both => both.1) ((List.perm_insertionSort r xs).trans perm)
  intro a b inSorted inOrder ab ba
  have inYs : a ∈ ys := perm.mem_iff.mp ((List.perm_insertionSort r xs).mem_iff.mp inSorted)
  by_contra different
  -- two elements of the list stand in one order only
  have symmetric : Std.Symm fun a b => ¬ (r a b ∧ r b a) := ⟨fun _ _ one both => one both.symm⟩
  have apart : ys.Pairwise fun a b => ¬ (r a b ∧ r b a) :=
    strict.imp fun strictly both => strictly.2 both.2
  exact apart.forall inYs inOrder different ⟨ab, ba⟩

end Lists

end Bloar.Loops
