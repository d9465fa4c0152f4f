import Mathlib

/-!
A search through a graph with a stack. A node is marked when it is expanded, before its
successors have been looked at, so a mark alone says nothing about what lies below. Once
the stack is empty every mark stands for a complete part of the graph, and another search
may stop there.
-/

namespace Bloar.Traversal

variable {α : Type} {R R' : α → α → Prop} {Good Good' : α → Prop}
variable {first x : α} {queued marked kids : List α}

def Whole (R : α → α → Prop) (Good : α → Prop) (x : α) : Prop :=
  ∀ y, Relation.ReflTransGen R x y → Good y

theorem Whole.good (whole : Whole R Good x) : Good x := whole x .refl

theorem Whole.leaf (good : Good x) (leaf : ∀ y, ¬ R x y) : Whole R Good x := by
  intro y path
  rcases path.cases_head with rfl | ⟨z, step, -⟩
  · exact good
  · exact absurd step (leaf z)

theorem Whole.mono (whole : Whole R Good x) (fewer : ∀ a b, R' a b → R a b)
    (better : ∀ a, Good a → Good' a) : Whole R' Good' x :=
  fun y path => better y (whole y (Relation.ReflTransGen.mono fewer x y path))

/-- A search from `first`: the marked nodes are good, and each of their successors is
marked too, waits in the queue, or is known to be whole. -/
structure Search (R : α → α → Prop) (Good : α → Prop) (first : α) (queued marked : List α) :
    Prop where
  origin : first ∈ marked ∨ first ∈ queued ∨ Whole R Good first
  good : ∀ x ∈ marked, Good x
  successors : ∀ x ∈ marked, ∀ y, R x y → y ∈ marked ∨ y ∈ queued ∨ Whole R Good y

theorem Search.start (R : α → α → Prop) (Good : α → Prop) (first : α) :
    Search R Good first [first] [] :=
  ⟨.inr (.inl (List.mem_singleton_self first)), by simp, by simp⟩

theorem Search.mono (search : Search R Good first queued marked) (fewer : ∀ a b, R' a b → R a b)
    (better : ∀ a, Good a → Good' a) : Search R' Good' first queued marked := by
  refine ⟨search.origin.imp_right (Or.imp_right fun whole => whole.mono fewer better),
    fun x marks => better x (search.good x marks), fun x marks y step => ?_⟩
  exact (search.successors x marks y (fewer x y step)).imp_right
    (Or.imp_right fun whole => whole.mono fewer better)

variable (search : Search R Good first (x :: queued) marked)
include search

/-- The next node of the queue is dropped, being marked or known to be whole. -/
theorem Search.skip (known : x ∈ marked ∨ Whole R Good x) : Search R Good first queued marked := by
  have moved (y : α) (held : y ∈ marked ∨ y ∈ x :: queued ∨ Whole R Good y) :
      y ∈ marked ∨ y ∈ queued ∨ Whole R Good y := by
    rcases held with marks | waits | whole
    · exact .inl marks
    · rcases List.mem_cons.mp waits with rfl | later
      · exact known.imp_right .inr
      · exact .inr (.inl later)
    · exact .inr (.inr whole)
  exact ⟨moved first search.origin, search.good,
    fun z marks y step => moved y (search.successors z marks y step)⟩

/-- The next node of the queue is marked; its successors are queued or known to be whole. -/
theorem Search.expand (good : Good x) (below : ∀ y, R x y → y ∈ kids ∨ Whole R Good y) :
    Search R Good first (kids ++ queued) (x :: marked) := by
  have moved (y : α) (held : y ∈ marked ∨ y ∈ x :: queued ∨ Whole R Good y) :
      y ∈ x :: marked ∨ y ∈ kids ++ queued ∨ Whole R Good y := by
    rcases held with marks | waits | whole
    · exact .inl (List.mem_cons_of_mem x marks)
    · rcases List.mem_cons.mp waits with rfl | later
      · exact .inl List.mem_cons_self
      · exact .inr (.inl (List.mem_append_right kids later))
    · exact .inr (.inr whole)
  refine ⟨moved first search.origin, fun z marks => ?_, fun z marks y step => ?_⟩
  · rcases List.mem_cons.mp marks with rfl | old
    · exact good
    · exact search.good z old
  · rcases List.mem_cons.mp marks with rfl | old
    · exact .inr ((below y step).imp_left (List.mem_append_left queued))
    · exact moved y (search.successors z old y step)

/-- The next node of the queue is marked, with everything below it known to be whole. -/
theorem Search.finish (good : Good x) (below : ∀ y, R x y → Whole R Good y) :
    Search R Good first queued (x :: marked) := by
  have expanded : Search R Good first ([] ++ queued) (x :: marked) :=
    search.expand good fun y step => .inr (below y step)
  exact expanded

omit search

theorem Search.drained (search : Search R Good first [] marked) (marks : x ∈ marked) :
    Whole R Good x := by
  intro y path
  -- Along a path the nodes stay marked until one is whole by itself.
  have inside : y ∈ marked ∨ Whole R Good y := by
    induction path with
    | refl => exact .inl marks
    | tail _ step ih =>
      rcases ih with marked | whole
      · simpa using search.successors _ marked _ step
      · exact .inr fun z further => whole z (.head step further)
  rcases inside with marked | whole
  · exact search.good y marked
  · exact whole.good

theorem Search.first_whole (search : Search R Good first [] marked) : Whole R Good first := by
  rcases search.origin with marks | waits | whole
  · exact search.drained marks
  · cases waits
  · exact whole

end Bloar.Traversal
