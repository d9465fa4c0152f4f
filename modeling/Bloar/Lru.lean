import Mathlib

/-!
A cache that is bounded by the cost of its entries. They stand in the order of their last
use, the oldest first, and an insertion takes out as many from there as it has to.
-/

namespace Bloar.Lru

structure Entry (K V : Type) where
  key : K
  val : V
  cost : Nat

structure Cache (K V : Type) where
  entries : List (Entry K V)
  bytes : Nat
  budget : Nat

variable {K V : Type}

def evict (budget : Nat) : List (Entry K V) → Nat → List (Entry K V) × Nat
  | [], bytes => ([], bytes)
  | oldest :: rest, bytes =>
    if budget < bytes then evict budget rest (bytes - oldest.cost) else (oldest :: rest, bytes)

theorem evict_spec (budget : Nat) (entries : List (Entry K V)) :
    let left := evict budget entries (entries.map Entry.cost).sum
    left.2 = (left.1.map Entry.cost).sum ∧ left.2 ≤ budget ∧ left.1 ⊆ entries := by
  induction entries with
  | nil => exact ⟨rfl, Nat.zero_le _, fun _ member => member⟩
  | cons oldest rest ih =>
    rw [List.map_cons, List.sum_cons, evict]
    split
    · rw [Nat.add_sub_cancel_left]
      exact ⟨ih.1, ih.2.1, fun _ member => List.mem_cons_of_mem _ (ih.2.2 member)⟩
    · next fits => exact ⟨by simp, Nat.le_of_not_lt fits, fun _ member => member⟩

/-- The books are kept, and every entry is as the rule says. -/
structure Balanced (Rule : K → V → Nat → Prop) (c : Cache K V) : Prop where
  bytes : c.bytes = (c.entries.map Entry.cost).sum
  bounded : c.bytes ≤ c.budget
  each : ∀ e ∈ c.entries, Rule e.key e.val e.cost

variable [DecidableEq K]

namespace Cache

def find (c : Cache K V) (k : K) : Option (Entry K V) := c.entries.find? fun e => e.key = k

def without (c : Cache K V) (k : K) : List (Entry K V) := c.entries.eraseP fun e => e.key = k

def get (c : Cache K V) (k : K) : Option V × Cache K V :=
  match c.find k with
  | none => (none, c)
  | some e => (some e.val, { c with entries := c.without k ++ [e] })

def add (c : Cache K V) (k : K) (val : V) (cost : Nat) : Cache K V :=
  let kept := c.bytes - ((c.find k).map Entry.cost).getD 0
  let (entries, bytes) := evict c.budget (c.without k ++ [⟨k, val, cost⟩]) (kept + cost)
  { c with entries, bytes }

def purge (c : Cache K V) : Cache K V := { c with entries := [], bytes := 0 }

end Cache

variable {Rule : K → V → Nat → Prop} {c : Cache K V} {k : K} {e : Entry K V} {v : V} {cost : Nat}

theorem without_perm (found : c.find k = some e) :
    e.key = k ∧ (c.without k ++ [e]).Perm c.entries := by
  obtain ⟨same, front, back, split, before⟩ := List.find?_eq_some_iff_append.mp found
  refine ⟨by simpa using same, ?_⟩
  rw [Cache.without, split, List.eraseP_append_right _ (by simpa using before), List.eraseP_cons,
    same, cond_true, List.append_assoc]
  exact List.Perm.append_left _ (List.perm_append_singleton e back)

variable (balanced : Balanced Rule c)
include balanced

theorem without_sum :
    c.bytes - ((c.find k).map Entry.cost).getD 0 = ((c.without k).map Entry.cost).sum := by
  rw [balanced.bytes]
  cases found : c.find k with
  | none =>
    have absent := List.find?_eq_none.mp found
    simp [Cache.without, List.eraseP_of_forall_not absent]
  | some e =>
    rw [← ((without_perm found).2.map Entry.cost).sum_eq]
    simp

theorem Balanced.get (k : K) : Balanced Rule (c.get k).2 := by
  unfold Cache.get
  split
  · exact balanced
  · next e found =>
    have perm := (without_perm found).2
    exact ⟨balanced.bytes.trans (perm.map Entry.cost).sum_eq.symm, balanced.bounded,
      fun e member => balanced.each e (perm.mem_iff.mp member)⟩

theorem Balanced.get_rule (hit : (c.get k).1 = some v) : ∃ cost, Rule k v cost := by
  unfold Cache.get at hit
  split at hit
  · cases hit
  · next e found =>
    obtain ⟨rfl, perm⟩ := without_perm found
    cases hit
    exact ⟨e.cost, balanced.each e (perm.mem_iff.mp (by simp))⟩

theorem Balanced.add (rule : Rule k v cost) : Balanced Rule (c.add k v cost) := by
  have spec := evict_spec c.budget (c.without k ++ [⟨k, v, cost⟩])
  rw [List.map_append, List.sum_append, ← without_sum balanced] at spec
  obtain ⟨bytes, bounded, inside⟩ := spec
  refine ⟨bytes, bounded, fun e member => ?_⟩
  rcases List.mem_append.mp (inside member) with old | new
  · exact balanced.each e (List.mem_of_mem_eraseP old)
  · rw [List.mem_singleton] at new
    rw [new]
    exact rule

end Bloar.Lru
