import Bloar.Loops
import Bloar.Schedule

/-!
What `requireContiguous` accepts. The sweep keeps one covered interval, so it accepts
exactly the schedules whose ranges join into one. An open end reaches the last `uint64`.
-/

namespace Bloar.Chain

def Source.lastBlock (s : Source) : Nat := if s.openEnded then 2 ^ 64 - 1 else s.untilBlock

def coveredBlocks (sources : List Source) : Set Nat :=
  {block | ∃ s ∈ sources, block ∈ Set.Icc s.fromBlock s.lastBlock}

/-- The fields of the sources are `uint64`s. -/
def WordFields (sources : List Source) : Prop :=
  ∀ s ∈ sources, s.fromBlock < 2 ^ 64 ∧ s.untilBlock < 2 ^ 64

/-- `contiguousFrom` on machine words, where every operation may wrap. -/
def contiguousWords : BitVec 64 → List Source → Bool
  | _, [] => true
  | coveredMax, s :: rest =>
    let fromBlock := BitVec.ofNat 64 s.fromBlock
    let untilBlock := BitVec.ofNat 64 s.untilBlock
    if coveredMax < fromBlock ∧ 1 < fromBlock - coveredMax then false
    else if s.openEnded then true
    else if coveredMax < untilBlock then contiguousWords untilBlock rest
    else contiguousWords coveredMax rest

def requireContiguousWords (sources : List Source) : Bool :=
  let order := sources.insertionSort fun a b =>
    BitVec.ofNat 64 a.fromBlock ≤ BitVec.ofNat 64 b.fromBlock
  match order with
  | [] => true
  | s :: rest => s.openEnded || contiguousWords (BitVec.ofNat 64 s.untilBlock) rest

section Contiguous

variable {sources others : List Source} {rest : List (Nat × Source)}
variable {first left coveredMax : Nat}

theorem validateEach_range {i : Nat} (valid : validateEach i sources = .ok ()) :
    ∀ s ∈ sources, s.openEnded = false → s.fromBlock ≤ s.untilBlock := by
  induction sources generalizing i with
  | nil => simp
  | cons s rest ih =>
    intro t member closed
    obtain ⟨_, checked, others⟩ := Loops.bind_ok_iff.mp valid
    rcases List.mem_cons.mp member with rfl | inside
    · by_contra wrong
      have reversed : t.untilBlock < t.fromBlock := by omega
      simp only [validateSource, closed, reversed, and_self, if_true] at checked
      revert checked
      repeat' split
      all_goals exact fun checked => nomatch checked
    · exact ih others t inside closed

theorem coveredBlocks_cons (s : Source) (sources : List Source) :
    coveredBlocks (s :: sources) = Set.Icc s.fromBlock s.lastBlock ∪ coveredBlocks sources := by
  ext block
  simp [coveredBlocks]

/-- The sweep over sources sorted by their first block: what is covered so far is one
interval, and it stays one exactly when no source starts beyond its end. -/
theorem contiguousFrom_ok_iff (sorted : rest.Pairwise fun a b => a.2.fromBlock ≤ b.2.fromBlock)
    (ranges : ∀ p ∈ rest, first ≤ p.2.fromBlock ∧ p.2.fromBlock ≤ p.2.lastBlock ∧
      p.2.lastBlock < 2 ^ 64) (start : first ≤ coveredMax) (small : coveredMax < 2 ^ 64) :
    contiguousFrom left coveredMax rest = .ok () ↔
      ∃ last, Set.Icc first coveredMax ∪ coveredBlocks (rest.map (·.2)) = Set.Icc first last := by
  induction rest generalizing left coveredMax with
  | nil => simp [contiguousFrom, coveredBlocks]
  | cons p rest ih =>
    obtain ⟨i, s⟩ := p
    obtain ⟨after, sorted⟩ := List.pairwise_cons.mp sorted
    obtain ⟨from_first, range, below⟩ := ranges _ List.mem_cons_self
    have ranges := fun p member => ranges p (List.mem_cons_of_mem _ member)
    rw [List.map_cons, coveredBlocks_cons, ← Set.union_assoc, contiguousFrom]
    dsimp only at after from_first range below ⊢
    by_cases gap : coveredMax < s.fromBlock ∧ 1 < s.fromBlock - coveredMax
    · -- The block after the covered ones is in no range, though a later one is.
      rw [if_pos gap]
      refine iff_of_false (by simp) ?_
      rintro ⟨last, whole⟩
      have later : s.fromBlock ∈ Set.Icc first last := by
        rw [← whole]
        exact .inl (.inr ⟨Nat.le_refl _, range⟩)
      have hole : coveredMax + 1 ∈ Set.Icc first last := by
        have end_le := later.2
        exact ⟨by omega, by omega⟩
      rw [← whole] at hole
      rcases hole with (⟨-, high⟩ | ⟨low, -⟩) | ⟨t, member, low, -⟩
      · omega
      · omega
      · obtain ⟨q, inside, rfl⟩ := List.mem_map.mp member
        have follows := after q inside
        omega
    · rw [if_neg gap]
      have joined : Set.Icc first coveredMax ∪ Set.Icc s.fromBlock s.lastBlock =
          Set.Icc first (max coveredMax s.lastBlock) := by
        ext block
        simp only [Set.mem_union, Set.mem_Icc]
        omega
      rw [joined]
      by_cases isOpen : s.openEnded = true
      · rw [if_pos isOpen]
        have whole : s.lastBlock = 2 ^ 64 - 1 := if_pos isOpen
        refine iff_of_true rfl ⟨2 ^ 64 - 1, ?_⟩
        rw [whole, Nat.max_eq_right (by omega)]
        refine Set.union_eq_left.mpr ?_
        rintro block ⟨t, member, low, high⟩
        obtain ⟨q, inside, rfl⟩ := List.mem_map.mp member
        have bounds := ranges q inside
        exact ⟨by omega, by omega⟩
      · have closed : s.lastBlock = s.untilBlock := if_neg isOpen
        rw [if_neg isOpen, closed]
        rw [closed] at below
        split
        · rename_i longer
          rw [Nat.max_eq_right (by omega)]
          exact ih sorted ranges (by omega) below
        · rename_i shorter
          rw [Nat.max_eq_left (by omega)]
          exact ih sorted ranges start small

theorem coveredBlocks_perm (perm : sources.Perm others) :
    coveredBlocks sources = coveredBlocks others := by
  ext block
  simp [coveredBlocks, perm.mem_iff]

/-- The first source covers its own first block, so the sweep may start there. -/
theorem contiguousFrom_self {s : Source} (range : s.fromBlock ≤ s.lastBlock) :
    contiguousFrom left s.fromBlock ((left, s) :: rest) =
      if s.openEnded then pure () else contiguousFrom left s.untilBlock rest := by
  rw [contiguousFrom, if_neg (by omega)]
  by_cases isOpen : s.openEnded = true
  · rw [if_pos isOpen, if_pos isOpen]
  · rw [Source.lastBlock, if_neg isOpen] at range
    rw [if_neg isOpen, if_neg isOpen]
    split
    · rfl
    · rw [Nat.le_antisymm range (by omega)]

/-- The sweep reads the ranges in the order of their first blocks. -/
theorem requireContiguous_sorted (sources : List Source) : ∃ order : List (Nat × Source),
    (order.Pairwise fun a b => a.2.fromBlock ≤ b.2.fromBlock) ∧
      (order.map (·.2)).Perm sources ∧ requireContiguous sources =
        match order with
        | [] => pure ()
        | (left, s) :: rest =>
          if s.openEnded then pure () else contiguousFrom left s.untilBlock rest := by
  let before : Nat × Source → Nat × Source → Prop := fun a b => a.2.fromBlock ≤ b.2.fromBlock
  have total : Std.Total before := ⟨fun a b => Nat.le_total _ _⟩
  have trans : IsTrans _ before := ⟨fun a b c => Nat.le_trans⟩
  have perm := (((List.range sources.length).zip sources).perm_insertionSort before).map (·.2)
  rw [List.map_snd_zip (by simp)] at perm
  exact ⟨_, ((List.range sources.length).zip sources).pairwise_insertionSort before, perm, rfl⟩

theorem requireContiguous_ok_iff (nonempty : sources ≠ [])
    (ranges : ∀ s ∈ sources, s.fromBlock ≤ s.lastBlock ∧ s.lastBlock < 2 ^ 64) :
    requireContiguous sources = .ok () ↔
      ∃ first last, IsLeast {block | ∃ s ∈ sources, s.fromBlock = block} first ∧
        coveredBlocks sources = Set.Icc first last := by
  obtain ⟨order, sorted, perm, swept⟩ := requireContiguous_sorted sources
  rw [swept, ← coveredBlocks_perm perm]
  simp only [← perm.mem_iff] at ranges ⊢
  rcases order with _ | ⟨⟨left, s⟩, rest⟩
  · exact absurd perm.nil_eq.symm nonempty
  · have after := (List.pairwise_cons.mp sorted).1
    have starts : ∀ p ∈ (left, s) :: rest, s.fromBlock ≤ p.2.fromBlock := by
      intro p member
      rcases List.mem_cons.mp member with rfl | later
      · exact Nat.le_refl _
      · exact after p later
    have least : IsLeast {block | ∃ t ∈ ((left, s) :: rest).map (·.2), t.fromBlock = block}
        s.fromBlock := by
      refine ⟨⟨s, by simp, rfl⟩, ?_⟩
      rintro _ ⟨t, member, rfl⟩
      obtain ⟨p, inside, rfl⟩ := List.mem_map.mp member
      exact starts p inside
    obtain ⟨range, small⟩ := ranges s (by simp)
    have own : Set.Icc s.fromBlock s.fromBlock ⊆ coveredBlocks (((left, s) :: rest).map (·.2)) :=
      fun block same => ⟨s, by simp, same.1, Nat.le_trans same.2 range⟩
    dsimp only
    rw [← contiguousFrom_self range, contiguousFrom_ok_iff sorted (fun p member =>
      ⟨starts p member, ranges _ (List.mem_map_of_mem member)⟩) (Nat.le_refl _) (by omega),
      Set.union_eq_right.mpr own]
    constructor
    · rintro ⟨last, whole⟩
      exact ⟨_, last, least, whole⟩
    · rintro ⟨first, last, lowest, whole⟩
      rw [lowest.unique least] at whole
      exact ⟨last, whole⟩

/-! ### The sweep on words -/

theorem contiguousWords_iff (left : Nat) (words : WordFields (rest.map (·.2)))
    (small : coveredMax < 2 ^ 64) :
    contiguousWords (BitVec.ofNat 64 coveredMax) (rest.map (·.2)) = true ↔
      contiguousFrom left coveredMax rest = .ok () := by
  induction rest generalizing left coveredMax with
  | nil => simp [contiguousWords, contiguousFrom]
  | cons p rest ih =>
    obtain ⟨i, s⟩ := p
    obtain ⟨starts, ends⟩ := words s (by simp)
    have rest_words : WordFields (rest.map (·.2)) := fun t member =>
      words t (List.mem_cons_of_mem _ member)
    rw [List.map_cons, contiguousWords, contiguousFrom]
    have gap : (BitVec.ofNat 64 coveredMax < BitVec.ofNat 64 s.fromBlock ∧
        1 < BitVec.ofNat 64 s.fromBlock - BitVec.ofNat 64 coveredMax) ↔
        coveredMax < s.fromBlock ∧ 1 < s.fromBlock - coveredMax := by
      bv_omega
    have longer : BitVec.ofNat 64 coveredMax < BitVec.ofNat 64 s.untilBlock ↔
        coveredMax < s.untilBlock := by
      bv_omega
    simp only [gap, longer]
    split
    · simp
    · split
      · simp
      · split
        · exact ih _ rest_words ends
        · exact ih _ rest_words small

theorem requireContiguousWords_iff (words : WordFields sources) :
    requireContiguousWords sources = true ↔ requireContiguous sources = .ok () := by
  have order : (((List.range sources.length).zip sources).insertionSort
      fun a b => a.2.fromBlock ≤ b.2.fromBlock).map (·.2) = sources.insertionSort
      fun a b => BitVec.ofNat 64 a.fromBlock ≤ BitVec.ofNat 64 b.fromBlock := by
    rw [List.map_insertionSort _ (fun a b : Source =>
      BitVec.ofNat 64 a.fromBlock ≤ BitVec.ofNat 64 b.fromBlock), List.map_snd_zip (by simp)]
    intro a memberA b memberB
    have smallA := (words _ (List.of_mem_zip memberA).2).1
    have smallB := (words _ (List.of_mem_zip memberB).2).1
    bv_omega
  unfold requireContiguousWords requireContiguous
  have listed : WordFields (sources.insertionSort fun a b =>
      BitVec.ofNat 64 a.fromBlock ≤ BitVec.ofNat 64 b.fromBlock) := fun s member =>
    words s ((List.mem_insertionSort _).mp member)
  rw [← order] at listed ⊢
  generalize List.insertionSort (fun a b : Nat × Source => a.2.fromBlock ≤ b.2.fromBlock)
    ((List.range sources.length).zip sources) = pairs at *
  cases pairs with
  | nil => simp
  | cons p rest =>
    obtain ⟨left, s⟩ := p
    have small := (listed s (by simp)).2
    have others : WordFields (rest.map (·.2)) := fun t member =>
      listed t (List.mem_cons_of_mem _ member)
    rw [List.map_cons]
    dsimp only
    rw [Bool.or_eq_true, contiguousWords_iff left others small]
    by_cases isOpen : s.openEnded = true
    · simp [isOpen]
    · simp [isOpen]

end Contiguous

/-- The check on the ranges of a schedule is exact, whatever the order of its sources and
however far a range reaches. -/
theorem requireContiguous_exact (sources : List Source) (nonempty : sources ≠ [])
    (words : WordFields sources) (valid : validateEach 0 sources = .ok ()) :
    (requireContiguous sources = .ok () ↔
      ∃ first last, IsLeast {block | ∃ s ∈ sources, s.fromBlock = block} first ∧
        coveredBlocks sources = Set.Icc first last) ∧
    (∀ others : List Source, others.Perm sources →
      (requireContiguous others = .ok () ↔ requireContiguous sources = .ok ())) ∧
    (requireContiguousWords sources = true ↔ requireContiguous sources = .ok ()) := by
  have ranges : ∀ s ∈ sources, s.fromBlock ≤ s.lastBlock ∧ s.lastBlock < 2 ^ 64 := by
    intro s member
    obtain ⟨starts, ends⟩ := words s member
    have bounded := validateEach_range valid s member
    unfold Source.lastBlock
    cases openEnded : s.openEnded
    · exact ⟨bounded openEnded, ends⟩
    · exact ⟨by simp only [if_true]; omega, by simp⟩
  refine ⟨requireContiguous_ok_iff nonempty ranges, fun others perm => ?_,
    requireContiguousWords_iff words⟩
  have filled : others ≠ [] := by
    rintro rfl
    exact nonempty perm.nil_eq.symm
  rw [requireContiguous_ok_iff nonempty ranges, requireContiguous_ok_iff filled fun s member =>
    ranges s (perm.mem_iff.mp member), coveredBlocks_perm perm]
  simp only [perm.mem_iff]

/-- Two sources out of order that meet at the top of the range. -/
def metSources : List Source :=
  [⟨.blobTxs, 1, 0, [1], 2 ^ 64 - 1, 0, true⟩, ⟨.inboxEvents, 1, 1, [], 5, 2 ^ 64 - 2, false⟩]

theorem requireContiguous_exact_met :
    ∃ first last, IsLeast {block | ∃ s ∈ metSources, s.fromBlock = block} first ∧
      coveredBlocks metSources = Set.Icc first last :=
  (requireContiguous_exact metSources (by decide) (by simp [WordFields, metSources])
    (by decide)).1.mp (by decide)

end Bloar.Chain
