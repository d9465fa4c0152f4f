import Bloar.Enumerate

/-!
The directory geometry of a head. Coverage fixes how many windows are sealed, and
they fix the depth of the directory and its pages. Within the output budget
neither the saturating capacity nor the page budgets matter: `Spans` is all that
the checks on a covered head ask for.
-/

namespace Bloar.Archive
open Ipld Arith Fallible RadixList
theorem refuse_ok_iff {α : Type} {condition : Prop} [Decidable condition] {e : Error}
    {x : Except Error α} {a : α} :
    (if condition then .error e else x) = .ok a ↔ ¬ condition ∧ x = .ok a := by
  by_cases refused : condition <;> simp [refused]

theorem mapError_ok_iff {α : Type} {x : Except Error α} {f : Error → Error} {a : α} :
    x.mapError f = .ok a ↔ x = .ok a := by
  cases x <;> simp [Except.mapError]

/-! ### Page counts -/

variable {fanoutBits n depth : Nat} {st : State}

/-- Within a walk's limits a kid starts and ends where the exact capacity says. -/
theorem capacity_kid {d entries digit : Nat} (small : entries < maxUint64)
    (inside : digit * 2 ^ (fanoutBits * d) < entries) :
    digit * capacity d fanoutBits = digit * 2 ^ (fanoutBits * d) ∧
      min (entries - digit * 2 ^ (fanoutBits * d)) (capacity d fanoutBits) =
        min (entries - digit * 2 ^ (fanoutBits * d)) (2 ^ (fanoutBits * d)) := by
  rcases Nat.lt_or_ge (fanoutBits * d) 64 with exact | large
  · rw [capacity_eq exact]
    exact ⟨rfl, rfl⟩
  · -- The capacity has saturated, so all entries are below the first kid.
    have wide : 2 ^ 64 ≤ 2 ^ (fanoutBits * d) := Nat.pow_le_pow_right (by omega) large
    have limit : maxUint64 < 2 ^ 64 := by decide
    have first : digit = 0 := by
      by_contra later
      have below := Nat.le_mul_of_pos_left (2 ^ (fanoutBits * d)) (Nat.pos_of_ne_zero later)
      omega
    rw [capacity_saturated large, first]
    omega

theorem expectedKids_eq {d entries : Nat} (small : entries < maxUint64) (positive : 0 < entries) :
    expectedKids (capacity d fanoutBits) entries = chunkCount (2 ^ (fanoutBits * d)) entries := by
  unfold expectedKids
  by_cases more : capacity d fanoutBits < entries
  · rw [if_pos more]
    have exact : capacity d fanoutBits = 2 ^ (fanoutBits * d) := by
      rcases Nat.lt_or_ge (fanoutBits * d) 64 with few | large
      · exact capacity_eq few
      · rw [capacity_saturated large] at more
        omega
    obtain ⟨n, rfl⟩ := Nat.exists_eq_succ_of_ne_zero (Nat.ne_of_gt positive)
    rw [exact, Nat.succ_sub_one, Nat.succ_eq_add_one, chunkCount_succ (Nat.two_pow_pos _),
      Nat.add_comm]
  · have whole := capacity_le_pow d fanoutBits
    rw [if_neg more, chunkCount_eq_one positive (by omega)]

theorem directoryPagesFrom_eq {top : Nat} (depth : IsDepth fanoutBits n top)
    (positive : 0 < fanoutBits) (some : 0 < n) (small : n ≤ 2 ^ 63) {rounds level : Nat}
    (below : level < top) (enough : top ≤ level + rounds) :
    directoryPagesFrom n fanoutBits rounds (level + 1) (pathsUpTo (2 ^ fanoutBits) n level) =
      pathsUpTo (2 ^ fanoutBits) n top := by
  have binary : 2 ≤ 2 ^ fanoutBits := Nat.pow_le_pow_right (by omega : 0 < 2) positive
  have max : maxUint64 = 2 ^ 64 - 1 := rfl
  have deep := depth.le_64 positive (by omega)
  induction rounds generalizing level with
  | zero => omega
  | succ rounds ih =>
    have atDepth : expectedKids (capacity (level + 1) fanoutBits) n = _ :=
      expectedKids_eq (by omega) some
    have power : 2 ^ (fanoutBits * (level + 1)) = (2 ^ fanoutBits) ^ (level + 1) := Nat.pow_mul ..
    rw [power, expectedKids] at atDepth
    have sum := pathsUpTo_succ (2 ^ fanoutBits) n level
    have bound := pathsUpTo_le binary n (level + 1)
    have holds_iff : n - 1 < capacity (level + 1) fanoutBits ↔ _ := lt_capacity_iff (by omega)
    rw [directoryPagesFrom, atDepth, if_neg (by omega), Nat.add_comm (pathsUpTo _ _ _), ← sum]
    by_cases last : level + 1 = top
    · have fits := depth.holds
      rw [if_pos (by rw [← last] at fits; omega), last]
    · have wider := depth.least (by omega)
      have narrow : 2 ^ (fanoutBits * (level + 1)) ≤ 2 ^ (fanoutBits * (top - 1)) :=
        Nat.pow_le_pow_right (by omega) (Nat.mul_le_mul_left _ (by omega))
      rw [if_neg (by omega)]
      exact ih (by omega) (by omega)

theorem canonicalDirectoryPages_eq (least : IsDepth fanoutBits n depth)
    (positive : 0 < fanoutBits) (small : n ≤ 2 ^ 63) :
    canonicalDirectoryPages n fanoutBits = pathsUpTo (2 ^ fanoutBits) n depth := by
  unfold canonicalDirectoryPages
  by_cases empty : n = 0
  · rw [if_pos empty, least.zero_iff.mpr empty, pathsUpTo]
  · rw [if_neg empty]
    have filled := mt least.zero_iff.mp empty
    have deep := least.le_64 positive (by omega)
    have start : pathsUpTo (2 ^ fanoutBits) n 0 = 0 := rfl
    rw [← start]
    exact directoryPagesFrom_eq least positive (by omega) small (by omega) (by omega)

/-! ### The checks on a state -/

structure Spans (st : State) (openOrd sealedCount : Nat) : Prop where
  bounded : st.syncedTo ≠ maxUint64
  openOrd_eq : openOrd = ord (st.syncedTo + 1) st.params.segBits
  total : st.dirBase + sealedCount = openOrd
  sealed_le : sealedCount ≤ maxEnumerationOutputs
  depth : IsDepth st.params.fanoutBits sealedCount st.dirDepth

theorem canonicalDepth_eq_iff (positive : 0 < fanoutBits) :
    depth = canonicalDepth n fanoutBits ↔ IsDepth fanoutBits n depth := by
  have canonical : IsDepth fanoutBits n (canonicalDepth n fanoutBits) :=
    canonicalDepth_isDepth positive
  constructor
  · rintro rfl
    exact canonical
  · intro least
    exact least.unique canonical

theorem canonicalDirectoryPages_le (least : IsDepth fanoutBits n depth)
    (positive : 0 < fanoutBits) (few : n ≤ maxEnumerationOutputs) :
    canonicalDirectoryPages n fanoutBits ≤ n + 64 := by
  have outputs : maxEnumerationOutputs = 1048576 := rfl
  have binary : 2 ≤ 2 ^ fanoutBits := Nat.pow_le_pow_right (by omega : 0 < 2) positive
  have bound := pathsUpTo_le binary n depth
  have deep := least.le_64 positive (by omega)
  rw [canonicalDirectoryPages_eq least positive (by omega)]
  omega

theorem validateDirectoryGeometry_covered_iff {openOrd sealedCount : Nat}
    (covered : st.covered = true) (positive : 0 < st.params.fanoutBits) :
    validateDirectoryGeometry st = .ok (openOrd, sealedCount) ↔ Spans st openOrd sealedCount := by
  have outputs : maxEnumerationOutputs = 1048576 := rfl
  have paths : maxEnumerationPaths = 2097152 := rfl
  have unique : maxEnumerationUniqueNodes = 4194304 := rfl
  unfold validateDirectoryGeometry
  rw [if_neg (by simp [covered])]
  simp only [refuse_ok_iff, Except.ok.injEq, Prod.mk.injEq, Nat.not_lt, not_or, gt_iff_lt, ne_eq,
    not_not, canonicalDepth_eq_iff positive]
  constructor
  · rintro ⟨bounded, base, few, depth, -, -, rfl, rfl⟩
    exact ⟨bounded, rfl, by omega, few, depth⟩
  · rintro ⟨bounded, rfl, total, few, depth⟩
    have count : ord (st.syncedTo + 1) st.params.segBits - st.dirBase = sealedCount := by omega
    rw [count]
    have pages := canonicalDirectoryPages_le depth positive few
    exact ⟨bounded, by omega, few, depth, by omega, ⟨by omega, by omega⟩, rfl, rfl⟩

theorem validateDirectoryGeometry_uncovered_iff {found : Nat × Nat}
    (uncovered : st.covered = false) :
    validateDirectoryGeometry st = .ok found ↔
      st.dirDepth = 0 ∧ st.dir = none ∧ st.openCid = none ∧ found = (0, 0) := by
  unfold validateDirectoryGeometry
  rw [if_pos uncovered, refuse_ok_iff]
  simp only [not_or, ne_eq, not_not, Option.not_isSome_iff_eq_none, Except.ok.injEq, and_assoc]
  rw [eq_comm (a := (0, 0))]

@[mk_iff]
structure Loadable (st : State) : Prop where
  opened : st.covered = st.openCid.isSome
  fanout_pos : 0 < st.params.fanoutBits
  fanout_le : st.params.fanoutBits ≤ 32
  seg_le : st.params.segBits ≤ 63
  geometry : ∃ spans, validateDirectoryGeometry st = .ok spans
  dir : ∀ c, st.dir = some c → HasPrefix dagCBOR c
  open_prefix : ∀ c, st.openCid = some c → HasPrefix dagCBOR c

theorem checkLoaded_ok_iff {u : Unit} : checkLoaded st = .ok u ↔ Loadable st := by
  unfold checkLoaded
  simp only [refuse_ok_iff, Loops.bind_ok_iff, mapError_ok_iff, ne_eq, not_not, not_or, Nat.not_lt,
    gt_iff_lt, loadable_iff, Nat.pos_iff_ne_zero]
  obtain ⟨params, syncedTo, covered, dirDepth, dir, openCid, root⟩ := st
  cases dir <;> cases openCid <;>
    simp [Loops.bind_ok_iff, mapError_ok_iff, validateIndexCID_ok_iff, pure, Except.pure, and_assoc]

end Bloar.Archive
