import Bloar.Totality
import Bloar.IndexBytes

/-!
A directory grown from nothing by appends. Its depth, its pages and the paths to its
entries are what the closed forms of `archive/arith.go` compute, at every fanout and for
every number of entries that a head can seal.
-/

namespace Bloar.Archive
open Ipld Arith Fallible RadixList
variable {σ : Type}

/-- Entries appended one after the other, the first at index `i`. -/
def dirAppends (ipld : Codec) (cfg : Config σ) (fanoutBits : Nat) :
    Link → Nat → Nat → List Link → Engine σ (Link × Nat)
  | dir, depth, _, [] => pure (dir, depth)
  | dir, depth, i, kid :: rest => do
      let (dir, depth) ← dirAppend ipld cfg dir depth fanoutBits i kid
      dirAppends ipld cfg fanoutBits dir depth (i + 1) rest

/-- The logical page positions of a directory, each with the page that stands there. -/
noncomputable def dirPositions (ipld : Codec) : Link → Nat → List Cid
  | some c, level + 1 => pagesUnder ipld level c
  | _, _ => []

section Appends
variable {ipld : Codec} {cfg : Config σ} {fanoutBits depth i : Nat} {dir : Link} {w : World σ}

theorem dirAppends_depth (positive : 0 < fanoutBits) (kids : List Link)
    (least : IsDepth fanoutBits i depth) (small : i + kids.length ≤ 2 ^ 63) :
    Post (dirAppends ipld cfg fanoutBits dir depth i kids) w
      (fun r _ => IsDepth fanoutBits (i + kids.length) r.2) (fun _ => True) := by
  induction kids generalizing dir depth i w with
  | nil => exact post_pure least
  | cons kid rest ih =>
    rw [List.length_cons] at small ⊢
    refine post_then (dirAppend_depth _ _ _ _ _ _) ?_
    rintro r after ⟨-, grown⟩
    rw [Nat.add_comm rest.length, ← Nat.add_assoc]
    exact ih (least.append positive (by omega) grown) (by omega)

variable {holds : World σ → Cid → Prop} {unread flaky : Prop} {es : List Link}

theorem Upholds.dirAppends_spec (up : Upholds ipld cfg holds unread flaky)
    (positive : 0 < fanoutBits) (narrow : fanoutBits < 64) (kids : List Link)
    (canonical : DirOf ipld fanoutBits holds w es dir depth)
    (small : es.length + kids.length ≤ 2 ^ 63) (links : IndexLinks ipld (es ++ kids)) :
    Post (dirAppends ipld cfg fanoutBits dir depth es.length kids) w
      (fun r after => DirOf ipld fanoutBits holds after (es ++ kids) r.1 r.2)
      (fun _ => flaky ∨ BigPage ipld (2 ^ fanoutBits)) := by
  induction kids generalizing dir depth es w with
  | nil =>
    rw [List.append_nil]
    exact post_pure canonical
  | cons kid rest ih =>
    rw [List.length_cons] at small
    rw [List.append_cons] at links ⊢
    refine post_then (up.dirAppend_spec positive narrow canonical (by omega)
      (links.sub (List.subset_append_left _ _))) ?_
    intro r after grown
    have further := ih grown (by simp; omega) links
    rwa [List.length_append, List.length_singleton] at further

theorem DirOf.length_dirPositions (canonical : DirOf ipld fanoutBits holds w es dir depth)
    (positive : 0 < fanoutBits) (small : es.length ≤ 2 ^ 63) :
    (dirPositions ipld dir depth).length = canonicalDirectoryPages es.length fanoutBits := by
  obtain ⟨least, rfl, stored⟩ := canonical
  rw [canonicalDirectoryPages_eq least positive small]
  cases depth with
  | zero => rfl
  | succ level =>
    have filled : es ≠ [] := by
      rintro rfl
      exact absurd (least.zero_iff.mpr rfl) (by omega)
    have fits := least.holds
    rw [Nat.pow_mul] at fits
    exact ((stored level rfl).pageAt (Nat.two_pow_pos _) filled fits).length_pagesUnder
      (Nat.two_pow_pos _) filled fits

end Appends

/-! ### The closed forms -/

theorem pathsUpTo_eq_sum (radix n depth : Nat) :
    pathsUpTo radix n depth = ∑ d ∈ Finset.Icc 1 depth, n ⌈/⌉ radix ^ d := by
  induction depth with
  | zero => rfl
  | succ depth ih =>
    rw [pathsUpTo_succ, ih, Finset.sum_Icc_succ_top (by omega), Nat.add_comm]
    rfl

theorem ofDigits_digits {base depth i : Nat} (fits : i < base ^ depth) :
    (digits base depth i).length = depth ∧ (∀ x ∈ digits base depth i, x < base) ∧
      Nat.ofDigits base (digits base depth i).reverse = i := by
  induction depth generalizing i with
  | zero =>
    obtain rfl : i = 0 := by simpa using fits
    simp [digits]
  | succ depth ih =>
    have positive : 0 < base := by
      rcases Nat.eq_zero_or_pos base with rfl | positive
      · simp at fits
      · exact positive
    have high : i / base < base ^ depth := by
      rwa [Nat.div_lt_iff_lt_mul positive, ← Nat.pow_succ]
    obtain ⟨length, below, value⟩ := ih high
    rw [digits_snoc fits]
    refine ⟨by simp [length], fun x member => ?_, ?_⟩
    · rcases List.mem_append.mp member with front | last
      · exact below x front
      · rw [List.mem_singleton.mp last]
        exact Nat.mod_lt i positive
    · rw [List.reverse_append, List.reverse_singleton, List.singleton_append, Nat.ofDigits_cons,
        value]
      exact Nat.mod_add_div i base

variable {n fanoutBits : Nat}

/-- Saturated or not, a capacity compares with a sealed count as the exact power does. -/
theorem le_capacity_iff (small : n < 2 ^ 63) (d : Nat) :
    n ≤ capacity d fanoutBits ↔ n ≤ (2 ^ fanoutBits) ^ d := by
  have limit : maxUint64 = 2 ^ 64 - 1 := rfl
  rw [← Nat.pow_mul]
  exact ⟨fun fits => Nat.le_trans fits (capacity_le_pow d fanoutBits), le_capacity (by omega)⟩

theorem canonicalDepth_isLeast (small : n < 2 ^ 63) (positive : 0 < fanoutBits) (some : 0 < n) :
    IsLeast {d | 0 < d ∧ n ≤ capacity d fanoutBits} (canonicalDepth n fanoutBits) := by
  have depth : IsDepth fanoutBits n (canonicalDepth n fanoutBits) := canonicalDepth_isDepth positive
  have filled := mt depth.zero_iff.mp (by omega)
  refine ⟨⟨by omega, (le_capacity_iff small _).mpr (Nat.pow_mul .. ▸ depth.holds)⟩, ?_⟩
  rintro d ⟨deep, fits⟩
  by_contra shallow
  have above := depth.least (by omega)
  have wider : 2 ^ (fanoutBits * d) ≤ 2 ^ (fanoutBits * (canonicalDepth n fanoutBits - 1)) :=
    Nat.pow_le_pow_right (by omega) (Nat.mul_le_mul_left _ (by omega))
  have bound := capacity_le_pow d fanoutBits
  omega

theorem canonicalDirectoryPages_eq_sum (small : n < 2 ^ 63) (positive : 0 < fanoutBits) :
    canonicalDirectoryPages n fanoutBits =
      ∑ d ∈ Finset.Icc 1 (canonicalDepth n fanoutBits), n ⌈/⌉ capacity d fanoutBits := by
  rw [canonicalDirectoryPages_eq (canonicalDepth_isDepth positive) positive (by omega),
    pathsUpTo_eq_sum]
  refine Finset.sum_congr rfl fun d _ => ?_
  rcases Nat.lt_or_ge (fanoutBits * d) 64 with exact | large
  · rw [capacity_eq exact, Nat.pow_mul]
  · -- Above the saturated capacity every level has one page, however wide it really is.
    have fits : n ≤ capacity d fanoutBits := by
      rw [capacity_saturated large, maxUint64_eq]
      omega
    rcases Nat.eq_zero_or_pos n with rfl | some
    · simp
    · exact (chunkCount_eq_one some ((le_capacity_iff small d).mp fits)).trans
        (chunkCount_eq_one some fits).symm

theorem pathDigits_expands (narrow : fanoutBits < 64) {i d : Nat} (shallow : d ≤ 64) :
    ((∃ ds, pathDigits i d fanoutBits = some ds) ↔ i < (2 ^ fanoutBits) ^ d) ∧
      ∀ ds, pathDigits i d fanoutBits = some ds →
        ds.length = d ∧ (∀ x ∈ ds, x < 2 ^ fanoutBits) ∧
          Nat.ofDigits (2 ^ fanoutBits) ds.reverse = i := by
  rcases Nat.lt_or_ge i ((2 ^ fanoutBits) ^ d) with fits | outside
  · rw [pathDigits_eq narrow shallow (by rwa [Nat.pow_mul])]
    refine ⟨iff_of_true ⟨_, rfl⟩ fits, ?_⟩
    rintro ds ⟨⟩
    exact ofDigits_digits fits
  · rw [pathDigits_none narrow (by rwa [Nat.pow_mul])]
    exact ⟨iff_of_false (by simp) (by omega), by simp⟩

/-- The directory geometry of `archive/arith.go` is that of the tree that appends build:
the least positive depth, one page for each position, and the digits that lead to an entry. -/
theorem directory_geometry (n fanoutBits : Nat) (small : n < 2 ^ 63) (low : 1 ≤ fanoutBits)
    (high : fanoutBits ≤ 32) :
    (n = 0 → canonicalDepth n fanoutBits = 0) ∧
    (0 < n → IsLeast {d | 0 < d ∧ n ≤ capacity d fanoutBits} (canonicalDepth n fanoutBits)) ∧
    (∀ d, n ≤ capacity d fanoutBits ↔ n ≤ (2 ^ fanoutBits) ^ d) ∧
    (∀ {σ : Type} (ipld : Codec) (cfg : Config σ) (w : World σ) (kids : List Link),
      kids.length = n → Post (dirAppends ipld cfg fanoutBits none 0 0 kids) w
        (fun r _ => r.2 = canonicalDepth n fanoutBits) (fun _ => True)) ∧
    canonicalDirectoryPages n fanoutBits =
      ∑ d ∈ Finset.Icc 1 (canonicalDepth n fanoutBits), n ⌈/⌉ capacity d fanoutBits ∧
    (∀ {σ : Type} {ipld : Codec} {cfg : Config σ} {holds : World σ → Cid → Prop}
      {unread flaky : Prop}, Upholds ipld cfg holds unread flaky →
      ∀ (w : World σ) (kids : List Link), kids.length = n → IndexLinks ipld kids →
        Post (dirAppends ipld cfg fanoutBits none 0 0 kids) w
          (fun r _ => r.2 = canonicalDepth n fanoutBits ∧
            (dirPositions ipld r.1 r.2).length = canonicalDirectoryPages n fanoutBits)
          (fun _ => flaky ∨ BigPage ipld (2 ^ fanoutBits))) ∧
    (∀ i d, d ≤ 64 →
      ((∃ ds, pathDigits i d fanoutBits = some ds) ↔ i < (2 ^ fanoutBits) ^ d) ∧
      ∀ ds, pathDigits i d fanoutBits = some ds →
        ds.length = d ∧ (∀ x ∈ ds, x < 2 ^ fanoutBits) ∧
          Nat.ofDigits (2 ^ fanoutBits) ds.reverse = i) := by
  have start : IsDepth fanoutBits 0 0 := ⟨by simp, by simp, by simp⟩
  refine ⟨fun empty => if_pos empty, canonicalDepth_isLeast small low, le_capacity_iff small,
    fun ipld cfg w kids length => ?_, canonicalDirectoryPages_eq_sum small low,
    fun up w kids length links => ?_, fun i d shallow => pathDigits_expands (by omega) shallow⟩
  · refine post_mono (dirAppends_depth low kids start (by omega)) (fun r _ least => ?_)
      fun _ raised => raised
    rw [Nat.zero_add, length] at least
    exact (canonicalDepth_eq_iff low).mpr least
  · refine post_mono (up.dirAppends_spec low (by omega) kids DirOf.nil (by simp; omega) links)
      (fun r after canonical => ?_) fun _ raised => raised
    rw [List.nil_append] at canonical
    exact ⟨(canonicalDepth_eq_iff low).mpr (length ▸ canonical.least),
      length ▸ canonical.length_dirPositions low (by omega)⟩

theorem directory_geometry_memory :
    Post (dirAppends DagCbor.codec sampleConfig 1 none 0 0 [none, none, none]) (newHead [] sampleParams)
      (fun r _ => r.2 = canonicalDepth 3 1 ∧
        (dirPositions DagCbor.codec r.1 r.2).length = canonicalDirectoryPages 3 1)
      (fun _ => False ∨ BigPage DagCbor.codec (2 ^ 1)) :=
  (directory_geometry 3 1 (by omega) (by omega) (by omega)).2.2.2.2.2.1
    (memory_upholds DagCbor.codec sampleBlob) _ _ rfl (by simp [IndexLinks])

/-- One entry fits a tree without levels, and no tree of more than 64 levels is addressed. -/
theorem geometry_at_edges : 1 ≤ capacity 0 1 ∧ canonicalDepth 1 1 = 1 ∧
    0 < (2 ^ 1) ^ 65 ∧ pathDigits 0 65 1 = none := by
  refine ⟨?_, ?_, by decide, rfl⟩
  · rw [capacity_eq (by omega)]
    decide
  · simp [canonicalDepth]

end Bloar.Archive
