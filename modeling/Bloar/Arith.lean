import Bloar.RadixList

/-!
The window and directory arithmetic of `archive/arith.go`. A `uint64` is a
natural number below `2 ^ 64`; every operation that can leave that range is
reduced explicitly, so the wrapping and saturating cases of the source are
visible.
-/

namespace Bloar.Arith
open RadixList

/-- Kept folded: unfolding `2 ^ 64` in a definitional check is never useful. -/
@[irreducible] def u64 (n : Nat) : Nat := n % 2 ^ 64

theorem u64_eq (n : Nat) : u64 n = n % 2 ^ 64 := by rw [u64]

def maxUint64 : Nat := 2 ^ 64 - 1

theorem maxUint64_eq : maxUint64 = 18446744073709551615 := rfl

variable {n w segBits slot d fanoutBits i depth : Nat}

theorem u64_of_lt (small : n < 2 ^ 64) : u64 n = n := by
  rw [u64_eq, Nat.mod_eq_of_lt small]

def ord (slot segBits : Nat) : Nat := slot >>> segBits

def windowStart (w segBits : Nat) : Nat := u64 (w <<< segBits)

def pred64 (n : Nat) : Nat := if n = 0 then maxUint64 else n - 1

def windowEnd (w segBits : Nat) : Nat := pred64 (u64 (u64 (w + 1) <<< segBits))

def capacity (d fanoutBits : Nat) : Nat :=
  let bits := u64 (fanoutBits * d)
  if fanoutBits ≠ 0 ∧ bits / fanoutBits ≠ d then maxUint64
  else if bits ≥ 64 then maxUint64
  else 1 <<< bits

def canonicalDepth (n fanoutBits : Nat) : Nat :=
  if n = 0 then 0
  else
    let needed := Nat.size (n - 1)
    if needed = 0 then 1 else (needed + fanoutBits - 1) / fanoutBits

/-- The loop of `canonicalDirectoryPages` at `depth`, with `pages` counted so
far. At depth 64 the capacity has saturated, so 64 rounds always reach it. -/
def directoryPagesFrom (n fanoutBits : Nat) : Nat → Nat → Nat → Nat
  | 0, _, pages => pages
  | rounds + 1, depth, pages =>
    let cap := capacity depth fanoutBits
    let atDepth := if cap < n then 1 + (n - 1) / cap else 1
    if pages > maxUint64 - atDepth then maxUint64
    else if cap ≥ n then pages + atDepth
    else directoryPagesFrom n fanoutBits rounds (depth + 1) (pages + atDepth)

def canonicalDirectoryPages (n fanoutBits : Nat) : Nat :=
  if n = 0 then 0 else directoryPagesFrom n fanoutBits 64 1 0

def pathDigitsFrom (fanoutBits : Nat) : Nat → Nat → List Nat → List Nat × Nat
  | 0, rest, digits => (digits, rest)
  | level + 1, rest, digits =>
    let mask := pred64 (u64 (1 <<< fanoutBits))
    pathDigitsFrom fanoutBits level (rest >>> fanoutBits) ((rest &&& mask) :: digits)

/-- `none` is the source's `(nil, false)`. -/
def pathDigits (i depth fanoutBits : Nat) : Option (List Nat) :=
  if depth = 0 then if i = 0 then some [] else none
  else if depth > 64 then none
  else
    let (digits, rest) := pathDigitsFrom fanoutBits depth i []
    if rest ≠ 0 then none else some digits

def allZero (digits : List Nat) : Bool := digits.all fun d => d == 0

/-! ### Windows -/

theorem ord_eq_div (slot segBits : Nat) : ord slot segBits = slot / 2 ^ segBits :=
  Nat.shiftRight_eq_div_pow slot segBits

theorem ord_mono {a b : Nat} (segBits : Nat) (le : a ≤ b) : ord a segBits ≤ ord b segBits := by
  rw [ord_eq_div, ord_eq_div]
  exact Nat.div_le_div_right le

theorem ord_le (slot segBits : Nat) : ord slot segBits ≤ slot := by
  rw [ord_eq_div]
  exact Nat.div_le_self _ _

theorem windowStart_eq (small : w * 2 ^ segBits < 2 ^ 64) :
    windowStart w segBits = w * 2 ^ segBits := by
  rw [windowStart, Nat.shiftLeft_eq, u64_of_lt small]

theorem windowEnd_eq (small : (w + 1) * 2 ^ segBits < 2 ^ 64) :
    windowEnd w segBits = (w + 1) * 2 ^ segBits - 1 := by
  have positive : 0 < 2 ^ segBits := Nat.two_pow_pos segBits
  have wide : w + 1 ≤ (w + 1) * 2 ^ segBits := Nat.le_mul_of_pos_right _ positive
  rw [windowEnd, u64_of_lt (by omega : w + 1 < 2 ^ 64), Nat.shiftLeft_eq, u64_of_lt small, pred64,
    if_neg (by omega)]

theorem ord_lt_iff : ord slot segBits < w ↔ slot < w * 2 ^ segBits := by
  rw [ord_eq_div, Nat.div_lt_iff_lt_mul (Nat.two_pow_pos segBits)]

theorem le_ord_iff : w ≤ ord slot segBits ↔ w * 2 ^ segBits ≤ slot := by
  rw [ord_eq_div, Nat.le_div_iff_mul_le (Nat.two_pow_pos segBits)]

theorem ord_eq_iff :
    ord slot segBits = w ↔ w * 2 ^ segBits ≤ slot ∧ slot < (w + 1) * 2 ^ segBits := by
  rw [← le_ord_iff, ← ord_lt_iff]
  omega

/-! ### Capacity and depth -/

theorem capacity_eq (small : fanoutBits * d < 64) :
    capacity d fanoutBits = 2 ^ (fanoutBits * d) := by
  have exact : u64 (fanoutBits * d) = fanoutBits * d := u64_of_lt (by omega)
  simp only [capacity, exact]
  rw [if_neg, if_neg (by omega), Nat.one_shiftLeft]
  rintro ⟨nonzero, wrong⟩
  exact wrong (Nat.mul_div_cancel_left d (by omega))

theorem capacity_saturated (large : 64 ≤ fanoutBits * d) : capacity d fanoutBits = maxUint64 := by
  simp only [capacity]
  split
  · rfl
  · rename_i kept
    split
    · rfl
    · rename_i few
      -- A wrapped product cannot divide back to `d`.
      exfalso
      apply kept
      have nonzero : fanoutBits ≠ 0 := by
        rintro rfl
        simp at large
      refine ⟨nonzero, fun same => ?_⟩
      have low : fanoutBits * d ≤ u64 (fanoutBits * d) := by
        calc fanoutBits * d = fanoutBits * (u64 (fanoutBits * d) / fanoutBits) := by rw [same]
          _ ≤ u64 (fanoutBits * d) := Nat.mul_div_le _ _
      omega

theorem maxUint64_le_pow (large : 64 ≤ n) : maxUint64 ≤ 2 ^ n :=
  calc maxUint64 ≤ 2 ^ 64 := by decide
    _ ≤ 2 ^ n := Nat.pow_le_pow_right (by omega) large

theorem capacity_le_pow (d fanoutBits : Nat) : capacity d fanoutBits ≤ 2 ^ (fanoutBits * d) := by
  rcases Nat.lt_or_ge (fanoutBits * d) 64 with small | large
  · rw [capacity_eq small]
  · rw [capacity_saturated large]
    exact maxUint64_le_pow large

/-- Below the `uint64` range the saturation of `capacity` is invisible. -/
theorem lt_capacity_iff (small : i < maxUint64) :
    i < capacity d fanoutBits ↔ i < 2 ^ (fanoutBits * d) := by
  rcases Nat.lt_or_ge (fanoutBits * d) 64 with exact | large
  · rw [capacity_eq exact]
  · rw [capacity_saturated large]
    have wide := maxUint64_le_pow large
    omega

theorem le_capacity (small : i < maxUint64) (fits : i ≤ 2 ^ (fanoutBits * d)) :
    i ≤ capacity d fanoutBits := by
  rcases Nat.lt_or_ge (fanoutBits * d) 64 with exact | large
  · rw [capacity_eq exact]
    exact fits
  · rw [capacity_saturated large]
    omega

/-- `d` is the least directory depth whose capacity holds `n` entries, zero for
an empty directory and at least one otherwise. -/
structure IsDepth (fanoutBits n d : Nat) : Prop where
  zero_iff : d = 0 ↔ n = 0
  holds : n ≤ 2 ^ (fanoutBits * d)
  least : 1 < d → 2 ^ (fanoutBits * (d - 1)) < n

theorem IsDepth.unique {e : Nat} (first : IsDepth fanoutBits n d)
    (second : IsDepth fanoutBits n e) : d = e := by
  have le : ∀ {a b : Nat}, IsDepth fanoutBits n a → IsDepth fanoutBits n b → a ≤ b := by
    intro a b depthA depthB
    by_contra more
    rcases Nat.lt_or_ge 1 a with deep | shallow
    · have below : fanoutBits * b ≤ fanoutBits * (a - 1) := Nat.mul_le_mul_left _ (by omega)
      have bound := Nat.pow_le_pow_right (by omega : 0 < 2) below
      have above := depthA.least deep
      have holds := depthB.holds
      omega
    · have zero : b = 0 := by omega
      have empty := depthA.zero_iff.mpr (depthB.zero_iff.mp zero)
      omega
  exact Nat.le_antisymm (le first second) (le second first)

theorem IsDepth.le_64 (least : IsDepth fanoutBits n depth) (positive : 0 < fanoutBits)
    (small : n ≤ 2 ^ 64) : depth ≤ 64 := by
  by_contra deep
  have above := least.least (by omega)
  have wide : 64 ≤ fanoutBits * (depth - 1) :=
    calc 64 = 1 * 64 := by omega
      _ ≤ fanoutBits * (depth - 1) := Nat.mul_le_mul positive (by omega)
  have big := Nat.pow_le_pow_right (by omega : 0 < 2) wide
  omega

/-- One more entry either fits the old depth or makes the full tree one deeper. -/
theorem IsDepth.succ (least : IsDepth fanoutBits n depth) (some : 0 < depth)
    (room : n < 2 ^ (fanoutBits * depth)) : IsDepth fanoutBits (n + 1) depth :=
  ⟨by omega, by omega, fun deep => by have := least.least deep; omega⟩

theorem IsDepth.succ_of_full (positive : 0 < fanoutBits) (full : n = 2 ^ (fanoutBits * depth)) :
    IsDepth fanoutBits (n + 1) (depth + 1) := by
  have wider : 2 ^ (fanoutBits * depth) * 2 ≤ 2 ^ (fanoutBits * (depth + 1)) :=
    calc 2 ^ (fanoutBits * depth) * 2 = 2 ^ (fanoutBits * depth + 1) := by rw [Nat.pow_succ]
      _ ≤ 2 ^ (fanoutBits * (depth + 1)) := by
        apply Nat.pow_le_pow_right (by omega)
        rw [Nat.mul_succ]
        omega
  have one := Nat.two_pow_pos (fanoutBits * depth)
  refine ⟨by omega, by omega, fun _ => ?_⟩
  rw [Nat.add_sub_cancel]
  omega

theorem IsDepth.append (least : IsDepth fanoutBits i depth) (positive : 0 < fanoutBits)
    (small : i < 2 ^ 63) {made : Nat} (grown : depth = 0 ∧ i = 0 ∧ made = 1 ∨
      depth ≠ 0 ∧ i = capacity depth fanoutBits ∧ made = depth + 1 ∨
      depth ≠ 0 ∧ i < capacity depth fanoutBits ∧ made = depth) : IsDepth fanoutBits (i + 1) made := by
  have limit : maxUint64 = 2 ^ 64 - 1 := rfl
  have room_iff : i < capacity depth fanoutBits ↔ i < 2 ^ (fanoutBits * depth) :=
    lt_capacity_iff (by omega)
  have holds := least.holds
  rcases grown with ⟨-, rfl, rfl⟩ | ⟨deep, full, rfl⟩ | ⟨deep, room, rfl⟩
  · exact ⟨by omega, Nat.one_le_two_pow, by omega⟩
  · exact IsDepth.succ_of_full positive (by omega)
  · exact least.succ (by omega) (room_iff.mp room)

theorem canonicalDepth_isDepth (positive : 0 < fanoutBits) :
    IsDepth fanoutBits n (canonicalDepth n fanoutBits) := by
  unfold canonicalDepth
  split
  · rename_i empty
    subst empty
    exact ⟨by simp, by simp, by simp⟩
  · rename_i nonempty
    simp only
    have sized := Nat.lt_size_self (n - 1)
    split
    · rename_i single
      rw [single] at sized
      refine ⟨by omega, ?_, by omega⟩
      have one := Nat.one_le_two_pow (n := fanoutBits * 1)
      omega
    · rename_i several
      set needed := Nat.size (n - 1) with needed_eq
      set d := (needed + fanoutBits - 1) / fanoutBits with d_eq
      have rounded := Nat.div_add_mod (needed + fanoutBits - 1) fanoutBits
      have remainder := Nat.mod_lt (needed + fanoutBits - 1) positive
      rw [← d_eq] at rounded
      have deep : 0 < d := Nat.div_pos (by omega) positive
      refine ⟨by omega, ?_, fun _ => ?_⟩
      · have enough := Nat.pow_le_pow_right (by omega : 0 < 2) (by omega : needed ≤ fanoutBits * d)
        omega
      · have predecessor : fanoutBits * (d - 1) + fanoutBits = fanoutBits * d := by
          rw [← Nat.mul_succ]
          congr 1
          omega
        have short : fanoutBits * (d - 1) < needed := by omega
        have low : 2 ^ (fanoutBits * (d - 1)) ≤ n - 1 := Nat.lt_size.mp short
        omega

/-! ### Paths -/

theorem mask_eq (small : fanoutBits < 64) :
    pred64 (u64 (1 <<< fanoutBits)) = 2 ^ fanoutBits - 1 := by
  have below : 2 ^ fanoutBits < 2 ^ 64 := Nat.pow_lt_pow_right (by omega) small
  have positive := Nat.two_pow_pos fanoutBits
  rw [Nat.one_shiftLeft, u64_of_lt below, pred64, if_neg (by omega)]

theorem pathDigitsFrom_eq (small : fanoutBits < 64) (level rest : Nat) (taken : List Nat) :
    pathDigitsFrom fanoutBits level rest taken =
      (digits (2 ^ fanoutBits) level (rest % (2 ^ fanoutBits) ^ level) ++ taken,
        rest / (2 ^ fanoutBits) ^ level) := by
  have positive : ∀ k, 0 < (2 ^ fanoutBits) ^ k := fun k =>
    Nat.pow_pos (Nat.two_pow_pos fanoutBits)
  induction level generalizing rest taken with
  | zero => simp [pathDigitsFrom, digits]
  | succ level ih =>
    have power : (2 ^ fanoutBits) ^ (level + 1) = 2 ^ fanoutBits * (2 ^ fanoutBits) ^ level := by
      ring
    simp only [pathDigitsFrom, mask_eq small]
    rw [ih, Nat.and_two_pow_sub_one_eq_mod, Nat.shiftRight_eq_div_pow,
      digits_snoc (Nat.mod_lt _ (positive _)), power, Nat.mod_mul_right_div_self,
      Nat.mod_mul_right_mod, Nat.div_div_eq_div_mul]
    simp

theorem pathDigits_eq (small : fanoutBits < 64) (shallow : depth ≤ 64)
    (fits : i < 2 ^ (fanoutBits * depth)) :
    pathDigits i depth fanoutBits = some (digits (2 ^ fanoutBits) depth i) := by
  rw [pow_mul] at fits
  unfold pathDigits
  split
  · rename_i flat
    subst flat
    simp_all [digits]
  · rw [if_neg (by omega), pathDigitsFrom_eq small]
    simp [Nat.mod_eq_of_lt fits, Nat.div_eq_of_lt fits]

theorem pathDigits_none (small : fanoutBits < 64) (outside : 2 ^ (fanoutBits * depth) ≤ i) :
    pathDigits i depth fanoutBits = none := by
  rw [pow_mul] at outside
  unfold pathDigits
  split
  · rename_i flat
    subst flat
    rw [if_neg (by simpa using Nat.one_le_iff_ne_zero.mp outside)]
  · split
    · rfl
    · rw [pathDigitsFrom_eq small]
      have rest : i / (2 ^ fanoutBits) ^ depth ≠ 0 :=
        Nat.ne_of_gt (Nat.div_pos outside (Nat.pow_pos (Nat.two_pow_pos fanoutBits)))
      simp only [ne_eq, rest, not_false_eq_true, if_true]

theorem allZero_iff {ds : List Nat} : allZero ds = true ↔ ∀ d ∈ ds, d = 0 := by
  simp [allZero]

end Bloar.Arith
