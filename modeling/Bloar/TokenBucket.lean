import Mathlib

/-!
Token buckets. A bucket fills at a constant rate up to its burst; a reservation takes tokens
at once, in advance if it must, and can be cancelled at the instant it was made.
-/

namespace Bloar.TokenBucket

structure Bucket where
  tokens : ℚ
  last : ℚ
  deriving DecidableEq

namespace Bucket

variable (rate burst : ℚ)

/-- The tokens at a time, which no clock set back can lower. -/
def level (b : Bucket) (t : ℚ) : ℚ := min burst (b.tokens + rate * max 0 (t - b.last))

def full : Bucket := { tokens := burst, last := 0 }

def reserve (b : Bucket) (now cost : ℚ) : Bucket :=
  if cost ≤ burst then { tokens := b.level rate burst now - cost, last := now } else b

def cancel (b : Bucket) (now cost : ℚ) : Bucket :=
  if cost ≤ burst then { tokens := min burst (b.level rate burst now + cost), last := now } else b

def delay (b : Bucket) : ℚ := max 0 (-b.tokens / rate)

variable {rate burst} {b : Bucket} {t t' now cost ttl : ℚ}

theorem level_le : b.level rate burst t ≤ burst := min_le_left _ _

theorem level_now {tokens : ℚ} (low : tokens ≤ burst) :
    level rate burst { tokens, last := now } now = tokens := by
  simp [level, low]

theorem level_full (fills : 0 < rate) : (full burst).level rate burst t = burst := by
  have gain : 0 ≤ rate * max 0 (t - 0) := by positivity
  simp only [level, full, min_eq_left_iff]
  linarith

theorem level_nonneg (fills : 0 < rate) (room : 0 ≤ burst) (solvent : 0 ≤ b.tokens) :
    0 ≤ b.level rate burst t := by
  have gain : 0 ≤ rate * max 0 (t - b.last) := by positivity
  exact le_min room (by linarith)

theorem level_gain (fills : 0 < rate) (later : t ≤ t') :
    b.level rate burst t' ≤ b.level rate burst t + rate * (t' - t) := by
  have more : max 0 (t' - b.last) ≤ max 0 (t - b.last) + (t' - t) := by
    rcases max_cases 0 (t' - b.last) with ⟨_, _⟩ | ⟨_, _⟩ <;>
      rcases max_cases 0 (t - b.last) with ⟨_, _⟩ | ⟨_, _⟩ <;> linarith
  have scaled := mul_le_mul_of_nonneg_left more fills.le
  have gap : 0 ≤ rate * (t' - t) := mul_nonneg fills.le (by linarith)
  unfold level
  rcases min_cases burst (b.tokens + rate * max 0 (t - b.last)) with ⟨low, _⟩ | ⟨low, _⟩
  · rw [low]
    exact (min_le_left _ _).trans (by linarith)
  · rw [low]
    exact (min_le_right _ _).trans (by linarith)

/-- Reading a bucket between its last change and `t` changes nothing at `t`. -/
theorem level_settle (fills : 0 < rate) (after : b.last ≤ now) (later : now ≤ t) :
    level rate burst { tokens := b.level rate burst now, last := now } t =
      b.level rate burst t := by
  have gap : 0 ≤ rate * (t - now) := mul_nonneg fills.le (by linarith)
  simp only [level, max_eq_right (sub_nonneg.mpr after), max_eq_right (sub_nonneg.mpr later),
    max_eq_right (sub_nonneg.mpr (after.trans later))]
  rw [min_add, ← min_assoc, min_eq_left (show burst ≤ burst + rate * (t - now) by linarith)]
  congr 1
  ring

theorem reserve_of_le (fits : cost ≤ burst) : b.reserve rate burst now cost =
    { tokens := b.level rate burst now - cost, last := now } := if_pos fits

theorem cancel_reserve (pays : 0 ≤ cost) (fits : cost ≤ burst) :
    (b.reserve rate burst now cost).cancel rate burst now cost =
      { tokens := b.level rate burst now, last := now } := by
  have full : b.level rate burst now ≤ burst := level_le
  rw [reserve_of_le fits, cancel, if_pos fits]
  generalize b.level rate burst now = there at full
  rw [level_now (by linarith), sub_add_cancel, min_eq_right full]

theorem level_idle (fills : 0 < rate) (refills : burst ≤ rate * ttl) (solvent : 0 ≤ b.tokens)
    (idle : b.last + ttl ≤ t) : b.level rate burst t = burst := by
  have waited : ttl ≤ max 0 (t - b.last) := (by linarith : ttl ≤ t - b.last).trans (le_max_right _ _)
  have scaled := mul_le_mul_of_nonneg_left waited fills.le
  exact min_eq_left (by linarith)

theorem delay_eq_zero (fills : 0 < rate) : b.delay rate = 0 ↔ 0 ≤ b.tokens := by
  rw [delay, max_eq_left_iff, div_le_iff₀ fills, zero_mul, neg_nonpos]

end Bucket

end Bloar.TokenBucket
