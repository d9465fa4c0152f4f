import Mathlib

/-!
A list cut into consecutive chunks of one capacity, and the positional digits
that address an index chunk by chunk. A tree whose page at each level lists one
child per chunk of its entries is described by these functions alone, so
appending, truncating and indexing such a tree reduce to the chunk equations
below.
-/

namespace Bloar.RadixList

variable {α : Type}

/-- Chunk `j` of `es`: the entries at indices `[j * cap, (j + 1) * cap)`. -/
def chunk (cap j : Nat) (es : List α) : List α := (es.drop (j * cap)).take cap

def chunkCount (cap n : Nat) : Nat := (n + cap - 1) / cap

variable {cap n j : Nat} {es : List α} {radix : Nat}

theorem lt_chunkCount_iff (positive : 0 < cap) (j n : Nat) :
    j < chunkCount cap n ↔ j * cap < n := by
  unfold chunkCount
  rw [Nat.lt_iff_add_one_le, Nat.le_div_iff_mul_le positive, Nat.add_mul, Nat.one_mul]
  omega

theorem chunkCount_zero (positive : 0 < cap) : chunkCount cap 0 = 0 := by
  have none : ¬ 0 < chunkCount cap 0 := by
    rw [lt_chunkCount_iff positive]
    omega
  omega

theorem chunkCount_pos (positive : 0 < cap) (some : 0 < n) : 0 < chunkCount cap n := by
  rw [lt_chunkCount_iff positive]
  omega

theorem chunkCount_succ (positive : 0 < cap) (n : Nat) : chunkCount cap (n + 1) = n / cap + 1 := by
  unfold chunkCount
  rw [show n + 1 + cap - 1 = n + cap by omega, Nat.add_div_right _ positive]

theorem chunkCount_add_mul (positive : 0 < cap) (count n : Nat) :
    chunkCount cap (count * cap + n) = count + chunkCount cap n := by
  unfold chunkCount
  rw [show count * cap + n + cap - 1 = n + cap - 1 + count * cap by omega,
    Nat.add_mul_div_right _ _ positive, Nat.add_comm]

theorem chunkCount_mul (positive : 0 < cap) (count : Nat) :
    chunkCount cap (count * cap) = count := by
  have split := chunkCount_add_mul positive count 0
  rwa [Nat.add_zero, chunkCount_zero positive, Nat.add_zero] at split

theorem chunkCount_eq_one (positive : 0 < n) (fits : n ≤ cap) : chunkCount cap n = 1 := by
  unfold chunkCount
  exact Nat.div_eq_of_lt_le (by omega) (by omega)

theorem chunkCount_sub (positive : 0 < cap) (some : 0 < n) :
    chunkCount cap n = chunkCount cap (n - cap) + 1 := by
  rcases Nat.le_total n cap with fits | longer
  · rw [chunkCount_eq_one some fits, Nat.sub_eq_zero_of_le fits, chunkCount_zero positive]
  · have split := chunkCount_add_mul positive 1 (n - cap)
    rwa [Nat.one_mul, Nat.add_sub_cancel' longer, Nat.add_comm] at split

/-- The full chunks, and one more for what is left. -/
theorem chunkCount_div_mod (positive : 0 < cap) (n : Nat) :
    chunkCount cap n = n / cap + chunkCount cap (n % cap) := by
  rw [← chunkCount_add_mul positive, Nat.div_add_mod']

theorem div_le_chunkCount (cap : Nat) {m : Nat} (short : m ≤ n) : m / cap ≤ chunkCount cap n := by
  rcases Nat.eq_zero_or_pos cap with rfl | positive
  · simp
  · exact Nat.div_le_div_right (by omega)

theorem chunkCount_le {width : Nat} (positive : 0 < cap) (fits : n ≤ width * cap) :
    chunkCount cap n ≤ width := by
  by_contra more
  have beyond : width < chunkCount cap n := by omega
  rw [lt_chunkCount_iff positive] at beyond
  omega

theorem length_chunk (cap j : Nat) (es : List α) :
    (chunk cap j es).length = min cap (es.length - j * cap) := by
  simp [chunk]

theorem chunk_length_pos (positive : 0 < cap) (inside : j * cap < es.length) :
    0 < (chunk cap j es).length := by
  rw [length_chunk]
  omega

theorem chunk_length_le (cap j : Nat) (es : List α) : (chunk cap j es).length ≤ cap := by
  rw [length_chunk]
  omega

theorem chunk_eq_nil (outside : es.length ≤ j * cap) : chunk cap j es = [] := by
  simp [chunk, List.drop_eq_nil_of_le outside]

theorem chunk_zero (fits : es.length ≤ cap) : chunk cap 0 es = es := by
  simp [chunk, List.take_of_length_le fits]

/-- Index `i` lies in chunk `i / cap`, at position `i % cap`. -/
theorem getElem?_chunk (positive : 0 < cap) (es : List α) (i : Nat) :
    (chunk cap (i / cap) es)[i % cap]? = es[i]? := by
  rw [chunk, List.getElem?_take_of_lt (Nat.mod_lt i positive), List.getElem?_drop,
    Nat.div_add_mod']

theorem chunk_append_before (x : α) (full : (j + 1) * cap ≤ es.length) :
    chunk cap j (es ++ [x]) = chunk cap j es := by
  rw [Nat.add_mul] at full
  unfold chunk
  rw [List.drop_append_of_le_length (by omega), List.take_append_of_le_length]
  rw [List.length_drop]
  omega

theorem chunk_append_last (positive : 0 < cap) (es : List α) (x : α) :
    chunk cap (es.length / cap) (es ++ [x]) = chunk cap (es.length / cap) es ++ [x] := by
  have split := Nat.div_add_mod' es.length cap
  have small := Nat.mod_lt es.length positive
  unfold chunk
  rw [List.drop_append_of_le_length (by omega), List.take_of_length_le, List.take_of_length_le]
  · simp only [List.length_drop]
    omega
  · simp only [List.length_append, List.length_drop, List.length_singleton]
    omega

theorem chunk_last_length (positive : 0 < cap) (es : List α) :
    (chunk cap (es.length / cap) es).length = es.length % cap := by
  have split := Nat.div_add_mod' es.length cap
  have small := Nat.mod_lt es.length positive
  rw [length_chunk]
  omega

variable {m base depth i level : Nat}

theorem chunk_take_before (full : (j + 1) * cap ≤ m) :
    chunk cap j (es.take m) = chunk cap j es := by
  rw [Nat.add_mul] at full
  unfold chunk
  rw [List.drop_take, List.take_take]
  congr 1
  omega

theorem chunk_take_last (es : List α) :
    chunk cap (m / cap) (es.take m) = (chunk cap (m / cap) es).take (m % cap) := by
  have split := Nat.div_add_mod' m cap
  unfold chunk
  rw [List.drop_take, List.take_take, List.take_take]
  congr 1
  omega

theorem flatMap_chunk (count : Nat) (es : List α) (covers : es.length ≤ count * cap) :
    (List.range count).flatMap (fun j => chunk cap j es) = es := by
  induction count generalizing es with
  | zero =>
    have empty : es = [] := List.length_eq_zero_iff.mp (by omega)
    simp [empty]
  | succ count ih =>
    rw [List.range_succ_eq_map, List.flatMap_cons, List.flatMap_map]
    have rest := ih (es.drop cap) (by
      rw [Nat.add_mul] at covers
      simp only [List.length_drop]
      omega)
    have shifted : ∀ j, chunk cap (Nat.succ j) es = chunk cap j (es.drop cap) := by
      intro j
      unfold chunk
      rw [List.drop_drop, Nat.succ_mul, Nat.add_comm]
    simp only [shifted, rest]
    simp [chunk]

/-- The digits of `i`, most significant first, padded to `depth` digits. -/
def digits (base : Nat) : Nat → Nat → List Nat
  | 0, _ => []
  | depth + 1, i => i / base ^ depth :: digits base depth (i % base ^ depth)

theorem digits_all_zero_iff (fits : i < base ^ depth) :
    (∀ d ∈ digits base depth i, d = 0) ↔ i = 0 := by
  induction depth generalizing i with
  | zero =>
    have single : i = 0 := by simpa using fits
    simp [digits, single]
  | succ depth ih =>
    have positive : 0 < base ^ depth := by
      rcases Nat.eq_zero_or_pos (base ^ depth) with zero | positive
      · rw [Nat.pow_succ, zero] at fits
        omega
      · exact positive
    have split := Nat.div_add_mod i (base ^ depth)
    have tail := ih (Nat.mod_lt i positive)
    simp only [digits, List.mem_cons, forall_eq_or_imp, tail]
    constructor
    · rintro ⟨high, low⟩
      rw [high, low] at split
      omega
    · rintro rfl
      simp

theorem digits_snoc (fits : i < base ^ (depth + 1)) :
    digits base (depth + 1) i = digits base depth (i / base) ++ [i % base] := by
  induction depth generalizing i with
  | zero =>
    have single : i < base := by simpa using fits
    simp [digits, Nat.mod_eq_of_lt single]
  | succ depth ih =>
    have power : base ^ (depth + 1) = base * base ^ depth := by ring
    have positive : 0 < base ^ (depth + 1) := by
      rcases Nat.eq_zero_or_pos (base ^ (depth + 1)) with zero | positive
      · rw [Nat.pow_succ, zero] at fits
        omega
      · exact positive
    have high : i / base ^ (depth + 1) = i / base / base ^ depth := by
      rw [power, Nat.div_div_eq_div_mul]
    have low : i % base ^ (depth + 1) / base = i / base % base ^ depth := by
      rw [power, Nat.mod_mul_right_div_self]
    have last : i % base ^ (depth + 1) % base = i % base := by
      rw [power, Nat.mod_mul_right_mod]
    rw [digits, ih (Nat.mod_lt i positive), high, low, last]
    rfl

/-! ### Counting pages -/

/-- The pages of a tree over `n` entries, level by level up to `level`. -/
def pathsOf (radix : Nat) : Nat → Nat → Nat
  | 0, n => chunkCount radix n
  | level + 1, n => chunkCount (radix ^ (level + 2)) n + pathsOf radix level n

theorem pathsOf_zero (positive : 0 < radix) (level : Nat) : pathsOf radix level 0 = 0 := by
  induction level with
  | zero => exact chunkCount_zero positive
  | succ level ih => rw [pathsOf, ih, chunkCount_zero (Nat.pow_pos positive)]

/-- The pages of two ranges add up when the first is a multiple of the widest
page. -/
theorem pathsOf_add (positive : 0 < radix) {whole : Nat} (aligned : radix ^ (level + 1) ∣ whole)
    (n : Nat) :
    pathsOf radix level (whole + n) = pathsOf radix level whole + pathsOf radix level n := by
  induction level with
  | zero =>
    obtain ⟨count, rfl⟩ := aligned
    rw [Nat.zero_add, Nat.pow_one, Nat.mul_comm, pathsOf, pathsOf, pathsOf,
      chunkCount_add_mul positive, chunkCount_mul positive]
  | succ level ih =>
    have cap : 0 < radix ^ (level + 2) := Nat.pow_pos positive
    have narrower : radix ^ (level + 1) ∣ whole :=
      Nat.dvd_trans (Nat.pow_dvd_pow _ (by omega)) aligned
    obtain ⟨count, rfl⟩ := aligned
    rw [pathsOf, pathsOf, pathsOf, ih narrower, Nat.mul_comm, chunkCount_add_mul cap,
      chunkCount_mul cap]
    omega

theorem pathsOf_succ (some : 0 < n) (fits : n ≤ radix ^ (level + 2)) :
    pathsOf radix (level + 1) n = 1 + pathsOf radix level n := by
  rw [pathsOf, chunkCount_eq_one some fits]

def pathsUpTo (radix n : Nat) : Nat → Nat
  | 0 => 0
  | level + 1 => pathsOf radix level n

theorem pathsUpTo_succ (radix n depth : Nat) :
    pathsUpTo radix n (depth + 1) = chunkCount (radix ^ (depth + 1)) n + pathsUpTo radix n depth := by
  cases depth with
  | zero => simp [pathsUpTo, pathsOf]
  | succ level => rfl

theorem chunkCount_le_div (positive : 0 < cap) : chunkCount cap n ≤ n / cap + 1 := by
  cases n with
  | zero => simp [chunkCount_zero positive]
  | succ n =>
    rw [chunkCount_succ positive]
    exact Nat.succ_le_succ (Nat.div_le_div_right (by omega))

/-- Each level has at most half the pages of the one below, rounded up. -/
theorem pathsUpTo_add_div_le (binary : 2 ≤ radix) (n depth : Nat) :
    pathsUpTo radix n depth + n / 2 ^ depth ≤ n + depth := by
  induction depth with
  | zero => simp [pathsUpTo]
  | succ depth ih =>
    have wide : 2 ^ (depth + 1) ≤ radix ^ (depth + 1) := Nat.pow_le_pow_left binary _
    have cap : 0 < radix ^ (depth + 1) := Nat.pow_pos (by omega)
    have top : chunkCount (radix ^ (depth + 1)) n ≤ n / 2 ^ (depth + 1) + 1 :=
      calc chunkCount (radix ^ (depth + 1)) n ≤ n / radix ^ (depth + 1) + 1 := chunkCount_le_div cap
        _ ≤ n / 2 ^ (depth + 1) + 1 :=
          Nat.succ_le_succ (Nat.div_le_div_left wide (Nat.two_pow_pos _))
    have half : n / 2 ^ (depth + 1) = n / 2 ^ depth / 2 := by
      rw [Nat.pow_succ, Nat.div_div_eq_div_mul]
    rw [pathsUpTo_succ]
    omega

theorem pathsUpTo_le (binary : 2 ≤ radix) (n depth : Nat) : pathsUpTo radix n depth ≤ n + depth :=
  Nat.le_trans (Nat.le_add_right _ _) (pathsUpTo_add_div_le binary n depth)

end Bloar.RadixList
