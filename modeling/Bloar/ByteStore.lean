import Mathlib

/-!
Byte strings and a store that is ordered by its keys. The keys that start with a given
string are an interval of the byte order, so that a scan of that interval finds them and
nothing else.
-/

namespace Bloar.ByteStore

abbrev Byte := Fin 256

instance Byte.neZero : NeZero 256 := ⟨by decide⟩

abbrev Bytes := List Byte

/-! ### Numbers -/

def bigEndianBytes : Nat → Nat → Bytes
  | 0, _ => []
  | count + 1, n => bigEndianBytes count (n / 256) ++ [Fin.ofNat 256 n]

def bigEndianValue (bytes : Bytes) : Nat := bytes.foldl (fun (n : Nat) (b : Byte) => 256 * n + b.val) 0

@[simp] theorem bigEndianBytes_length (count n : Nat) : (bigEndianBytes count n).length = count := by
  induction count generalizing n with
  | zero => rfl
  | succ count ih => simp [bigEndianBytes, ih]

theorem bigEndianValue_bytes (count n : Nat) :
    bigEndianValue (bigEndianBytes count n) = n % 256 ^ count := by
  induction count generalizing n with
  | zero => simp [bigEndianBytes, bigEndianValue, Nat.mod_one]
  | succ count ih =>
    have high := ih (n / 256)
    unfold bigEndianValue at high
    simp only [bigEndianBytes, bigEndianValue, List.foldl_append, high, List.foldl_cons,
      List.foldl_nil, Fin.val_ofNat]
    rw [Nat.pow_succ', Nat.mod_mul, Nat.add_comm]

/-! ### Intervals -/

/-- The last byte below 255 of a reversed string is raised, and the bytes after it are
dropped. -/
def bump : Bytes → Option Bytes
  | [] => none
  | b :: rest => if b < 255 then some ((b + 1) :: rest) else bump rest

/-- The end of the interval of the strings that start with this one; `none` is no end. -/
def upperBound (start : Bytes) : Option Bytes := (bump start.reverse).map List.reverse

theorem bump_append (xs : Bytes) (b : Byte) :
    bump (xs ++ [b]) = match bump xs with
      | some ys => some (ys ++ [b])
      | none => if b < 255 then some [b + 1] else none := by
  induction xs with
  | nil => rfl
  | cons x rest ih =>
    simp only [List.cons_append, bump]
    split
    · rfl
    · exact ih

theorem upperBound_cons (b : Byte) (rest : Bytes) :
    upperBound (b :: rest) = match upperBound rest with
      | some high => some (b :: high)
      | none => if b < 255 then some [b + 1] else none := by
  simp only [upperBound, List.reverse_cons, bump_append]
  cases bump rest.reverse with
  | none => simp [apply_ite]
  | some high => simp

def Between {κ : Type} [LinearOrder κ] (low : κ) (high : Option κ) (key : κ) : Prop :=
  low ≤ key ∧ ∀ h ∈ high, key < h

instance {κ : Type} [LinearOrder κ] (low : κ) (high : Option κ) (key : κ) :
    Decidable (Between low high key) := by unfold Between; infer_instance

theorem byte_lt_succ {b k : Byte} (low : b < 255) : k < b + 1 ↔ k ≤ b := by
  have below : b.val < 255 := low
  have succ : (b + 1).val = b.val + 1 := by
    rw [Fin.val_add, Fin.val_one, Nat.mod_eq_of_lt (by omega)]
  rw [Fin.lt_def, Fin.le_def, succ, Nat.lt_succ_iff]

theorem between_upperBound_iff (start key : Bytes) :
    Between start (upperBound start) key ↔ start <+: key := by
  induction start generalizing key with
  | nil => simp [Between, upperBound, bump, ← not_lt, List.not_lt_nil]
  | cons b rest ih =>
    cases key with
    | nil => simp [Between, ← not_lt, List.nil_lt_cons]
    | cons k tail =>
      have order : b :: rest ≤ k :: tail ↔ b < k ∨ b = k ∧ rest ≤ tail := by
        simp only [le_iff_lt_or_eq, List.cons_lt_cons_iff, List.cons.injEq]
        tauto
      rw [List.cons_prefix_cons, ← ih tail, upperBound_cons]
      unfold Between
      rw [order]
      cases upperBound rest with
      | some high =>
        simp only [Option.mem_def, Option.some.injEq, forall_eq', List.cons_lt_cons_iff]
        constructor
        · rintro ⟨less | ⟨rfl, low⟩, more | ⟨same, below⟩⟩
          · exact absurd more (lt_asymm less)
          · exact absurd less (same ▸ lt_irrefl _)
          · exact absurd more (lt_irrefl _)
          · exact ⟨rfl, low, below⟩
        · rintro ⟨rfl, low, below⟩
          exact ⟨.inr ⟨rfl, low⟩, .inr ⟨rfl, below⟩⟩
      | none =>
        -- Nothing that starts with a smaller byte than the bound's is above it.
        have last : (∀ h ∈ if b < 255 then some [b + 1] else none, k :: tail < h) ↔ k ≤ b := by
          split
          · rename_i low
            simp [List.cons_lt_cons_iff, List.not_lt_nil, byte_lt_succ low]
          · rename_i top
            simpa using (Fin.le_last k).trans (not_lt.mp top)
        rw [last]
        simp only [Option.mem_def, reduceCtorEq, false_implies, implies_true, and_true]
        constructor
        · rintro ⟨less | ⟨rfl, low⟩, le⟩
          · exact absurd less (not_lt_of_ge le)
          · exact ⟨rfl, low⟩
        · rintro ⟨rfl, low⟩
          exact ⟨.inr ⟨rfl, low⟩, le_refl b⟩

/-! ### Separators -/

/-- A string without the separator ends at the first one. -/
theorem append_separator_inj {α : Type} {sep : α} {a b x y : List α} (plain : sep ∉ a)
    (plain' : sep ∉ b) (same : a ++ sep :: x = b ++ sep :: y) : a = b ∧ x = y := by
  induction a generalizing b with
  | nil =>
    cases b with
    | nil => exact ⟨rfl, (List.cons.inj same).2⟩
    | cons c rest => exact absurd ((List.cons.inj same).1 ▸ List.mem_cons_self) plain'
  | cons d rest ih =>
    cases b with
    | nil => exact absurd ((List.cons.inj same).1 ▸ List.mem_cons_self) plain
    | cons c others =>
      obtain ⟨rfl, tails⟩ := List.cons.inj same
      obtain ⟨rfl, rfl⟩ := ih (fun inside => plain (List.mem_cons_of_mem d inside))
        (fun inside => plain' (List.mem_cons_of_mem d inside)) tails
      exact ⟨rfl, rfl⟩

/-! ### The store -/

structure OrderedStore (κ ν : Type) [LinearOrder κ] where
  rows : List (κ × ν)
  ascending : rows.Pairwise fun a b => a.1 < b.1

namespace OrderedStore
variable {κ ν : Type} [LinearOrder κ]

def delete (s : OrderedStore κ ν) (key : κ) : OrderedStore κ ν :=
  ⟨s.rows.filter (·.1 ≠ key), s.ascending.filter _⟩

def set (s : OrderedStore κ ν) (key : κ) (value : ν) : OrderedStore κ ν where
  rows := s.rows.filter (·.1 < key) ++ (key, value) :: s.rows.filter (key < ·.1)
  ascending := by
    refine List.pairwise_append.mpr ⟨s.ascending.filter _,
      List.pairwise_cons.mpr ⟨fun row after => ?_, s.ascending.filter _⟩, fun a before b after => ?_⟩
    · simpa using (List.mem_filter.mp after).2
    · have low : a.1 < key := by simpa using (List.mem_filter.mp before).2
      rcases List.mem_cons.mp after with rfl | rest
      · exact low
      · exact low.trans (by simpa using (List.mem_filter.mp rest).2)

/-- One write of a batch; `none` deletes. -/
def write (s : OrderedStore κ ν) : κ × Option ν → OrderedStore κ ν
  | (key, none) => s.delete key
  | (key, some value) => s.set key value

def commit (s : OrderedStore κ ν) (batch : List (κ × Option ν)) : OrderedStore κ ν :=
  batch.foldl write s

def scan (s : OrderedStore κ ν) (low : κ) (high : Option κ) : List (κ × ν) :=
  s.rows.filter fun row => Between low high row.1

theorem mem_write (s : OrderedStore κ ν) (key : κ) (value : Option ν) (row : κ × ν) :
    row ∈ (s.write (key, value)).rows ↔
      if row.1 = key then value = some row.2 else row ∈ s.rows := by
  obtain ⟨k, v⟩ := row
  cases value with
  | none =>
    simp only [write, delete, List.mem_filter]
    split <;> simp [*]
  | some value =>
    simp only [write, set, List.mem_append, List.mem_cons, List.mem_filter, Prod.mk.injEq,
      decide_eq_true_eq, Option.some.injEq]
    split
    · subst k
      simp [eq_comm]
    · rename_i other
      have apart := lt_or_gt_of_ne other
      tauto

theorem mem_scan {s : OrderedStore κ ν} {low : κ} {high : Option κ} {row : κ × ν} :
    row ∈ s.scan low high ↔ row ∈ s.rows ∧ Between low high row.1 := by
  simp [scan]

end OrderedStore

end Bloar.ByteStore
