import Bloar.DirTree

/-!
The read path (`archive/lookup.go`). A lookup goes from the slot to its window,
from the window to the open segment or through the directory to a sealed one,
and from the segment to the row. `searchRows` is the binary search of the source
with `sort.Search` written out.
-/

namespace Bloar.Archive
open Ipld Schema Arith Fallible RadixList

variable {σ : Type}

inductive Status where
  | found
  | beforeOrigin
  | notYetCovered
  | absent
  deriving DecidableEq, Repr

structure Result where
  status : Status
  slot : Nat
  entries : List RefEntry
  missingVH : Option VersionedHash
  deriving DecidableEq, Repr

def Result.of (status : Status) (slot : Nat) : Result :=
  { status, slot, entries := [], missingVH := none }

def findVH (row : Option Row) (vh : VersionedHash) : Option RefEntry :=
  row.bind fun r => r.entries.find? fun e => e.vh = vh

def searchFrom (rows : List Row) (slot low high : Nat) : Nat :=
  if low < high then
    let middle := (low + high) / 2
    if (rows[middle]?.map Row.slot).getD 0 ≥ slot then searchFrom rows slot low middle
    else searchFrom rows slot (middle + 1) high
  else low
termination_by high - low
decreasing_by all_goals omega

def searchRows (rows : List Row) (slot : Nat) : Option Row :=
  let i := searchFrom rows slot 0 rows.length
  match rows[i]? with
  | some r => if r.slot = slot then some r else none
  | none => none

section Engine
variable (ipld : Codec) (cfg : Config σ)

/-- The walk of `sealedSegment` along `digits`; `none` is the source's `ok = false`. -/
def walkDirectory (cur : Link) (digits : List Nat) : Engine σ Link :=
  match digits with
  | [] => pure cur
  | d :: rest => do
      let node ← within "archive: reading dirnode" (getNode cfg (dirs ipld) cur)
      match node.kids[d]?.join with
      | none => pure none
      | some kid => walkDirectory (some kid) rest

def sealedSegment (st : State) (w : Nat) : Engine σ Link :=
  let base := st.dirBase
  if st.dirDepth = 0 ∨ w < base then pure none
  else
    match pathDigits (w - base) st.dirDepth st.params.fanoutBits with
    | none => pure none
    | some digits => walkDirectory ipld cfg st.dir digits

def segmentFor (st : State) (w : Nat) : Engine σ Link :=
  if st.covered = false then pure none
  else do
    let openW ← openOrd ipld cfg st
    if w = openW then pure st.openCid else sealedSegment ipld cfg st w

def lookupRow (st : State) (slot : Nat) : Engine σ (Result × Option Row) :=
  if slot < st.params.originSlot then pure (.of .beforeOrigin slot, none)
  else if st.covered = false ∨ slot > st.syncedTo then pure (.of .notYetCovered slot, none)
  else do
    match ← segmentFor ipld cfg st (ord slot st.params.segBits) with
    | none => pure (.of .found slot, none)
    | some segCID => do
        let seg ← within "archive: reading segment" (getNode cfg (segs ipld) (some segCID))
        pure (.of .found slot, searchRows seg.rows slot)

def lookup (slot : Nat) : Engine σ Result := do
  let (res, row) ← lookupRow ipld cfg (← Fallible.get).cur slot
  if res.status ≠ .found then pure res
  else pure { res with entries := (row.map Row.entries).getD [] }

def collectVHs (row : Option Row) : List VersionedHash → Except VersionedHash (List RefEntry)
  | [] => .ok []
  | vh :: rest =>
    match findVH row vh with
    | none => .error vh
    | some e => (collectVHs row rest).map (e :: ·)

def lookupVHs (slot : Nat) (vhs : List VersionedHash) : Engine σ Result := do
  let (res, row) ← lookupRow ipld cfg (← Fallible.get).cur slot
  if res.status ≠ .found then pure res
  else
    match collectVHs row vhs with
    | .error missing => pure { status := .absent, slot, entries := [], missingVH := some missing }
    | .ok entries => pure { res with entries }

end Engine

/-! ### Binary search -/

section Search
variable {rows : List Row} (ascending : rows.Pairwise fun a b => a.slot < b.slot)
include ascending

theorem find_slot_iff {slot : Nat} {r : Row} :
    rows.find? (fun r => r.slot = slot) = some r ↔ r ∈ rows ∧ r.slot = slot := by
  constructor
  · intro found
    exact ⟨List.mem_of_find?_eq_some found, by simpa using List.find?_some found⟩
  · rintro ⟨member, rfl⟩
    induction rows with
    | nil => cases member
    | cons first rest ih =>
      rw [List.pairwise_cons] at ascending
      rcases List.mem_cons.mp member with rfl | inside
      · simp
      · have before := ascending.1 r inside
        rw [List.find?_cons_of_neg (by simp; omega)]
        exact ih ascending.2 inside

theorem searchFrom_spec (slot : Nat) {low high : Nat} (ordered : low ≤ high) (inside : high ≤ rows.length)
    (before : ∀ i r, i < low → rows[i]? = some r → r.slot < slot)
    (after : ∀ i r, high ≤ i → rows[i]? = some r → slot ≤ r.slot) :
    (∀ i r, i < searchFrom rows slot low high → rows[i]? = some r → r.slot < slot) ∧
      ∀ i r, searchFrom rows slot low high ≤ i → rows[i]? = some r → slot ≤ r.slot := by
  have mono : ∀ {i j : Nat} {a b : Row}, i ≤ j → rows[i]? = some a → rows[j]? = some b → a.slot ≤ b.slot := by
    intro i j a b le first second
    rcases Nat.lt_or_eq_of_le le with lt | rfl
    · obtain ⟨boundI, rfl⟩ := List.getElem?_eq_some_iff.mp first
      obtain ⟨boundJ, rfl⟩ := List.getElem?_eq_some_iff.mp second
      exact Nat.le_of_lt (List.pairwise_iff_getElem.mp ascending i j boundI boundJ lt)
    · rw [first] at second
      cases second
      exact Nat.le_refl _
  induction gap : high - low using Nat.strong_induction_on generalizing low high with
  | _ gap ih =>
    rw [searchFrom]
    split
    · rename_i open_range
      have middle_lt : (low + high) / 2 < rows.length := by omega
      obtain ⟨m, found⟩ : ∃ m, rows[(low + high) / 2]? = some m :=
        ⟨_, List.getElem?_eq_getElem middle_lt⟩
      simp only [found, Option.map_some, Option.getD_some]
      split
      · rename_i high_side
        refine ih _ (by omega) (by omega) (by omega) before (fun i r late at_i => ?_) rfl
        exact Nat.le_trans high_side (mono late found at_i)
      · rename_i low_side
        refine ih _ (by omega) (by omega) inside (fun i r early at_i => ?_) after rfl
        have bound := mono (Nat.le_of_lt_succ early) at_i found
        omega
    · rename_i closed
      exact ⟨before, fun i r late at_i => after i r (by omega) at_i⟩

theorem searchRows_eq_find (slot : Nat) : searchRows rows slot = rows.find? fun r => r.slot = slot := by
  obtain ⟨before, after⟩ := searchFrom_spec ascending slot (Nat.zero_le rows.length)
    (Nat.le_refl _) (by simp) fun i r late at_i => by
      rw [List.getElem?_eq_none late] at at_i
      cases at_i
  simp only [searchRows]
  set i := searchFrom rows slot 0 rows.length
  cases found : rows[i]? with
  | none =>
    rw [eq_comm, List.find?_eq_none]
    intro r member
    obtain ⟨j, bound, rfl⟩ := List.getElem_of_mem member
    have short := List.getElem?_eq_none_iff.mp found
    have below := before j _ (by omega) (List.getElem?_eq_getElem bound)
    simp only [decide_eq_true_eq]
    omega
  | some r =>
    obtain ⟨bound, rfl⟩ := List.getElem?_eq_some_iff.mp found
    have least := after i _ (Nat.le_refl i) found
    simp only
    split
    · rename_i at_slot
      exact ((find_slot_iff ascending).mpr ⟨List.getElem_mem bound, at_slot⟩).symm
    · rename_i past
      rw [eq_comm, List.find?_eq_none]
      intro other member
      obtain ⟨j, boundJ, rfl⟩ := List.getElem_of_mem member
      simp only [decide_eq_true_eq]
      rcases Nat.lt_trichotomy j i with early | same | late
      · have below := before j _ early (List.getElem?_eq_getElem boundJ)
        omega
      · subst same
        exact past
      · have above := List.pairwise_iff_getElem.mp ascending i j bound boundJ late
        omega

end Search

/-! ### The walk through a canonical directory -/

section Walk
variable {ipld : Codec} {cfg : Config σ} {holds : World σ → Cid → Prop} {unread flaky : Prop}
variable {radix : Nat} {w : World σ}

section Reads
variable {R : World σ → World σ → Prop} [Fallible.Preorder R] (reads : ∀ c, Keeps R (getBlock cfg c))
include reads

theorem walkDirectory_keeps (digits : List Nat) (cur : Link) :
    Keeps R (walkDirectory ipld cfg cur digits) := by
  induction digits generalizing cur with
  | nil => exact keeps_pure _
  | cons d rest ih =>
    refine keeps_bind (keeps_within (getNode_keeps reads _)) fun node => ?_
    split
    · exact keeps_pure _
    · exact ih _

theorem sealedSegment_keeps (st : State) (win : Nat) : Keeps R (sealedSegment ipld cfg st win) := by
  refine keeps_ite (fun _ => keeps_pure _) fun _ => ?_
  split
  · exact keeps_pure _
  · exact walkDirectory_keeps reads _ _

theorem segmentFor_keeps (st : State) (win : Nat) : Keeps R (segmentFor ipld cfg st win) := by
  refine keeps_ite (fun _ => keeps_pure _) fun _ => ?_
  refine keeps_bind (openOrd_keeps reads st) fun openW => ?_
  exact keeps_ite (fun _ => keeps_pure _) fun _ => sealedSegment_keeps reads st win

theorem lookupRow_keeps (st : State) (slot : Nat) : Keeps R (lookupRow ipld cfg st slot) := by
  refine keeps_ite (fun _ => keeps_pure _) fun _ => keeps_ite (fun _ => keeps_pure _) fun _ => ?_
  refine keeps_bind (segmentFor_keeps reads st _) fun link => ?_
  cases link with
  | none => exact keeps_pure _
  | some c => exact keeps_bind (keeps_within (getNode_keeps reads _)) fun _ => keeps_pure _

end Reads

variable (up : Upholds ipld cfg holds unread flaky)
include up

theorem Upholds.walkDirectory_spec (positive : 0 < radix) (level : Nat) {es : List Link} {i : Nat}
    (stored : PagesStored ipld radix holds w level es) (inside : i < radix ^ (level + 1)) :
    Post (walkDirectory ipld cfg (some (pageCid ipld radix level es))
        (digits radix (level + 1) i)) w
      (fun r _ => r = es[i]?.join) (fun _ => unread) := by
  induction level generalizing es i w with
  | zero =>
    simp only [digits, Nat.pow_zero, Nat.div_one, walkDirectory]
    refine post_then (post_within (up.getNode_spec stored.root stored.root.decodes_dirNode)) ?_
    rintro _ after rfl
    have kid := trimTrailingNulls_getElem es i
    simp only [pageKids]
    split
    · rename_i missing
      exact post_pure (missing.symm.trans kid)
    · rename_i found present
      exact post_pure (present.symm.trans kid)
  | succ level ih =>
    have cap : 0 < radix ^ (level + 1) := Nat.pow_pos positive
    rw [digits]
    simp only [walkDirectory]
    refine post_bind (keeps_within (getNode_keeps up.get_keeps _)) (post_within
      (up.getNode_spec stored.root stored.root.decodes_dirNode)) ?_
    rintro _ after rfl grows
    rw [trimTrailingNulls_of_all_some (pageKids_succ_defined level es)]
    by_cases reached : i / radix ^ (level + 1) < chunkCount (radix ^ (level + 1)) es.length
    · simp only [pageKids_getElem reached, Option.join_some]
      rw [← getElem?_chunk cap es i]
      exact ih ((stored.child reached).mono grows) (Nat.mod_lt i cap)
    · have missing : (pageKids ipld radix (level + 1) es)[i / radix ^ (level + 1)]? = none := by
        rw [List.getElem?_eq_none_iff, length_pageKids_succ]
        omega
      rw [lt_chunkCount_iff cap] at reached
      have short : es.length ≤ i := by
        have start := Nat.div_mul_le_self i (radix ^ (level + 1))
        omega
      simp only [missing, Option.join_none]
      refine post_pure ?_
      rw [List.getElem?_eq_none short]
      rfl

/-- The walk returns the entry at the window's index, and nothing outside the
directory. -/
theorem Upholds.sealedSegment_spec {st : State}
    {es : List Link} (positive : 0 < st.params.fanoutBits) (narrow : st.params.fanoutBits < 64)
    (canonical : DirOf ipld st.params.fanoutBits holds w es st.dir st.dirDepth)
    (small : es.length ≤ 2 ^ 64) {win : Nat} (based : st.dirBase ≤ win) :
    Post (sealedSegment ipld cfg st win) w (fun r _ => r = es[win - st.dirBase]?.join)
      (fun _ => unread) := by
  obtain ⟨least, link, stored⟩ := canonical
  have shallow := least.le_64 positive small
  refine post_ite (fun flat => ?_) fun deep => ?_
  · have none : es = [] := by
      rcases flat with zero | below
      · exact List.length_eq_zero_iff.mp (least.zero_iff.mp zero)
      · omega
    exact post_pure (by simp [none])
  · obtain ⟨level, depth⟩ : ∃ level, st.dirDepth = level + 1 := ⟨st.dirDepth - 1, by omega⟩
    by_cases fits : win - st.dirBase < 2 ^ (st.params.fanoutBits * st.dirDepth)
    · simp only [pathDigits_eq narrow shallow fits]
      rw [link, depth]
      rw [depth, Nat.pow_mul] at fits
      exact up.walkDirectory_spec (Nat.two_pow_pos _) level (stored level depth) fits
    · simp only [pathDigits_none narrow (Nat.le_of_not_lt fits)]
      refine post_pure ?_
      have holds_all := least.holds
      rw [List.getElem?_eq_none (by omega)]
      rfl

end Walk

end Bloar.Archive
