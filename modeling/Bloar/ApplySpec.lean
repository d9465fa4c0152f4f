import Bloar.Apply
import Bloar.Loops

/-!
`ApplyRefs` extends the canonical index. From a head that represents contents
`m`, a batch that is not a replay either fails and leaves the head alone or leaves
it representing `m` with the resolved rows appended and the new coverage. The
loop over windows carries the canonical directory of the windows below the
current one and a pointer to the segment the current one had before the batch.
-/

namespace Bloar.Archive
open Ipld Schema Arith Fallible

variable {σ : Type} {ipld : Codec} {cfg : Config σ} {holds : World σ → Cid → Prop}
variable {unread flaky : Prop} {params : Params} {m : Contents} {w : World σ}

theorem verifyReplay_keeps {R : World σ → World σ → Prop} [Fallible.Preorder R]
    (reads : ∀ c, Keeps R (getBlock cfg c)) (st : State) (rows : List RefRow) :
    Keeps R (verifyReplay ipld cfg st rows) := by
  induction rows with
  | nil => exact keeps_pure _
  | cons r rest ih =>
    refine keeps_bind (lookupRow_keeps reads st _) fun found => ?_
    dsimp only
    split
    · refine keeps_bind (keeps_ofExcept _) fun _ => ?_
      exact keeps_bind (keeps_ofExcept _) fun _ => ih
    · exact keeps_fail _

variable (rows : List RefRow)

section Keeps
variable (up : Upholds ipld cfg holds unread flaky)
include up

variable {resolve : VersionedHash → σ → Except String (Link × Bool) × σ}

theorem Upholds.resolveBlob_keeps (resolver : cfg.resolver = some resolve) (vh : VersionedHash) :
    Keeps (Grows holds) (resolveBlob resolve vh) := by
  intro w
  have moved := up.resolve_keeps resolve resolver vh w
  unfold resolveBlob
  rcases ran : resolve vh w.shared with ⟨answer, s⟩
  rw [ran] at moved
  cases answer with
  | ok | error => exact moved

theorem Upholds.probeBlob_keeps (c : Cid) :
    Keeps (Grows holds) (probeBlob cfg c) := by
  intro w
  have moved := up.get_keeps c w
  unfold probeBlob
  unfold getBlock at moved
  rcases ran : cfg.get c w.shared with ⟨answer, s⟩
  rw [ran] at moved
  cases answer with
  | ok block => exact moved
  | error e => cases e <;> exact moved

theorem Upholds.resolveVHs_keeps (resolver : cfg.resolver = some resolve)
    (vhs : List VersionedHash) : Keeps (Grows holds) (resolveVHs cfg resolve vhs) := by
  induction vhs with
  | nil => exact keeps_pure _
  | cons vh rest ih =>
    refine keeps_bind (up.resolveBlob_keeps resolver vh) fun answer => ?_
    split
    · refine keeps_bind (up.probeBlob_keeps _) fun present => ?_
      refine keeps_bind ih fun found => ?_
      exact keeps_ite (fun _ => keeps_pure _) fun _ => keeps_pure _
    · exact keeps_bind ih fun _ => keeps_pure _

theorem Upholds.resolveRows_keeps : Keeps (Grows holds) (resolveRows cfg rows) := by
  unfold resolveRows
  split
  · exact keeps_fail _
  · rename_i resolve resolver
    refine keeps_bind ?_ fun _ =>
      keeps_ite (fun _ => keeps_pure _) fun _ =>
        keeps_fail _
    induction rows with
    | nil => exact keeps_pure _
    | cons r rest ih =>
      refine keeps_bind (up.resolveVHs_keeps resolver _) fun _ => ?_
      exact keeps_bind ih fun _ => keeps_pure _

theorem Upholds.committedBytes_keeps (dirty : Bool)
    (id : Cid) : Keeps (Grows holds) (committedBytes cfg dirty id) := by
  refine keeps_ite (fun _ => ?_) fun _ => ?_
  · exact keeps_bind keeps_get fun _ => keeps_pure _
  · exact keeps_bind (keeps_within (up.get_keeps id)) fun _ => keeps_pure _

theorem Upholds.scratch_keeps {f : World σ → World σ} (same : ∀ w, SameStorage w (f w)) :
    Keeps (Grows holds) (modify f : Engine σ Unit) :=
  keeps_modify fun w => up.sameStorage (same w)

theorem Upholds.commitSegment_keeps (segment : Pointer Segment) (state : SegmentState) :
    Keeps (Grows holds) (commitSegment ipld cfg segment state) := by
  refine keeps_bind (up.load_keeps segment) fun loaded => ?_
  refine keeps_bind (up.scratch_keeps fun _ => ⟨rfl, rfl, rfl⟩) fun _ => ?_
  refine keeps_bind (keeps_ensuring
    (up.commit_keeps up.segs_writes _) fun w => up.sameStorage ⟨rfl, rfl, rfl⟩) fun _ => ?_
  refine keeps_bind (up.committedBytes_keeps _ _) fun _ => ?_
  exact keeps_bind (up.scratch_keeps fun _ => ⟨rfl, rfl, rfl⟩) fun _ => keeps_pure _

variable (st : State)

theorem Upholds.sealWindow_keeps (opened : Pointer Segment) (win : Nat) :
    Keeps (Grows holds) (sealWindow ipld cfg st opened win) := by
  refine keeps_bind (keeps_within (up.load_keeps opened)) fun loaded => ?_
  refine keeps_bind ?_ fun sealed => ?_
  · refine keeps_ite (fun _ => ?_) fun _ => keeps_pure _
    exact keeps_bind (keeps_within (up.commitSegment_keeps _ _)) fun _ => keeps_pure _
  · exact keeps_bind (up.dirAppend_keeps _ _ _ _ _) fun _ => keeps_pure _

theorem Upholds.fillWindow_keeps (opened : Pointer Segment) (win : Nat) (batch : List Row) :
    Keeps (Grows holds) (fillWindow ipld cfg opened win batch) :=
  keeps_ite (fun _ => keeps_within (up.mutate_keeps _ _)) fun _ =>
    keeps_pure _

theorem Upholds.sealIfFull_keeps (newSyncedTo : Nat)
    (st : State) (opened : Pointer Segment) (win : Nat) :
    Keeps (Grows holds) (sealIfFull ipld cfg newSyncedTo st opened win) :=
  keeps_ite (fun _ => up.sealWindow_keeps _ _ _) fun _ => keeps_pure _

theorem Upholds.applyWindow_keeps (newSyncedTo win : Nat) (loop : Loop) :
    Keeps (Grows holds) (applyWindow ipld cfg newSyncedTo win loop) := by
  refine keeps_bind (up.fillWindow_keeps _ _ _) fun _ => ?_
  exact keeps_bind (up.sealIfFull_keeps _ _ _ _) fun _ => keeps_pure _

theorem Upholds.applyWindows_keeps (newSyncedTo w1 rounds : Nat) (win : Nat) (loop : Loop) :
    Keeps (Grows holds) (applyWindows ipld cfg newSyncedTo w1 rounds win loop) := by
  induction rounds generalizing win loop with
  | zero =>
    rw [applyWindows]
    exact keeps_ite (fun _ => keeps_fail _) fun _ => keeps_pure _
  | succ rounds ih =>
    rw [applyWindows]
    refine keeps_ite (fun _ => ?_) fun _ => keeps_pure _
    exact keeps_bind (up.applyWindow_keeps _ _ _) fun _ => ih _ _

theorem Upholds.startSegment_keeps (w0 : Nat) :
    Keeps (Grows holds) (startSegment ipld cfg st w0) := by
  refine keeps_ite (fun _ => ?_) fun _ => keeps_pure _
  refine keeps_bind (openOrd_keeps up.get_keeps st) fun _ => ?_
  exact keeps_bind (keeps_guard _ _) fun _ => keeps_pure _

theorem Upholds.extendIndex_keeps (resolved : List Row) (newSyncedTo : Nat) :
    Keeps (Grows holds) (extendIndex ipld cfg st resolved newSyncedTo) := by
  refine keeps_bind (up.startSegment_keeps _ _) fun _ => ?_
  refine keeps_bind (up.applyWindows_keeps _ _ _ _ _) fun _ => ?_
  refine keeps_bind (keeps_guard _ _) fun _ => ?_
  exact keeps_bind (keeps_within (up.commitSegment_keeps _ _)) fun _ => keeps_pure _

theorem Upholds.applyResolved_keepsOnError (resolved : List Row) (newSyncedTo : Nat) :
    KeepsOnError (Grows holds) (applyResolved ipld cfg st resolved newSyncedTo) := by
  refine keepsOnError_ensuring ?_ fun w => up.sameStorage ⟨rfl, rfl, rfl⟩
  refine keepsOnError_bind (up.scratch_keeps fun _ => ⟨rfl, rfl, rfl⟩) fun _ => ?_
  refine keepsOnError_bind (up.extendIndex_keeps _ _ _) fun next => ?_
  -- Only publication can still fail, and it swaps last.
  exact keepsOnError_bind_total (up.publish_keepsOnError next) fun _ _ => ⟨_, _, rfl⟩

theorem Upholds.applyRefs_keepsOnError (newSyncedTo : Nat) :
    KeepsOnError (Grows holds) (applyRefs ipld cfg rows newSyncedTo) := by
  refine keepsOnError_bind keeps_get fun w => ?_
  refine keepsOnError_bind (keeps_ofExcept _) fun _ => ?_
  refine keepsOnError_ite (fun _ => ?_) fun _ => ?_
  · exact (keeps_bind (verifyReplay_keeps up.get_keeps _ _) fun _ => keeps_pure _).onError
  · refine keepsOnError_bind (keeps_ofExcept _) fun _ => ?_
    exact keepsOnError_bind (up.resolveRows_keeps rows) fun resolved =>
      up.applyResolved_keepsOnError _ _ _

end Keeps

/-! ### Shape and resolution -/

structure Shaped (originSlot newSyncedTo : Nat) (rows : List RefRow) : Prop where
  coverage : originSlot ≤ newSyncedTo
  ascending : rows.Pairwise fun a b => a.slot < b.slot
  after_origin : ∀ r ∈ rows, originSlot ≤ r.slot
  before_end : ∀ r ∈ rows, r.slot ≤ newSyncedTo
  filled : ∀ r ∈ rows, 0 < r.vhs.length
  ceiling : ∀ r ∈ rows, r.vhs.length ≤ maxBlobsPerSlotCeiling

variable {u : Unit}

@[simp] theorem conflictUnless_ok_iff {holds : Prop} [Decidable holds] {reason : String} :
    conflictUnless holds reason = .ok u ↔ holds := by
  unfold conflictUnless
  split <;> simp [*]

theorem validateShapeFrom_ok_iff {originSlot newSyncedTo i : Nat} {previous : Option Nat}
    {rows : List RefRow} :
    validateShapeFrom originSlot newSyncedTo i previous rows = .ok u ↔
      (∀ p ∈ previous, ∀ r ∈ rows, p < r.slot) ∧ (rows.Pairwise fun a b => a.slot < b.slot) ∧
      ∀ r ∈ rows, originSlot ≤ r.slot ∧ r.slot ≤ newSyncedTo ∧ 0 < r.vhs.length ∧
        r.vhs.length ≤ maxBlobsPerSlotCeiling := by
  induction rows generalizing i previous with
  | nil => simp [validateShapeFrom]
  | cons r rest ih =>
    simp only [validateShapeFrom, Loops.bind_ok_iff, conflictUnless_ok_iff, ih,
      List.pairwise_cons, List.forall_mem_cons]
    constructor
    · rintro ⟨_, later, _, origin, _, bound, _, filled, _, ceiling, above, ascending, each⟩
      refine ⟨fun p same => ?_, ⟨above r.slot rfl, ascending⟩,
        ⟨by omega, by omega, by omega, by omega⟩, each⟩
      have first := later p same
      exact ⟨by omega, fun r' member => Nat.lt_trans (by omega) (above r.slot rfl r' member)⟩
    · rintro ⟨later, ⟨above, ascending⟩, ⟨origin, bound, filled, ceiling⟩, each⟩
      refine ⟨(), fun p same => ?_, (), by omega, (), by omega, (), by omega, (), by omega, ?_,
        ascending, each⟩
      · have first := (later p same).1
        omega
      · rintro p ⟨⟩
        exact above

variable {st : State}

variable {newSyncedTo : Nat}

theorem validateShape_ok_iff {rows : List RefRow} :
    validateShape st rows newSyncedTo = .ok u ↔
      Shaped st.params.originSlot newSyncedTo rows := by
  simp only [validateShape, Loops.bind_ok_iff, conflictUnless_ok_iff, validateShapeFrom_ok_iff]
  constructor
  · rintro ⟨_, coverage, -, ascending, each⟩
    exact ⟨by omega, ascending, fun r member => (each r member).1,
      fun r member => (each r member).2.1, fun r member => (each r member).2.2.1,
      fun r member => (each r member).2.2.2⟩
  · rintro ⟨coverage, ascending, origin, bound, filled, ceiling⟩
    exact ⟨(), by omega, by simp, ascending, fun r member =>
      ⟨origin r member, bound r member, filled r member, ceiling r member⟩⟩

theorem overlap_ok_iff {syncedTo newSyncedTo i : Nat} {rows : List RefRow} :
    overlap syncedTo newSyncedTo i rows = .ok u ↔ ∀ r ∈ rows, syncedTo < r.slot := by
  induction rows generalizing i with
  | nil => simp [overlap]
  | cons r rest ih => simp [overlap, Loops.bind_ok_iff, ih]

theorem lastSlot_le {bound : Nat} {rows : List RefRow} (below : ∀ r ∈ rows, r.slot ≤ bound) :
    lastSlot rows ≤ bound := by
  unfold lastSlot
  split
  · omega
  · rename_i r last
    exact below r (List.mem_of_getLast? last)

structure Resolved (r : RefRow) (row : Row) : Prop where
  slot : row.slot = r.slot
  vhs : row.entries.map RefEntry.vh = r.vhs
  defined : ∀ e ∈ row.entries, e.blob.isSome

theorem resolveVHs_spec (resolve : VersionedHash → σ → Except String (Link × Bool) × σ)
    (vhs : List VersionedHash) (w : World σ) :
    Post (resolveVHs cfg resolve vhs) w
      (fun found _ => found.1 = [] → found.2.map RefEntry.vh = vhs ∧
        ∀ e ∈ found.2, e.blob.isSome) (fun _ => True) := by
  induction vhs generalizing w with
  | nil => exact post_pure fun _ => ⟨rfl, by simp⟩
  | cons vh rest ih =>
    refine post_then (post_any _) fun answer answered _ => ?_
    split
    · refine post_then (post_any _) fun present probed _ => ?_
      refine post_then (ih _) fun found last each => ?_
      refine post_ite (fun _ => post_pure fun none => ?_) fun _ => post_pure fun none => ?_
      · obtain ⟨vhs, defined⟩ := each none
        exact ⟨by simp [vhs], by simpa using defined⟩
      · cases none
    · refine post_then (ih _) fun found last each => ?_
      exact post_pure fun none => by cases none

theorem resolveRows_spec (w : World σ) :
    Post (resolveRows cfg rows) w (fun out _ => List.Forall₂ Resolved rows out)
      (fun _ => True) := by
  unfold resolveRows
  split
  · exact post_fail trivial
  · rename_i resolve _
    refine post_then (P := fun found _ => found.1 = [] → List.Forall₂ Resolved rows found.2)
      ?_ fun found after each => ?_
    · induction rows generalizing w with
      | nil => exact post_pure fun _ => .nil
      | cons r rest ih =>
        refine post_then (resolveVHs_spec resolve r.vhs w) fun first middle row => ?_
        refine post_then (ih middle) fun found after each => ?_
        refine post_pure fun none => ?_
        obtain ⟨noneFirst, noneRest⟩ := List.append_eq_nil_iff.mp none
        exact .cons ⟨rfl, (row noneFirst).1, (row noneFirst).2⟩ (each noneRest)
    · exact post_ite (fun none => post_pure (each none)) fun _ => post_fail trivial

section ResolvedFacts
variable {rows : List RefRow} {out : List Row}

variable (resolved : List.Forall₂ Resolved rows out)
include resolved

theorem resolved_mem {row : Row} (member : row ∈ out) : ∃ r ∈ rows, Resolved r row := by
  induction resolved with
  | nil => simp at member
  | cons first _ ih =>
    rcases List.mem_cons.mp member with rfl | inside
    · exact ⟨_, by simp, first⟩
    · obtain ⟨r, inRows, same⟩ := ih inside
      exact ⟨r, by simp [inRows], same⟩

theorem resolved_ascending (ascending : rows.Pairwise fun a b => a.slot < b.slot) :
    out.Pairwise fun a b => a.slot < b.slot := by
  induction resolved with
  | nil => exact .nil
  | cons first rest ih =>
    rw [List.pairwise_cons] at ascending ⊢
    refine ⟨fun row member => ?_, ih ascending.2⟩
    obtain ⟨r, inRows, same⟩ := resolved_mem rest member
    rw [first.slot, same.slot]
    exact ascending.1 r inRows

theorem resolved_admitted {originSlot newSyncedTo : Nat}
    (shaped : Shaped originSlot newSyncedTo rows) {row : Row} (member : row ∈ out) :
    Admitted row := by
  obtain ⟨r, inRows, same⟩ := resolved_mem resolved member
  have count : row.entries.length = r.vhs.length := by rw [← same.vhs, List.length_map]
  exact ⟨count ▸ shaped.filled r inRows, count ▸ shaped.ceiling r inRows, same.defined⟩

omit resolved

theorem Contents.Valid.extend (valid : m.Valid params)
    (shaped : Shaped params.originSlot newSyncedTo rows) (resolved : List.Forall₂ Resolved rows out)
    (beyond : ∀ s, m.coverage = some s → s < newSyncedTo ∧ ∀ r ∈ rows, s < r.slot)
    (small : newSyncedTo < maxInt64) : Contents.Valid params ⟨some newSyncedTo, m.rows ++ out⟩ := by
  have later : ∀ row ∈ out, row.slot ≤ newSyncedTo ∧ params.originSlot ≤ row.slot := by
    intro row member
    obtain ⟨r, inRows, same⟩ := resolved_mem resolved member
    rw [same.slot]
    exact ⟨shaped.before_end r inRows, shaped.after_origin r inRows⟩
  refine ⟨?_, ?_, ?_, ?_, ?_, ?_⟩
  · refine List.pairwise_append.mpr
      ⟨valid.ascending, resolved_ascending resolved shaped.ascending, fun a old b new => ?_⟩
    obtain ⟨s, covered, le⟩ := valid.covered a old
    obtain ⟨r, inRows, same⟩ := resolved_mem resolved new
    have after := (beyond s covered).2 r inRows
    rw [same.slot]
    omega
  · intro row member
    rcases List.mem_append.mp member with old | new
    · exact valid.admitted row old
    · exact resolved_admitted resolved shaped new
  · intro row member
    rcases List.mem_append.mp member with old | new
    · exact valid.after_origin row old
    · exact (later row new).2
  · intro row member
    refine ⟨newSyncedTo, rfl, ?_⟩
    rcases List.mem_append.mp member with old | new
    · obtain ⟨s, covered, le⟩ := valid.covered row old
      have after := (beyond s covered).1
      omega
    · exact (later row new).1
  · rintro s ⟨⟩
    exact shaped.coverage
  · rintro s ⟨⟩
    exact small

end ResolvedFacts

/-! ### Filing rows window by window -/

variable {rows : List Row}

section Filing
variable {segBits : Nat}

def rowsFrom (segBits : Nat) (rows : List Row) (win : Nat) : List Row :=
  rows.filter fun r => win ≤ ord r.slot segBits

theorem split_of_downward {α : Type} {p : α → Bool} {l : List α}
    (downward : l.Pairwise fun a b => p b = true → p a = true) :
    l.takeWhile p = l.filter p ∧ l.dropWhile p = l.filter fun a => !p a := by
  induction l with
  | nil => simp
  | cons a l ih =>
    rw [List.pairwise_cons] at downward
    by_cases first : p a = true
    · obtain ⟨taken, dropped⟩ := ih downward.2
      simp [first, taken, dropped]
    · have none : ∀ b ∈ l, p b = false := by
        intro b member
        by_contra holds
        exact first (downward.1 b member (by simpa using holds))
      have all : l.filter (fun b => !p b) = l := by
        rw [List.filter_eq_self]
        intro b member
        simp [none b member]
      have nothing : l.filter p = [] := by
        rw [List.filter_eq_nil_iff]
        intro b member
        simp [none b member]
      simp [first, all, nothing]

theorem rowsFrom_split (segBits : Nat) (ascending : rows.Pairwise fun a b => a.slot < b.slot)
    (win : Nat) :
    (rowsFrom segBits rows win).takeWhile (fun r => ord r.slot segBits = win) =
        windowRows segBits rows win ∧
      (rowsFrom segBits rows win).dropWhile (fun r => ord r.slot segBits = win) =
        rowsFrom segBits rows (win + 1) := by
  have downward : (rowsFrom segBits rows win).Pairwise fun a b =>
      decide (ord b.slot segBits = win) = true → decide (ord a.slot segBits = win) = true := by
    have sorted : (rowsFrom segBits rows win).Pairwise fun a b => a.slot < b.slot :=
      ascending.filter _
    refine List.Pairwise.imp_of_mem ?_ sorted
    intro a b inA inB lt same
    have low : win ≤ ord a.slot segBits := by simpa [rowsFrom] using (List.mem_filter.mp inA).2
    have high := ord_mono segBits (Nat.le_of_lt lt)
    simp only [decide_eq_true_eq] at same ⊢
    omega
  obtain ⟨taken, dropped⟩ := split_of_downward downward
  rw [taken, dropped]
  constructor
  · rw [rowsFrom, List.filter_filter, windowRows]
    congr 1
    funext r
    by_cases same : ord r.slot segBits = win
    · simp [same]
    · simp [same]
  · rw [rowsFrom, List.filter_filter, rowsFrom]
    congr 1
    funext r
    rw [Bool.eq_iff_iff]
    simp only [Bool.and_eq_true, Bool.not_eq_true', decide_eq_false_iff_not, decide_eq_true_eq]
    omega

end Filing

theorem Upholds.committedBytes_spec (up : Upholds ipld cfg holds unread flaky) {dirty : Bool}
    {n : Node} (stored : dirty = false → Stored ipld holds w n) :
    Post (committedBytes cfg dirty (cidOf ipld n)) w (fun _ _ => True) (fun _ => unread) := by
  refine post_ite (fun _ => ?_) fun clean => ?_
  · exact post_get_bind (post_pure trivial)
  · refine post_then (post_within
      (up.getBlock_spec (stored (by simpa using clean)))) fun _ _ _ => ?_
    exact post_pure trivial

variable {p : Pointer Segment}

theorem Upholds.commitSegment_spec (up : Upholds ipld cfg holds unread flaky) {s : Segment}
    (points : Points ipld holds w p s) (state : SegmentState) :
    Post (commitSegment ipld cfg p state) w
      (fun c after => c = cidOf ipld (segmentNode s) ∧ Stored ipld holds after (segmentNode s) ∧
        s.Encodable)
      (fun _ => Refused ipld flaky s.Encodable (segmentNode s)) := by
  refine post_then (post_raised (up.load_spec points) fun _ failed => .inl (up.reads failed)) ?_
  rintro ⟨s, q⟩ loaded ⟨rfl, -, points⟩
  refine post_modify_bind ?_
  have noted : Grows holds loaded
      { loaded with segmentEncodeState := some state, segmentEncodedBytes := 0 } :=
    up.sameStorage ⟨rfl, rfl, rfl⟩
  have cleared : ∀ w : World σ, SameStorage w { w with segmentEncodeState := none } :=
    fun _ => ⟨rfl, rfl, rfl⟩
  refine post_bind (keeps_ensuring (up.commit_keeps up.segs_writes _)
    fun w => up.sameStorage (cleared w)) (post_ensuring (post_mono (up.commit_spec
      (points.mono noted)) (fun r after committed => ?_) fun _ raised => raised))
    (P := fun r after => r.1 = cidOf ipld (segmentNode s) ∧
      Stored ipld holds after (segmentNode s) ∧ s.Encodable) ?_
  · exact ⟨committed.1, committed.2.1.mono (up.sameStorage (cleared _)), committed.2.2⟩
  · rintro ⟨_, _⟩ committed ⟨rfl, stored, encodable⟩ -
    refine post_bind (up.committedBytes_keeps _ _) (post_raised
      (up.committedBytes_spec fun _ => stored)
      fun _ failed => .inl (up.reads failed)) fun _ measured _ grows => ?_
    refine post_modify_bind (post_pure ⟨rfl, ?_, encodable⟩)
    exact (stored.mono grows).mono (up.sameStorage ⟨rfl, rfl, rfl⟩)

theorem Upholds.fillWindow_spec (up : Upholds ipld cfg holds unread flaky) {s : Segment}
    (points : Points ipld holds w p s) (win : Nat) (batch : List Row) :
    Post (fillWindow ipld cfg p win batch) w
      (fun q after => Points ipld holds after q { s with rows := s.rows ++ batch })
      (fun _ => unread) := by
  refine post_ite (fun _ => ?_) fun none => ?_
  · exact post_within (up.mutate_spec points _)
  · have empty : batch = [] := List.length_eq_zero_iff.mp (by omega)
    refine post_pure ?_
    simpa [empty] using points

/-! ### The loop over windows -/

section Windows
variable {old new : List Row} {newSyncedTo w0 : Nat}

structure Batch (params : Params) (old new : List Row) (newSyncedTo w0 : Nat) : Prop where
  usable : params.Usable
  small : newSyncedTo ≤ maxInt64
  ascending : new.Pairwise fun a b => a.slot < b.slot
  upto : ∀ r ∈ new, r.slot ≤ newSyncedTo
  old_before : ∀ r ∈ old, ord r.slot params.segBits ≤ w0
  new_after : ∀ r ∈ new, w0 ≤ ord r.slot params.segBits
  based : params.base ≤ w0
  valid : newSyncedTo < maxInt64 → Contents.Valid params ⟨some newSyncedTo, old ++ new⟩

def Extension.Fault (ipld : Codec) (flaky : Prop) (params : Params) (m : Contents) : Prop :=
  flaky ∨ BigPage ipld (2 ^ params.fanoutBits) ∨
    (∃ win, maxIndexNodeBytes < size (ipld.encode (segmentNode (segOf params.segBits m.rows win)))) ∨
    ∀ s, m.coverage = some s → maxInt64 ≤ s

def SealFault (ipld : Codec) (flaky : Prop) (params : Params) (rows : List Row) (win : Nat) : Prop :=
  flaky ∨ BigPage ipld (2 ^ params.fanoutBits) ∨
    ((segOf params.segBits rows win).Encodable →
      maxIndexNodeBytes < size (ipld.encode (segmentNode (segOf params.segBits rows win))))

structure SealedBelow (ipld : Codec) (params : Params) (holds : World σ → Cid → Prop) (w : World σ)
    (rows : List Row) (win : Nat) (st : State) : Prop where
  params_eq : st.params = params
  dir : DirOf ipld params.fanoutBits holds w
    (entriesOf params.segBits ipld rows params.base win) st.dir st.dirDepth
  sealed : ∀ v, params.base ≤ v → v < win → windowRows params.segBits rows v ≠ [] →
    Stored ipld holds w (segmentNode (segOf params.segBits rows v))

variable {win : Nat} {loop : Loop}

theorem SealedBelow.mono {w' : World σ} (below : SealedBelow ipld params holds w rows win st)
    (grows : Grows holds w w') : SealedBelow ipld params holds w' rows win st :=
  ⟨below.params_eq, below.dir.mono grows,
    fun v based before some => (below.sealed v based before some).mono grows⟩

/-- The loop at the start of window `win`: everything below is sealed, the open
segment holds the old rows of the window, and the new rows from it on are left. -/
structure Filed (ipld : Codec) (params : Params) (holds : World σ → Cid → Prop) (w : World σ)
    (old new : List Row) (win : Nat) (loop : Loop) : Prop where
  below : SealedBelow ipld params holds w (old ++ new) win loop.next
  opened : Points ipld holds w loop.opened (segOf params.segBits old win)
  left : loop.left = rowsFrom params.segBits new win

structure Done (ipld : Codec) (params : Params) (holds : World σ → Cid → Prop) (w : World σ)
    (rows : List Row) (newSyncedTo : Nat) (loop : Loop) : Prop where
  below : SealedBelow ipld params holds w rows (openWindow params newSyncedTo) loop.next
  opened : Points ipld holds w loop.opened
    (segOf params.segBits rows (openWindow params newSyncedTo))
  left : loop.left = []

theorem Done.mono {w' : World σ} (done : Done ipld params holds w rows newSyncedTo loop)
    (grows : Grows holds w w') : Done ipld params holds w' rows newSyncedTo loop :=
  ⟨done.below.mono grows, done.opened.mono grows, done.left⟩

variable (batch : Batch params old new newSyncedTo w0)
include batch

theorem Batch.windowRows_old (after : w0 < win) : windowRows params.segBits old win = [] := by
  apply windowRows_eq_nil
  intro r member same
  have le := batch.old_before r member
  omega

theorem Batch.windowRows_new (before : win < w0) : windowRows params.segBits new win = [] := by
  apply windowRows_eq_nil
  intro r member same
  have le := batch.new_after r member
  omega

theorem Batch.left_nil (after : ord newSyncedTo params.segBits < win) :
    rowsFrom params.segBits new win = [] := by
  rw [rowsFrom, List.filter_eq_nil_iff]
  intro r member
  have le := ord_mono params.segBits (batch.upto r member)
  simp only [decide_eq_true_eq]
  omega

omit batch

/-- Windows up to the last one stay clear of the `uint64` range. -/
theorem Params.Usable.next_start (usable : params.Usable) (small : newSyncedTo ≤ maxInt64)
    (last : win ≤ ord newSyncedTo params.segBits) : (win + 1) * 2 ^ params.segBits < 2 ^ 64 := by
  have start := le_ord_iff.mp last
  have power : 2 ^ params.segBits ≤ 2 ^ 63 := Nat.pow_le_pow_right (by omega) usable.segBits
  rw [maxInt64_eq] at small
  rw [Nat.add_mul]
  omega

theorem Params.Usable.windowEnd_le_iff (usable : params.Usable) (small : newSyncedTo ≤ maxInt64)
    (last : win ≤ ord newSyncedTo params.segBits) :
    windowEnd win params.segBits ≤ newSyncedTo ↔ win < openWindow params newSyncedTo := by
  have positive : 0 < 2 ^ params.segBits := Nat.two_pow_pos _
  have wide : 0 < (win + 1) * 2 ^ params.segBits := Nat.mul_pos (by omega) positive
  rw [windowEnd_eq (usable.next_start small last), openWindow, Nat.lt_iff_add_one_le, le_ord_iff]
  omega

include batch

theorem Batch.win_lt (last : win ≤ ord newSyncedTo params.segBits) : win + 1 < 2 ^ 64 := by
  have le := ord_le newSyncedTo params.segBits
  have bound := batch.small
  rw [maxInt64_eq] at bound
  omega

theorem Batch.last_lt (last : win ≤ ord newSyncedTo params.segBits) : win < maxUint64 := by
  have fits := batch.win_lt last
  rw [maxUint64_eq]
  omega

omit batch

theorem sub64_eq {a b : Nat} (le : b ≤ a) (small : a < 2 ^ 64) : sub64 a b = a - b := by
  rw [sub64, u64_eq]
  omega

variable (up : Upholds ipld cfg holds unread flaky)
include up

theorem Upholds.sealWindow_spec (usable : params.Usable)
    (below : SealedBelow ipld params holds w rows win st)
    (points : Points ipld holds w p (segOf params.segBits rows win)) (based : params.base ≤ win)
    (small : win < 2 ^ 63) (next : (win + 1) * 2 ^ params.segBits < 2 ^ 64) :
    Post (sealWindow ipld cfg st p win) w
      (fun r after => SealedBelow ipld params holds after rows (win + 1) r.1 ∧
        r.2 = newNode { slot0 := (win + 1) * 2 ^ params.segBits, rows := [] })
      (fun _ => SealFault ipld flaky params rows win) := by
  refine post_bind (keeps_within (up.load_keeps p)) (post_raised (post_within (up.load_spec points))
    fun _ failed => .inl (up.reads failed)) ?_
  rintro ⟨seg, q⟩ loaded ⟨loadedSeg, -, points⟩ grows
  dsimp only at loadedSeg points
  subst loadedSeg
  -- The entry appended is the canonical one of the window, and its segment is stored.
  refine post_bind (R := Grows holds) ?_
    (P := fun link after => link = entryOf params.segBits ipld rows win ∧
      (windowRows params.segBits rows win ≠ [] →
        Stored ipld holds after (segmentNode (segOf params.segBits rows win)))) ?_ ?_
  · refine keeps_ite (fun _ => ?_) fun _ => keeps_pure _
    exact keeps_bind (keeps_within (up.commitSegment_keeps _ _)) fun _ => keeps_pure _
  · refine post_ite (fun some => ?_) fun none => ?_
    · have nonempty : windowRows params.segBits rows win ≠ [] := List.ne_nil_of_length_pos some
      refine post_bind (keeps_within (up.commitSegment_keeps _ _)) (post_raised (post_within
        (up.commitSegment_spec points _)) fun _ raised => ?_) ?_
      · exact raised.imp id .inr
      · rintro _ after ⟨rfl, stored, -⟩ -
        exact post_pure ⟨by rw [entryOf, if_neg nonempty]; rfl, fun _ => stored⟩
    · have empty : windowRows params.segBits rows win = [] :=
        List.length_eq_zero_iff.mp (Nat.eq_zero_of_not_pos none)
      exact post_pure ⟨by rw [entryOf, if_pos empty], fun nonempty => absurd empty nonempty⟩
  · rintro _ middle ⟨rfl, stored⟩ grows'
    have below := below.mono (grows.trans grows')
    have index : sub64 win st.dirBase =
        (entriesOf params.segBits ipld rows params.base win).length := by
      rw [length_entriesOf, State.dirBase, below.params_eq]
      exact sub64_eq based (by omega)
    rw [index, below.params_eq]
    have start : windowStart (u64 (win + 1)) params.segBits = (win + 1) * 2 ^ params.segBits := by
      rw [u64_of_lt (by omega), windowStart_eq next]
    refine post_bind (up.dirAppend_keeps _ _ _ _ _) (post_raised (up.dirAppend_spec
      usable.fanout_pos (Nat.lt_of_le_of_lt usable.fanout_le (by omega)) below.dir
      (by rw [length_entriesOf]; omega)
      (entriesOf_succ ipld rows based ▸ entriesOf_indexLinks ipld _ _ _))
      fun _ raised => raised.imp id .inl) ?_
    rintro ⟨dir, depth⟩ after appended grows''
    rw [← entriesOf_succ ipld rows based] at appended
    refine post_pure ⟨⟨rfl, appended, fun v basedV before some => ?_⟩, by rw [start]⟩
    rcases Nat.lt_or_eq_of_le (Nat.le_of_lt_succ before) with earlier | rfl
    · exact (below.sealed v basedV earlier some).mono grows''
    · exact (stored some).mono grows''

theorem Upholds.sealIfFull_spec (usable : params.Usable) (small : newSyncedTo ≤ maxInt64)
    (below : SealedBelow ipld params holds w rows win st)
    (points : Points ipld holds w p (segOf params.segBits rows win)) (based : params.base ≤ win)
    (last : win ≤ ord newSyncedTo params.segBits) :
    Post (sealIfFull ipld cfg newSyncedTo st p win) w
      (fun r after =>
        (win < openWindow params newSyncedTo →
          SealedBelow ipld params holds after rows (win + 1) r.1 ∧
          r.2 = newNode { slot0 := (win + 1) * 2 ^ params.segBits, rows := [] }) ∧
        (¬ win < openWindow params newSyncedTo →
          SealedBelow ipld params holds after rows win r.1 ∧
          Points ipld holds after r.2 (segOf params.segBits rows win)))
      (fun _ => SealFault ipld flaky params rows win) := by
  have full := usable.windowEnd_le_iff small last
  unfold sealIfFull
  rw [below.params_eq]
  refine post_ite (fun sealing => ?_) fun staying => ?_
  · have narrow : win < 2 ^ 63 := by
      have le := ord_le newSyncedTo params.segBits
      rw [maxInt64_eq] at small
      omega
    refine post_mono (up.sealWindow_spec usable below points based narrow
      (usable.next_start small last)) (fun r after sealed => ?_) fun _ raised => raised
    exact ⟨fun _ => sealed, fun contra => absurd (full.mp sealing) contra⟩
  · exact post_pure ⟨fun contra => absurd (full.mpr contra) staying, fun _ => ⟨below, points⟩⟩

omit up

theorem SealFault.extension {s : Nat} (refused : SealFault ipld flaky params m.rows win)
    (valid : m.Valid params) (covered : m.coverage = some s) (last : win ≤ openWindow params s) :
    Extension.Fault ipld flaky params m :=
  refused.imp id (Or.imp id fun large =>
    .inl ⟨win, large (valid.segOf_encodable (valid.open_start covered last))⟩)

include batch

theorem Batch.fault (last : win ≤ openWindow params newSyncedTo)
    (refused : SealFault ipld flaky params (old ++ new) win) :
    Extension.Fault ipld flaky params ⟨some newSyncedTo, old ++ new⟩ := by
  rcases Nat.lt_or_ge newSyncedTo maxInt64 with inside | outside
  · exact refused.extension (batch.valid inside) rfl last
  · refine .inr (.inr (.inr ?_))
    rintro s ⟨⟩
    exact outside

theorem Batch.filed_done
    (filed : Filed ipld params holds w old new (ord newSyncedTo params.segBits + 1) loop)
    (full : openWindow params newSyncedTo = ord newSyncedTo params.segBits + 1) :
    Done ipld params holds w (old ++ new) newSyncedTo loop := by
  have none : windowRows params.segBits new (ord newSyncedTo params.segBits + 1) = [] := by
    apply windowRows_eq_nil
    intro r member same
    have le := ord_mono params.segBits (batch.upto r member)
    omega
  have same : segOf params.segBits old (ord newSyncedTo params.segBits + 1) =
      segOf params.segBits (old ++ new) (ord newSyncedTo params.segBits + 1) :=
    segOf_congr (by rw [windowRows_append, none, List.append_nil])
  refine ⟨full ▸ filed.below, ?_, ?_⟩
  · rw [full, ← same]
    exact filed.opened
  · rw [filed.left]
    exact batch.left_nil (by omega)

omit batch

include up

/-- One round of the loop: a full window is sealed and the next one begins, the
last one may stay open. -/
theorem Upholds.applyWindow_spec (batch : Batch params old new newSyncedTo w0)
    (filed : Filed ipld params holds w old new win loop) (from_start : w0 ≤ win)
    (last : win ≤ ord newSyncedTo params.segBits) :
    Post (applyWindow ipld cfg newSyncedTo win loop) w
      (fun loop' after =>
        if win < openWindow params newSyncedTo then
          Filed ipld params holds after old new (win + 1) loop'
        else Done ipld params holds after (old ++ new) newSyncedTo loop')
      (fun _ => Extension.Fault ipld flaky params ⟨some newSyncedTo, old ++ new⟩) := by
  obtain ⟨taken, dropped⟩ := rowsFrom_split params.segBits batch.ascending win
  have open_le := openWindow_ge params newSyncedTo
  unfold applyWindow
  rw [filed.below.params_eq, filed.left]
  dsimp only
  rw [taken, dropped]
  have combined : ({ segOf params.segBits old win with
        rows := (segOf params.segBits old win).rows ++ windowRows params.segBits new win } : Segment) =
      segOf params.segBits (old ++ new) win := by
    simp [segOf, windowRows_append]
  refine post_bind (up.fillWindow_keeps _ _ _) (post_raised (up.fillWindow_spec filed.opened win _)
    fun _ failed => .inl (up.reads failed)) ?_
  intro opened filled points grows
  rw [combined] at points
  have below := filed.below.mono grows
  refine post_then (post_raised (up.sealIfFull_spec batch.usable
    batch.small below points (Nat.le_trans batch.based from_start) last)
    fun _ raised => batch.fault (by omega) raised) ?_
  rintro ⟨next, q⟩ after ⟨sealed, stayed⟩
  refine post_pure ?_
  split
  · rename_i more
    obtain ⟨below, rfl⟩ := sealed more
    refine ⟨below, ?_, rfl⟩
    have empty := batch.windowRows_old (show w0 < win + 1 by omega)
    simp only [segOf, empty]
    exact .dirty
  · rename_i past
    have here : openWindow params newSyncedTo = win := by omega
    obtain ⟨below, points⟩ := stayed past
    exact ⟨here ▸ below, here ▸ points, batch.left_nil (by omega)⟩

omit up in
theorem openWindow_le_succ (params : Params) (s : Nat) :
    openWindow params s ≤ ord s params.segBits + 1 := by
  rw [← Nat.lt_add_one_iff, openWindow, ord_lt_iff]
  have below := ord_eq_iff.mp (rfl : ord s params.segBits = ord s params.segBits)
  have positive := Nat.two_pow_pos params.segBits
  rw [Nat.add_mul]
  omega

theorem Upholds.applyWindows_spec (batch : Batch params old new newSyncedTo w0) {rounds : Nat}
    (filed : Filed ipld params holds w old new win loop) (from_start : w0 ≤ win)
    (reached : win ≤ openWindow params newSyncedTo)
    (count : rounds + win = ord newSyncedTo params.segBits + 1) :
    Post (applyWindows ipld cfg newSyncedTo (ord newSyncedTo params.segBits) rounds win loop) w
      (fun loop' after => Done ipld params holds after (old ++ new) newSyncedTo loop')
      (fun _ => Extension.Fault ipld flaky params ⟨some newSyncedTo, old ++ new⟩) := by
  have top := openWindow_le_succ params newSyncedTo
  induction rounds generalizing win loop w with
  | zero =>
    obtain rfl : win = ord newSyncedTo params.segBits + 1 := by omega
    rw [applyWindows, if_neg (by omega)]
    exact post_pure (batch.filed_done filed (by omega))
  | succ rounds ih =>
    have last : win ≤ ord newSyncedTo params.segBits := by omega
    rw [applyWindows, if_pos last, u64_of_lt (batch.win_lt last)]
    refine post_then (up.applyWindow_spec batch filed from_start last) fun loop' after step => ?_
    split at step
    · rename_i more
      exact ih step (by omega) (by omega) (by omega)
    · rename_i past
      -- The last window stayed open, so this was the last round.
      have open_le := openWindow_ge params newSyncedTo
      obtain rfl : rounds = 0 := by omega
      rw [applyWindows, if_neg (by omega)]
      exact post_pure step

end Windows

/-! ### The whole extension -/

section Extend
variable {st : State} {rows : List RefRow} {out : List Row} {newSyncedTo : Nat}

def startWindow (params : Params) (m : Contents) : Nat :=
  match m.coverage with
  | none => params.base
  | some s => openWindow params s

def Advances (m : Contents) (rows : List RefRow) (newSyncedTo : Nat) : Prop :=
  ∀ s, m.coverage = some s → s < newSyncedTo ∧ ∀ r ∈ rows, s < r.slot

theorem Contents.Valid.base_le_start (valid : m.Valid params) :
    params.base ≤ startWindow params m := by
  unfold startWindow
  split
  · exact Nat.le_refl _
  · rename_i s covered
    exact Nat.le_trans (valid.base_le covered) (openWindow_ge params s)

theorem startWindow_le (params : Params) (m : Contents) (advances : Advances m rows newSyncedTo)
    (origin : params.originSlot ≤ newSyncedTo) :
    startWindow params m ≤ ord newSyncedTo params.segBits := by
  unfold startWindow
  split
  · exact ord_mono _ origin
  · rename_i s covered
    have after := (advances s covered).1
    exact ord_mono _ (by omega)

theorem Contents.Valid.batch (valid : m.Valid params) (usable : params.Usable)
    (shaped : Shaped params.originSlot newSyncedTo rows)
    (resolved : List.Forall₂ Resolved rows out) (advances : Advances m rows newSyncedTo)
    (small : newSyncedTo ≤ maxInt64) :
    Batch params m.rows out newSyncedTo (startWindow params m) where
  usable := usable
  small := small
  ascending := resolved_ascending resolved shaped.ascending
  upto := by
    intro row member
    obtain ⟨r, inRows, same⟩ := resolved_mem resolved member
    rw [same.slot]
    exact shaped.before_end r inRows
  old_before := by
    intro r member
    obtain ⟨s, covered, le⟩ := valid.covered r member
    simp only [startWindow, covered]
    exact Nat.le_trans (ord_mono _ le) (openWindow_ge params s)
  new_after := by
    intro row member
    obtain ⟨r, inRows, same⟩ := resolved_mem resolved member
    rw [same.slot]
    unfold startWindow
    split
    · exact ord_mono _ (shaped.after_origin r inRows)
    · rename_i s covered
      exact ord_mono _ ((advances s covered).2 r inRows)
  based := valid.base_le_start
  valid := fun inside => valid.extend shaped resolved advances inside

theorem Indexed.start_eq (indexed : Indexed ipld params holds w st m) :
    ord (if st.covered then u64 (st.syncedTo + 1) else st.params.originSlot) st.params.segBits =
      startWindow params m := by
  rw [indexed.covered_eq, indexed.params_eq]
  unfold startWindow
  cases coverage : m.coverage with
  | none => rfl
  | some s =>
    have bound := indexed.valid.bounded s coverage
    rw [maxInt64_eq] at bound
    rw [indexed.syncedTo_eq coverage, u64_of_lt (by omega)]
    rfl

theorem Upholds.startSegment_spec (up : Upholds ipld cfg holds unread flaky)
    (indexed : Indexed ipld params holds w st m) :
    Post (startSegment ipld cfg st (startWindow params m)) w
      (fun p after => Points ipld holds after p (segOf params.segBits m.rows (startWindow params m)))
      (fun _ => unread) := by
  cases coverage : m.coverage with
  | none =>
    refine post_ite (fun covered => ?_) fun _ => ?_
    · rw [indexed.covered_eq, coverage] at covered
      cases covered
    · have start : params.base * 2 ^ params.segBits ≤ params.originSlot :=
        le_ord_iff.mp (Nat.le_refl _)
      have origin := indexed.usable.origin
      rw [maxInt64_eq] at origin
      have segment : ({ slot0 := windowStart params.base params.segBits, rows := [] } : Segment) =
          segOf params.segBits m.rows params.base := by
        rw [windowStart_eq (by omega), indexed.valid.rows_nil coverage]
        rfl
      simp only [startWindow, coverage, indexed.params_eq]
      refine post_pure ?_
      rw [segment]
      exact .dirty
  | some s =>
    refine post_ite (fun _ => ?_) fun uncovered => ?_
    · simp only [startWindow, coverage]
      refine post_bind (openOrd_keeps up.get_keeps st) (up.openOrd_indexed indexed coverage) ?_
      rintro _ after rfl grows
      refine post_guard_bind (fun wrong => by simp at wrong) fun _ => post_pure ?_
      rw [indexed.openCid_eq coverage]
      exact .clean (.inl rfl) ((indexed.open_stored coverage).mono grows)
        (indexed.open_encodable coverage (Nat.le_refl _))
    · rw [indexed.covered_eq, coverage] at uncovered
      exact absurd rfl uncovered

theorem Indexed.filed (indexed : Indexed ipld params holds w st m)
    (batch : Batch params m.rows out newSyncedTo (startWindow params m))
    (points : Points ipld holds w p (segOf params.segBits m.rows (startWindow params m))) :
    Filed ipld params holds w m.rows out (startWindow params m)
      { next := { st with root := none }, opened := p, left := out } := by
  have older : ∀ win, win < startWindow params m →
      windowRows params.segBits (m.rows ++ out) win = windowRows params.segBits m.rows win := by
    intro win before
    rw [windowRows_append, batch.windowRows_new before, List.append_nil]
  refine ⟨⟨indexed.params_eq, ?_, ?_⟩, points, ?_⟩
  · rw [entriesOf_congr ipld older]
    cases coverage : m.coverage with
    | none =>
      have state := indexed.state
      simp only [bareState, coverage] at state
      have dir := congrArg State.dir state
      have depth := congrArg State.dirDepth state
      simp only [State.empty] at dir depth
      simp only [dir, depth, startWindow, coverage, entriesOf, Nat.sub_self, List.range_zero,
        List.map_nil]
      exact .nil
    | some s =>
      simp only [startWindow, coverage]
      exact indexed.dirOf coverage
  · intro v based before some
    rw [older v before] at some
    rw [segOf_congr (older v before)]
    cases coverage : m.coverage with
    | none =>
      rw [indexed.valid.rows_nil coverage] at some
      exact absurd rfl some
    | some s =>
      simp only [startWindow, coverage] at before
      exact indexed.stored _ (.sealed coverage based before some)
  · rw [rowsFrom, eq_comm, List.filter_eq_self]
    intro r member
    simpa using batch.new_after r member

/-- An open segment that can be written starts at an IPLD integer, so coverage
ends below the largest one. -/
theorem lt_maxInt64_of_open (usable : params.Usable) (small : newSyncedTo ≤ maxInt64)
    (start : openWindow params newSyncedTo * 2 ^ params.segBits ≤ maxInt64) :
    newSyncedTo < maxInt64 := by
  by_contra top
  have exact : newSyncedTo + 1 = 2 ^ 63 := by
    rw [maxInt64_eq] at small top
    omega
  have divides : 2 ^ params.segBits ∣ newSyncedTo + 1 := exact ▸ Nat.pow_dvd_pow 2 usable.segBits
  rw [openWindow, ord_eq_div, Nat.div_mul_cancel divides, exact, maxInt64_eq] at start
  omega

theorem Done.indexed {loop : Loop} (m' : Contents) {next : State}
    (done : Done ipld params holds w m'.rows newSyncedTo loop) (usable : params.Usable)
    (valid : m'.Valid params) (covered : m'.coverage = some newSyncedTo)
    (stored : Stored ipld holds w
      (segmentNode (segOf params.segBits m'.rows (openWindow params newSyncedTo))))
    (made : next = { loop.next with
      openCid := some (segCid params.segBits ipld m'.rows (openWindow params newSyncedTo))
      syncedTo := newSyncedTo, covered := true }) : Indexed ipld params holds w next m' := by
  subst made
  have dir := done.below.dir
  have depth : loop.next.dirDepth =
      canonicalDepth (sealedEntries ipld params m'.rows newSyncedTo).length params.fanoutBits :=
    dir.least.unique (canonicalDepth_isDepth usable.fanout_pos)
  refine ⟨?_, usable, valid, fun n body => ?_⟩
  · rw [bareState_some covered, ← depth]
    have link := dir.link
    have same := done.below.params_eq
    cases next : loop.next
    rw [next] at link same
    dsimp only at link same
    simp only [link, same]
    rfl
  · cases body with
    | page covered' member =>
      rw [covered] at covered'
      cases covered'
      rw [dirPages, ← depth] at member
      split at member
      · simp at member
      · rename_i level same
        exact dir.stored level same _ member
    | sealed covered' based before some =>
      rw [covered] at covered'
      cases covered'
      exact done.below.sealed _ based before some
    | opened covered' =>
      rw [covered] at covered'
      cases covered'
      exact stored

theorem Upholds.extendIndex_spec (up : Upholds ipld cfg holds unread flaky)
    (indexed : Indexed ipld params holds w st m)
    (shaped : Shaped params.originSlot newSyncedTo rows)
    (resolved : List.Forall₂ Resolved rows out) (advances : Advances m rows newSyncedTo)
    (small : newSyncedTo ≤ maxInt64) :
    Post (extendIndex ipld cfg st out newSyncedTo) w
      (fun next after =>
        Indexed ipld params holds after next ⟨some newSyncedTo, m.rows ++ out⟩)
      (fun _ => Extension.Fault ipld flaky params ⟨some newSyncedTo, m.rows ++ out⟩) := by
  have batch := indexed.valid.batch indexed.usable shaped resolved advances small
  have le := startWindow_le params m advances shaped.coverage
  simp only [extendIndex, indexed.start_eq]
  refine post_bind (up.startSegment_keeps _ _) (post_raised (up.startSegment_spec indexed)
    fun _ failed => .inl (up.reads failed)) ?_
  intro p started points grows
  have segBits : st.params.segBits = params.segBits := by rw [indexed.params_eq]
  rw [segBits, windowRounds, if_pos (batch.last_lt (Nat.le_refl _))]
  refine post_then (up.applyWindows_spec batch
    ((indexed.mono grows).filed batch points) (Nat.le_refl _)
    (Nat.le_trans le (openWindow_ge params _)) (by omega)) ?_
  intro loop looped done
  refine post_guard_bind (fun wrong => by simp [done.left] at wrong) fun _ => ?_
  refine post_bind (keeps_within (up.commitSegment_keeps _ _)) (post_raised (post_within
    (up.commitSegment_spec done.opened _)) fun _ raised => ?_) ?_
  · exact batch.fault (Nat.le_refl _) (raised.imp id .inr)
  · rintro _ after ⟨rfl, stored, encodable⟩ grows'
    have inside := lt_maxInt64_of_open indexed.usable small encodable.slot0
    exact post_pure ((done.mono grows').indexed ⟨some newSyncedTo, m.rows ++ out⟩ indexed.usable
      (batch.valid inside) rfl stored rfl)

theorem extendIndex_synced (st : State) (out : List Row) (newSyncedTo : Nat) (w : World σ) :
    Post (extendIndex ipld cfg st out newSyncedTo) w
      (fun next _ => next.syncedTo = newSyncedTo ∧ next.covered = true) (fun _ => True) := by
  refine post_then (post_any _) fun _ _ _ => ?_
  refine post_then (post_any _) fun _ _ _ => ?_
  refine post_then (post_any _) fun _ _ _ => ?_
  exact post_then (post_any _) fun _ _ _ => post_pure ⟨rfl, rfl⟩

end Extend

/-! ### Replay -/

def Carries (m : Contents) (rows : List RefRow) : Prop :=
  ∀ r ∈ rows, ∃ row ∈ m.rows, row.slot = r.slot ∧ row.entries.map RefEntry.vh = r.vhs

theorem replayEntries_ok_iff {slot i : Nat} {vhs : List VersionedHash} {entries : List RefEntry}
    (length : entries.length = vhs.length) :
    replayEntries slot i vhs entries = .ok u ↔ entries.map RefEntry.vh = vhs := by
  induction vhs generalizing i entries with
  | nil =>
    obtain rfl : entries = [] := List.length_eq_zero_iff.mp length
    simp [replayEntries]
  | cons vh vhs ih =>
    cases entries with
    | nil => cases length
    | cons e entries =>
      simp only [replayEntries, Loops.bind_ok_iff, conflictUnless_ok_iff, List.map_cons,
        List.cons.injEq, ih (Nat.succ.inj length)]
      exact ⟨fun ⟨_, same, rest⟩ => ⟨same, rest⟩, fun ⟨same, rest⟩ => ⟨(), same, rest⟩⟩

theorem carries_row_iff (ascending : rows.Pairwise fun a b => a.slot < b.slot) {r : RefRow} :
    (∃ row ∈ rows, row.slot = r.slot ∧ row.entries.map RefEntry.vh = r.vhs) ↔
      ∃ row, rows.find? (fun row => row.slot = r.slot) = some row ∧
        row.entries.map RefEntry.vh = r.vhs := by
  simp only [find_slot_iff ascending, and_assoc]

theorem Upholds.verifyReplay_spec (up : Upholds ipld cfg holds unread flaky)
    (indexed : Indexed ipld params holds w st m) {s : Nat} (covered : m.coverage = some s)
    {rows : List RefRow} (origin : ∀ r ∈ rows, params.originSlot ≤ r.slot)
    (inside : ∀ r ∈ rows, r.slot ≤ s) :
    Post (verifyReplay ipld cfg st rows) w (fun _ _ => Carries m rows)
      (fun _ => unread ∨ ¬ Carries m rows) := by
  induction rows generalizing w with
  | nil => exact post_pure (by simp [Carries])
  | cons r rest ih =>
    rw [List.forall_mem_cons] at origin inside
    have answer : m.rowAt params.originSlot r.slot =
        (.of .found r.slot, m.rows.find? fun row => row.slot = r.slot) := by
      simp only [Contents.rowAt, covered]
      rw [if_neg (by omega), if_neg (by omega)]
    have row_iff := carries_row_iff (r := r) indexed.valid.ascending
    refine post_bind (lookupRow_keeps up.get_keeps st _) (post_raised (up.lookupRow_spec indexed r.slot)
      fun _ failed => .inl failed) ?_
    rintro _ looked rfl grows
    rw [answer]
    cases found : m.rows.find? fun row => row.slot = r.slot with
    | none =>
      refine post_fail (.inr fun carries => ?_)
      obtain ⟨row, same, -⟩ := row_iff.mp (carries r (by simp))
      rw [found] at same
      cases same
    | some row =>
      have carried : (∃ row ∈ m.rows, row.slot = r.slot ∧
          row.entries.map RefEntry.vh = r.vhs) ↔ row.entries.map RefEntry.vh = r.vhs := by
        rw [row_iff, found]
        refine ⟨?_, fun vhs => ⟨row, rfl, vhs⟩⟩
        rintro ⟨_, ⟨⟩, vhs⟩
        exact vhs
      refine post_ofExcept_bind (fun e error => ?_) fun _ ok => ?_
      · refine .inr fun carries => ?_
        have vhs := carried.mp (carries r (by simp))
        have length : row.entries.length = r.vhs.length := by rw [← vhs, List.length_map]
        simp [conflictUnless, length] at error
      · have length := conflictUnless_ok_iff.mp ok
        refine post_ofExcept_bind (fun e error => ?_) fun _ ok => ?_
        · refine .inr fun carries => ?_
          have vhs := carried.mp (carries r (by simp))
          have ok : replayEntries r.slot 0 r.vhs row.entries = .ok () :=
            (replayEntries_ok_iff length).mpr vhs
          rw [ok] at error
          cases error
        · have vhs := (replayEntries_ok_iff length).mp ok
          refine post_mono (ih (indexed.mono grows) origin.2 inside.2)
            (fun _ _ carries => ?_) fun _ raised => ?_
          · rw [Carries, List.forall_mem_cons]
            exact ⟨carried.mpr vhs, carries⟩
          · refine raised.imp id fun missing carries => missing ?_
            rw [Carries, List.forall_mem_cons] at carries
            exact carries.2

/-! ### `ApplyRefs` -/

section ApplyRefs
variable {rows : List RefRow} {newSyncedTo : Nat}

def Replays (m : Contents) (rows : List RefRow) (newSyncedTo : Nat) : Prop :=
  (∃ s, m.coverage = some s ∧ newSyncedTo ≤ s) ∧ Carries m rows

structure Extended (ipld : Codec) (params : Params) (holds : World σ → Cid → Prop)
    (w after : World σ) (m : Contents) (rows : List RefRow) (newSyncedTo : Nat) (out : List Row) :
    Prop where
  shaped : Shaped params.originSlot newSyncedTo rows
  advances : Advances m rows newSyncedTo
  resolved : List.Forall₂ Resolved rows out
  represents : Represents ipld params holds after ⟨some newSyncedTo, m.rows ++ out⟩
  published : Published ipld holds w after after.cur

inductive ApplyFault (ipld : Codec) (cfg : Config σ) (flaky : Prop) (params : Params)
    (w : World σ) (m : Contents) (rows : List RefRow) (newSyncedTo : Nat) : Prop where
  | storage (failed : flaky)
  | shape (wrong : ¬ Shaped params.originSlot newSyncedTo rows)
  | conflict (stays : ¬ Advances m rows newSyncedTo) (new : ¬ Replays m rows newSyncedTo)
  | unresolved {e : Error} {after : World σ} (failed : resolveRows cfg rows w = (.error e, after))
  | extension {out : List Row} {after : World σ} (resolved : resolveRows cfg rows w = (.ok out, after))
      (fault : Extension.Fault ipld flaky params ⟨some newSyncedTo, m.rows ++ out⟩)
  | root {out : List Row} {after : World σ} (resolved : resolveRows cfg rows w = (.ok out, after))
      (large : maxIndexNodeBytes <
        size (ipld.encode (rootNode ipld params ⟨some newSyncedTo, m.rows ++ out⟩)))

theorem Indexed.headObject_eq (indexed : Indexed ipld params holds w st m) :
    headNode st.headObject = rootNode ipld params m := by
  rw [rootNode, ← indexed.state]
  rfl

theorem Published.represents {middle after : World σ}
    (published : Published ipld holds middle after after.cur)
    (indexed : Indexed ipld params holds middle st m)
    (swapped : after.cur = { st with root := some (cidOf ipld (headNode st.headObject)) }) :
    Represents ipld params holds after m := by
  have head : headNode after.cur.headObject = rootNode ipld params m := by
    rw [swapped]
    exact indexed.headObject_eq
  refine ⟨⟨?_, indexed.usable, indexed.valid, fun n body => ?_⟩, ?_, ?_⟩
  · rw [swapped]
    exact indexed.state
  · have stored := indexed.stored n body
    exact ⟨published.kept _ stored.held, stored.fits⟩
  · rw [published.root, head]
  · exact head ▸ published.stored

variable (up : Upholds ipld cfg holds unread flaky)
include up

variable (unobserved : Unobserved holds)
include unobserved

theorem Upholds.publish_indexed (indexed : Indexed ipld params holds w st m) :
    Post (publish ipld cfg st) w
      (fun st' after => st' = after.cur ∧ Represents ipld params holds after m ∧
        Published ipld holds w after after.cur)
      (fun _ => flaky ∨ maxIndexNodeBytes < size (ipld.encode (rootNode ipld params m))) := by
  have encodable : st.headObject.Encodable := by
    have same : st.headObject = (bareState ipld params m).headObject := by
      rw [← indexed.state]
      rfl
    rw [same]
    exact indexed.valid.root_encodable indexed.usable
  refine post_mono (up.publish_spec unobserved st w) ?_ fun _ refused => ?_
  · rintro st' after ⟨rfl, published⟩
    have swapped := published.cur
    have published' := swapped ▸ published
    exact ⟨swapped.symm, published'.represents indexed swapped, published'⟩
  · refine refused.imp id fun large => ?_
    rw [← indexed.headObject_eq]
    exact large encodable

theorem Upholds.applyResolved_spec {out : List Row} (indexed : Indexed ipld params holds w st m)
    (shaped : Shaped params.originSlot newSyncedTo rows) (resolved : List.Forall₂ Resolved rows out)
    (advances : Advances m rows newSyncedTo) :
    Post (applyResolved ipld cfg st out newSyncedTo) w
      (fun r after => r.noOp = false ∧ r.syncedTo = newSyncedTo ∧ r.root = after.cur.root ∧
        Extended ipld params holds w after m rows newSyncedTo out)
      (fun _ => Extension.Fault ipld flaky params ⟨some newSyncedTo, m.rows ++ out⟩ ∨
        maxIndexNodeBytes <
          size (ipld.encode (rootNode ipld params ⟨some newSyncedTo, m.rows ++ out⟩))) := by
  refine post_ensuring (post_modify_bind ?_)
  set started : World σ := { w with applyStats := some ⟨0, []⟩ }
  have start : Grows holds w started := up.sameStorage ⟨rfl, rfl, rfl⟩
  rcases Nat.lt_or_ge maxInt64 newSyncedTo with beyond | small
  · -- Coverage past the IPLD integers cannot be published.
    have fault : Extension.Fault ipld flaky params ⟨some newSyncedTo, m.rows ++ out⟩ := by
      refine .inr (.inr (.inr ?_))
      rintro s ⟨⟩
      omega
    refine post_then (post_raised (extendIndex_synced st out newSyncedTo
      started) fun _ _ => .inl fault) ?_
    rintro next middle ⟨synced, covered⟩
    refine post_bind_run (fun _ _ _ => .inl fault) fun st' after ran => ?_
    obtain ⟨-, published⟩ := post_ok (up.publish_spec unobserved next middle) ran
    have limit := published.encodable.syncedInt
    obtain ⟨rfl, -⟩ := post_ok (up.publish_spec unobserved next middle) ran
    simp only [State.headObject, covered, if_true, Option.some.injEq, forall_eq', synced] at limit
    omega
  · refine post_bind (up.extendIndex_keeps _ _ _) (post_raised (up.extendIndex_spec
      (indexed.mono start) shaped resolved advances small)
      fun _ fault => .inl fault) ?_
    intro next middle made grows
    refine post_then (post_raised (up.publish_indexed unobserved made)
      fun _ raised => raised.imp .inl id) ?_
    rintro _ after ⟨rfl, represents, published⟩
    refine post_get_bind (post_modify_bind (post_pure ⟨rfl, ?_, rfl, ?_⟩))
    · exact represents.toIndexed.syncedTo_eq rfl
    · have whole := published.prepend (start.trans grows)
      refine ⟨shaped, advances, resolved, ?_, ?_⟩
      · exact represents.mono (up.sameStorage ⟨rfl, rfl, rfl⟩)
      · exact up.published_scratch whole ⟨rfl, rfl, rfl⟩

theorem Upholds.applyRefs_spec (represents : Represents ipld params holds w m) :
    Post (applyRefs ipld cfg rows newSyncedTo) w
      (fun r after =>
        (r.noOp = true ∧ Replays m rows newSyncedTo ∧ m.coverage = some r.syncedTo ∧
          r.root = w.cur.root ∧ Grows holds w after) ∨
        (r.noOp = false ∧ r.syncedTo = newSyncedTo ∧ r.root = after.cur.root ∧
          ∃ out middle, resolveRows cfg rows w = (.ok out, middle) ∧
            Extended ipld params holds w after m rows newSyncedTo out))
      (fun _ => ApplyFault ipld cfg flaky params w m rows newSyncedTo) := by
  have indexed := represents.toIndexed
  refine post_get_bind ?_
  refine post_ofExcept_bind (fun e error => ?_) fun _ ok => ?_
  · refine .shape fun shaped => ?_
    rw [← indexed.params_eq] at shaped
    have ok : validateShape w.cur rows newSyncedTo = .ok () := validateShape_ok_iff.mpr shaped
    rw [ok] at error
    cases error
  · have shaped := validateShape_ok_iff.mp ok
    rw [indexed.params_eq] at shaped
    refine post_ite (fun replay => ?_) fun extend => ?_
    · obtain ⟨isCovered, back, -⟩ := replay
      obtain ⟨s, covered⟩ : ∃ s, m.coverage = some s := by
        rw [indexed.covered_eq] at isCovered
        exact Option.isSome_iff_exists.mp isCovered
      rw [indexed.syncedTo_eq covered] at back ⊢
      have stays : ¬ Advances m rows newSyncedTo := fun advances => by
        have after := (advances s covered).1
        omega
      refine post_bind (verifyReplay_keeps up.get_keeps _ _) (post_raised (up.verifyReplay_spec indexed covered
        shaped.after_origin fun r member => Nat.le_trans (shaped.before_end r member) back)
        fun _ raised => ?_) ?_
      · rcases raised with failed | different
        · exact .storage (up.reads failed)
        · exact .conflict stays fun replays => different replays.2
      · intro _ after carries grows
        exact post_pure (.inl ⟨rfl, ⟨⟨s, covered, back⟩, carries⟩, covered, rfl, grows⟩)
    · have beyond : ∀ s, m.coverage = some s → s < newSyncedTo := by
        intro s covered
        by_contra back
        refine extend ⟨by rw [indexed.covered_eq, covered]; rfl, ?_, ?_⟩
        · rw [indexed.syncedTo_eq covered]
          omega
        · rw [indexed.syncedTo_eq covered]
          exact lastSlot_le fun r member => Nat.le_trans (shaped.before_end r member) (by omega)
      refine post_ofExcept_bind (fun e error => ?_) fun _ ok => ?_
      · refine .conflict (fun advances => ?_) fun ⟨⟨s, covered, back⟩, _⟩ => ?_
        · cases coverage : m.coverage with
          | none =>
            rw [indexed.covered_eq, coverage] at error
            cases error
          | some s =>
            rw [indexed.covered_eq, coverage, indexed.syncedTo_eq coverage] at error
            have ok : overlap s newSyncedTo 0 rows = .ok () :=
              overlap_ok_iff.mpr (advances s coverage).2
            simp [ok] at error
        · have after := beyond s covered
          omega
      · have advances : Advances m rows newSyncedTo := by
          refine fun s covered => ⟨beyond s covered, ?_⟩
          rw [indexed.covered_eq, covered, indexed.syncedTo_eq covered] at ok
          exact overlap_ok_iff.mp ok
        refine post_bind_run (fun e after ran => .unresolved ran) fun out middle ran => ?_
        have resolved := post_ok (resolveRows_spec rows w) ran
        have grows := up.resolveRows_keeps rows w
        rw [ran] at grows
        refine post_mono (up.applyResolved_spec unobserved (indexed.mono grows) shaped resolved
          advances) (fun r after applied => .inr ?_) fun _ fault => ?_
        · obtain ⟨noOp, synced, root, extended⟩ := applied
          exact ⟨noOp, synced, root, out, middle, ran, { extended with
            published := extended.published.prepend grows }⟩
        · exact fault.elim (.extension ran) (.root ran)

end ApplyRefs

end Bloar.Archive
