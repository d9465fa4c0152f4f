import Bloar.Anchored

/-!
Anchored indexing against a fixed finalized beacon chain. The feed may hide blocks at
any time and show them later; what the indexers record is the chain's history all the
same, because a parent root names the block right before it.
-/

namespace Bloar.Beacon
open Ipld Schema Archive Indexing

variable {Root Commitment Blob : Type}

structure ChainBlock (Root Commitment : Type) where
  header : Header Root
  commitments : List Commitment

/-- A finalized beacon chain: at most one block for each slot, each linked to the one before
it, with distinct roots. -/
structure Chain (Root Commitment : Type) where
  block : Nat → Option (ChainBlock Root Commitment)
  linked : ∀ slot before b c, block slot = some b → block before = some c → before < slot →
    (∀ between, before < between → between < slot → block between = none) →
    b.header.parentRoot = c.header.root
  distinct : ∀ slot other b c, block slot = some b → block other = some c →
    b.header.root = c.header.root → slot = other

variable (kzg : Kzg Commitment Blob) (chain : Chain Root Commitment)

def Chain.hashes (slot : Nat) : List VersionedHash :=
  match chain.block slot with
  | none => []
  | some b => b.commitments.map kzg.versionedHashFromCommitment

def Chain.Behind (root : Root) (start : Nat) : Prop :=
  ∃ slot b, chain.block slot = some b ∧ b.header.root = root ∧ slot < start

/-- What a feed that follows the chain answers for the slots that are ever finalized: it may
fail or hide a block, but it shows nothing else. Sources and the archive answer anything. -/
structure Reads.Follow (finalized : Nat → Prop) (reads : Reads Root Commitment Blob) : Prop where
  finality : ∀ slot, reads.finalizedSlot = .ok (some slot) → finalized slot
  header : ∀ slot h, finalized slot → reads.header slot = .ok (some h) →
    ∃ b, chain.block slot = some b ∧ b.header = h
  commitments : ∀ slot cs, finalized slot → reads.commitments slot = .ok cs →
    ∃ b, chain.block slot = some b ∧ b.commitments = cs

def Checkpoint.Truthful (cp : Checkpoint Root) : Prop := chain.Behind cp.root (cp.slot + 1)

variable {kzg chain} {root : Root} {start slot : Nat}

theorem Chain.Behind.mono {later : Nat} (behind : chain.Behind root start) (le : start ≤ later) :
    chain.Behind root later := by
  obtain ⟨slot, b, found, same, before⟩ := behind
  exact ⟨slot, b, found, same, Nat.lt_of_lt_of_le before le⟩

theorem Chain.exists_last {old : Nat} {a : ChainBlock Root Commitment}
    (isOld : chain.block old = some a) (older : old < slot) :
    ∃ last c, chain.block last = some c ∧ old ≤ last ∧ last < slot ∧
      ∀ between, last < between → between < slot → chain.block between = none := by
  have present : (chain.block old).isSome = true := by simp [isOld]
  let last := Nat.findGreatest (fun n => (chain.block n).isSome = true) (slot - 1)
  have isLast : (chain.block last).isSome = true :=
    Nat.findGreatest_spec (P := fun n => (chain.block n).isSome = true) (m := old) (by omega) present
  obtain ⟨c, found⟩ := Option.isSome_iff_exists.mp isLast
  have bound : last ≤ slot - 1 := Nat.findGreatest_le _
  refine ⟨last, c, found, Nat.le_findGreatest (by omega) present, by omega, ?_⟩
  intro between after before
  have absent := Nat.findGreatest_is_greatest after (by omega)
  simpa using absent

variable {b : ChainBlock Root Commitment}

/-- A parent root that names a block before `start` vouches for every slot from there on: no
block lies between. -/
theorem Chain.Behind.vouches (behind : chain.Behind root start) (found : chain.block slot = some b)
    (parent : b.header.parentRoot = root) {missed : Nat} (after : start ≤ missed)
    (before : missed < slot) : chain.block missed = none := by
  obtain ⟨old, a, isOld, isRoot, older⟩ := behind
  have old_lt : old < slot := by omega
  obtain ⟨last, c, isLast, old_le, last_lt, gap⟩ := chain.exists_last isOld old_lt
  -- the parent is the last block before, and roots are distinct, so it is the anchor
  have linked := chain.linked slot last b c found isLast last_lt gap
  have same : last = old := chain.distinct last old c a isLast isOld (by
    rw [← linked, parent, isRoot])
  exact gap missed (by omega) before

/-! ### Reassembly -/

section Rows

variable {rows : List RefRow}

theorem rowAt_of_below (below : ∀ r ∈ rows, r.slot < slot) : rowAt rows slot = [] := by
  have missing : rows.find? (fun r => r.slot = slot) = none := by
    rw [List.find?_eq_none]
    intro r member
    have less := below r member
    simp only [decide_eq_true_eq]
    omega
  simp [rowAt, missing]

theorem rowAt_append_of_ne {r : RefRow} (other : r.slot ≠ slot) :
    rowAt (rows ++ [r]) slot = rowAt rows slot := by
  simp only [rowAt, List.find?_append, List.find?_cons, other, decide_false, List.find?_nil,
    Option.or_none]

theorem rowAt_append_self {r : RefRow} (below : ∀ x ∈ rows, x.slot < r.slot) :
    rowAt (rows ++ [r]) r.slot = r.vhs := by
  have missing : rows.find? (fun x => x.slot = r.slot) = none := by
    rw [List.find?_eq_none]
    intro x member
    have less := below x member
    simp only [decide_eq_true_eq]
    omega
  simp [rowAt, missing]

end Rows

def Shows (kzg : Kzg Commitment Blob) (chain : Chain Root Commitment) (slot : Nat) :
    AnchoredResult Root Blob → Prop
  | .resolved (.present header vhs _) =>
    (∃ b, chain.block slot = some b ∧ b.header = header) ∧ vhs = chain.hashes kzg slot
  | _ => True

def ShowsFrom (kzg : Kzg Commitment Blob) (chain : Chain Root Commitment) :
    Nat → List (AnchoredResult Root Blob) → Prop
  | _, [] => True
  | slot, r :: rest => Shows kzg chain slot r ∧ ShowsFrom kzg chain (slot + 1) rest

structure Tallied (kzg : Kzg Commitment Blob) (chain : Chain Root Commitment) (start : Nat)
    (inRoot : Option Root) (next : Nat) (t : Tally Root Blob) : Prop where
  reached : start ≤ next
  below : ∀ r ∈ t.order, r.slot < next
  unseen : t.lastPresent = none → t.anchor = inRoot ∧ t.order = []
  seen : ∀ last, t.lastPresent = some last → start ≤ last ∧ last < next ∧
    Tells (Exactly (chain.hashes kzg)) start last t.order ∧ (∀ r ∈ t.order, r.slot ≤ last) ∧
    ∃ b, chain.block last = some b ∧ t.anchor = some b.header.root

variable {inRoot : Option Root}

variable {t : Tally Root Blob}

theorem Tallied.missed {next : Nat} (tallied : Tallied kzg chain start inRoot next t) :
    Tallied kzg chain start inRoot (next + 1) t where
  reached := Nat.le_succ_of_le tallied.reached
  below r member := Nat.lt_succ_of_lt (tallied.below r member)
  unseen := tallied.unseen
  seen last isLast := by
    obtain ⟨ge, lt, rest⟩ := tallied.seen last isLast
    exact ⟨ge, Nat.lt_succ_of_lt lt, rest⟩

theorem hashes_of_none (missing : chain.block slot = none) : chain.hashes kzg slot = [] := by
  simp [Chain.hashes, missing]

/-- Every slot of the batch before a block that passed the continuity check is decided. -/
theorem Tallied.before {next : Nat} (tallied : Tallied kzg chain start inRoot next t)
    (behind : ∀ root, inRoot = some root → chain.Behind root start)
    (found : chain.block next = some b) (genesis : t.anchor = none → next = 0)
    (parent : t.anchor ≠ none → t.anchor = some b.header.parentRoot) {slot : Nat}
    (ge : start ≤ slot) (lt : slot < next) : rowAt t.order slot = chain.hashes kzg slot := by
  rcases anchor : t.anchor with _ | root
  · have zero := genesis anchor
    omega
  · have isParent : b.header.parentRoot = root := by
      have same := parent (by simp [anchor])
      rw [anchor] at same
      exact (Option.some.inj same).symm
    rcases last : t.lastPresent with _ | l
    · -- nothing seen yet: the anchor lies before the batch
      obtain ⟨isIn, noRows⟩ := tallied.unseen last
      have before := behind root (isIn.symm.trans anchor)
      rw [noRows, hashes_of_none (before.vouches found isParent ge lt)]
      rfl
    · obtain ⟨-, -, tells, rows_le, c, isBlock, isRoot⟩ := tallied.seen l last
      by_cases old : slot ≤ l
      · exact tells slot ge old
      · have before : chain.Behind root (l + 1) := by
          rw [anchor] at isRoot
          exact ⟨l, c, isBlock, (Option.some.inj isRoot).symm, Nat.lt_succ_self l⟩
        rw [hashes_of_none (before.vouches found isParent (by omega) lt)]
        refine rowAt_of_below fun r member => ?_
        have le := rows_le r member
        omega

theorem Tallied.present {next : Nat} (tallied : Tallied kzg chain start inRoot next t)
    (behind : ∀ root, inRoot = some root → chain.Behind root start)
    (found : chain.block next = some b) (genesis : t.anchor = none → next = 0)
    (parent : t.anchor ≠ none → t.anchor = some b.header.parentRoot) {blobs : List Blob} :
    Tallied kzg chain start inRoot (next + 1)
      { anchor := some b.header.root
        lastPresent := some next
        order := if chain.hashes kzg next = [] then t.order
          else t.order ++ [{ slot := next, vhs := chain.hashes kzg next }]
        blobs } := by
  have ordered : ∀ r ∈ (if chain.hashes kzg next = [] then t.order
      else t.order ++ [{ slot := next, vhs := chain.hashes kzg next }]), r.slot ≤ next := by
    intro r member
    split at member
    · exact Nat.le_of_lt (tallied.below r member)
    · rcases List.mem_append.mp member with old | new
      · exact Nat.le_of_lt (tallied.below r old)
      · rw [List.mem_singleton.mp new]
  refine ⟨Nat.le_succ_of_le tallied.reached, fun r member => Nat.lt_succ_of_le (ordered r member),
    fun seen => (by cases seen), ?_⟩
  rintro last ⟨⟩
  refine ⟨tallied.reached, Nat.lt_succ_self _, ?_, ordered, b, found, rfl⟩
  intro slot ge le
  rcases Nat.lt_or_eq_of_le le with lt | same
  · have decided := tallied.before behind found genesis parent ge lt
    split
    · exact decided
    · rw [rowAt_append_of_ne (by simpa using Nat.ne_of_gt lt)]
      exact decided
  · subst same
    split
    · rename_i empty
      exact (rowAt_of_below tallied.below).trans empty.symm
    · exact rowAt_append_self tallied.below

section Reassembly

variable [DecidableEq Root] {inRoot : Option Root} {next : Nat} {t t' : Tally Root Blob}
variable {results : List (AnchoredResult Root Blob)}

/-- The serial walk and the concurrent one reassemble to the same batch. -/
theorem reassembleFrom_stopAtFailure :
    reassembleFrom next (stopAtFailure results) t = reassembleFrom next results t := by
  induction results generalizing next t with
  | nil => rfl
  | cons r rest ih =>
    cases r with
    | notRun | failed => rfl
    | resolved a =>
      cases a with
      | missed => exact ih
      | present header vhs blobs =>
        simp only [stopAtFailure, reassembleFrom, ih]

theorem reassembleFrom_tallied (behind : ∀ root, inRoot = some root → chain.Behind root start)
    (shows : ShowsFrom kzg chain next results) (tallied : Tallied kzg chain start inRoot next t)
    (ran : reassembleFrom next results t = .ok (some t')) :
    Tallied kzg chain start inRoot (next + results.length) t' := by
  induction results generalizing next t with
  | nil =>
    cases ran
    exact tallied
  | cons r rest ih =>
    rw [List.length_cons, Nat.add_comm rest.length, ← Nat.add_assoc]
    cases r with
    | notRun | failed => cases ran
    | resolved a =>
      cases a with
      | missed => exact ih shows.2 tallied.missed ran
      | present header vhs blobs =>
        obtain ⟨⟨⟨b, found, rfl⟩, rfl⟩, later⟩ := shows
        simp only [reassembleFrom] at ran
        split at ran
        · cases ran
        · rename_i anchored
          split at ran
          · cases ran
          · rename_i chained
            -- both guards of the loop are what the continuity argument needs
            refine ih later (tallied.present behind found (fun none => ?_) fun held => ?_) ran
            · by_contra notZero
              exact anchored ⟨none, notZero⟩
            · by_contra broken
              exact chained ⟨held, broken⟩

end Reassembly

/-! ### The contract of the anchored indexer -/

section Contract

variable [DecidableEq Root] {cfg : Config Root} {finalized : Nat → Prop}
variable {reads : Reads Root Commitment Blob} {p : Plan Root} {f : Fetched Root Blob}

variable (follow : reads.Follow chain finalized)
include follow

omit [DecidableEq Root] in
theorem resolveAnchoredSlot_shows (isFinal : finalized slot) :
    Shows kzg chain slot (resultOf kzg cfg reads slot) := by
  unfold resultOf
  rcases ran : resolveAnchoredSlot kzg cfg reads slot with e | a
  · trivial
  · cases a with
    | missed => trivial
    | present header vhs blobs =>
      unfold resolveAnchoredSlot at ran
      rcases answer : reads.header slot with e | shown
      · simp [answer, bind, Except.bind] at ran
      · rcases shown with _ | h
        · simp [answer, bind, Except.bind, pure, Except.pure] at ran
        · simp only [answer, bind, Except.bind] at ran
          obtain ⟨b, found, isHeader⟩ := follow.header slot h isFinal answer
          rcases listed : reads.commitments slot with e | cs
          · simp [listed] at ran
          · simp only [listed] at ran
            obtain ⟨c, found', isList⟩ := follow.commitments slot cs isFinal listed
            obtain rfl : b = c := Option.some.inj (found.symm.trans found')
            have hashes : chain.hashes kzg slot = cs.map kzg.versionedHashFromCommitment := by
              simp [Chain.hashes, found, isList]
            split at ran
            · rename_i empty
              cases ran
              refine ⟨⟨b, found, isHeader⟩, ?_⟩
              rw [hashes, empty]
              rfl
            · rcases served : resolveFromSources kzg slot
                (cs.map kzg.versionedHashFromCommitment)
                ((List.range cfg.sources).map fun i => reads.blobs i slot) with e | bytes
              · simp [served] at ran
              · simp only [served, pure, Except.pure] at ran
                cases ran
                exact ⟨⟨b, found, isHeader⟩, hashes.symm⟩

omit [DecidableEq Root] in
theorem showsFrom_range {count : Nat} (final : ∀ s, slot ≤ s → s < slot + count → finalized s) :
    ShowsFrom kzg chain slot ((List.range' slot count).map (resultOf kzg cfg reads)) := by
  induction count generalizing slot with
  | zero => trivial
  | succ count ih =>
    refine ⟨resolveAnchoredSlot_shows follow (final slot (Nat.le_refl _) (by omega)), ?_⟩
    exact ih fun s ge lt => final s (by omega) (by omega)

omit follow

structure Plan.Sound (chain : Chain Root Commitment) (finalized : Nat → Prop) (p : Plan Root) :
    Prop where
  behind : ∀ root, p.inRoot = some root → chain.Behind root p.start
  final : finalized p.finalized
  within : p.last ≤ p.finalized
  small : p.last ≤ maxUint64

structure Fetched.Sound (kzg : Kzg Commitment Blob) (chain : Chain Root Commitment)
    (finalized : Nat → Prop) (f : Fetched Root Blob) : Prop where
  final : finalized f.finalized
  decided : ∀ last, f.reached = some last → last ≤ f.last ∧ f.last < maxUint64 ∧
    Tells (Exactly (chain.hashes kzg)) f.start last f.rows ∧
    ∃ root, f.outRoot = some root ∧ chain.Behind root (last + 1)

theorem reassembleAnchored_sound (sound : p.Sound chain finalized)
    {results : List (AnchoredResult Root Blob)} (short : p.last < maxUint64)
    (length : results.length = p.last + 1 - p.start) (shows : ShowsFrom kzg chain p.start results)
    (ran : reassembleAnchored p results = .ok f) : f.start = p.start ∧ f.Sound kzg chain finalized := by
  have begin : Tallied kzg chain p.start p.inRoot p.start
      { anchor := p.inRoot, lastPresent := none, order := [], blobs := ([] : List Blob) } :=
    ⟨Nat.le_refl _, by simp, fun _ => ⟨rfl, rfl⟩, by simp⟩
  unfold reassembleAnchored at ran
  rcases folded : reassembleFrom p.start results
    { anchor := p.inRoot, lastPresent := none, order := [], blobs := [] } with e | outcome
  · simp [folded, bind, Except.bind] at ran
  · simp only [folded, bind, Except.bind, pure, Except.pure] at ran
    rcases outcome with _ | t
    · cases ran
      exact ⟨rfl, sound.final, by simp⟩
    · have tallied := reassembleFrom_tallied sound.behind shows begin folded
      rcases last : t.lastPresent with _ | l
      · simp only [last] at ran
        cases ran
        exact ⟨rfl, sound.final, by simp⟩
      · simp only [last] at ran
        cases ran
        refine ⟨rfl, sound.final, ?_⟩
        rintro _ ⟨⟩
        obtain ⟨ge, lt, tells, -, b, found, isRoot⟩ := tallied.seen l last
        have inside : l ≤ p.last := by omega
        exact ⟨inside, short, tells, b.header.root, isRoot, l, b, found, rfl, Nat.lt_succ_self l⟩

include follow

variable (downward : ∀ s t, s ≤ t → finalized t → finalized s)
include downward

theorem walkAnchored_sound (sound : p.Sound chain finalized)
    (ran : walkAnchored kzg cfg reads p = .ok f) :
    f.start = p.start ∧ f.Sound kzg chain finalized := by
  have shows : ShowsFrom kzg chain p.start
      ((List.range' p.start (p.last + 1 - p.start)).map (resultOf kzg cfg reads)) := by
    refine showsFrom_range follow fun s ge lt => downward s p.finalized ?_ sound.final
    have within := sound.within
    omega
  have length : ((List.range' p.start (p.last + 1 - p.start)).map
      (resultOf kzg cfg reads)).length = p.last + 1 - p.start := by simp
  unfold walkAnchored at ran
  split at ran
  · cases ran
  · rename_i notMax
    have short : p.last < maxUint64 := Nat.lt_of_le_of_ne sound.small notMax
    dsimp only at ran
    split at ran
    · have same : ∀ results, reassembleAnchored p (stopAtFailure results) =
          (reassembleAnchored p results : Except String (Fetched Root Blob)) := by
        intro results
        simp only [reassembleAnchored, reassembleFrom_stopAtFailure]
      rw [same] at ran
      exact reassembleAnchored_sound sound short length shows ran
    · exact reassembleAnchored_sound sound short length shows ran

theorem seedWalk_behind {checkpoint : Option (Checkpoint Root)}
    (truthful : ∀ cp, checkpoint = some cp → cp.Truthful chain) {bound : Nat}
    (final : finalized slot) {root : Root}
    (ran : seedWalk checkpoint reads.header bound slot = .ok (some root)) :
    chain.Behind root (slot + 1) := by
  induction bound generalizing slot with
  | zero => cases ran
  | succ bound ih =>
    unfold seedWalk at ran
    rcases answer : reads.header slot with e | shown
    · simp [answer, bind, Except.bind] at ran
    · simp only [answer, bind, Except.bind] at ran
      rcases at_checkpoint : checkpoint.filter fun cp => slot == cp.slot with _ | cp
      · rcases shown with _ | h
        · simp only [at_checkpoint] at ran
          split at ran
          · cases ran
          · rename_i positive
            have below := ih (downward (slot - 1) slot (by omega) final) ran
            exact below.mono (by omega)
        · simp only [at_checkpoint] at ran
          cases ran
          obtain ⟨b, found, rfl⟩ := follow.header slot h final answer
          exact ⟨slot, b, found, rfl, Nat.lt_succ_self slot⟩
      · obtain ⟨isCheckpoint, here⟩ := Option.filter_eq_some_iff.mp at_checkpoint
        have known := truthful cp isCheckpoint
        have same : slot = cp.slot := by simpa using here
        rw [Checkpoint.Truthful, ← same] at known
        rcases shown with _ | h
        · simp only [at_checkpoint] at ran
          cases ran
          exact known
        · simp only [at_checkpoint] at ran
          split at ran
          · cases ran
            exact known
          · cases ran

omit follow

omit downward

def Seed.Sound (chain : Chain Root Commitment) (seed : Option (Seed Root)) : Prop :=
  ∀ s root, seed = some s → s.lastRoot = some root → chain.Behind root s.expectedResume

omit [DecidableEq Root] in
theorem Seed.sound_none : Seed.Sound chain none := by
  rintro s root ⟨⟩

variable {seed : Option (Seed Root)}

include downward in
include follow in
theorem seedContinuity_sound
    (truthful : ∀ cp, cfg.continuityCheckpoint = some cp → cp.Truthful chain)
    (sound : Seed.Sound chain seed) (final : finalized start) :
    Seed.Sound chain (seedContinuity cfg reads.header seed start).1 ∧
      ((seedContinuity cfg reads.header seed start).2 = .ok true → ∀ root,
        (seedContinuity cfg reads.header seed start).1.bind Seed.lastRoot = some root →
        chain.Behind root start) := by
  rcases kept : seed.filter fun s => s.expectedResume == start with _ | s
  · rcases early : cfg.continuityCheckpoint.filter fun cp => decide (start ≤ cp.slot) with _ | cp
    · by_cases zero : start = 0
      · simp only [seedContinuity, kept, early, if_pos zero]
        refine ⟨?_, ?_⟩
        · rintro s root ⟨⟩ held
          cases held
        · rintro - root held
          cases held
      · rcases walked : seedWalk cfg.continuityCheckpoint reads.header seedWalkBound (start - 1)
          with e | outcome
        · simp only [seedContinuity, kept, early, if_neg zero, walked]
          exact ⟨Seed.sound_none, fun ready => by cases ready⟩
        · rcases outcome with _ | root
          · simp only [seedContinuity, kept, early, if_neg zero, walked]
            exact ⟨Seed.sound_none, fun ready => by cases ready⟩
          · have behind := seedWalk_behind follow downward truthful
              (downward (start - 1) start (by omega) final) walked
            have back : start - 1 + 1 = start := by omega
            rw [back] at behind
            simp only [seedContinuity, kept, early, if_neg zero, walked]
            refine ⟨?_, ?_⟩
            · rintro s r ⟨⟩ held
              cases held
              exact behind
            · rintro - r held
              cases held
              exact behind
    · simp only [seedContinuity, kept, early]
      exact ⟨Seed.sound_none, fun ready => by cases ready⟩
  · obtain ⟨isSeed, here⟩ := Option.filter_eq_some_iff.mp kept
    have same : s.expectedResume = start := by simpa using here
    simp only [seedContinuity, kept]
    refine ⟨?_, ?_⟩
    · rintro t root ⟨⟩ held
      exact sound s root isSeed held
    · rintro - root held
      rw [← same]
      exact sound s root isSeed held

theorem uint64_le (n : Nat) : uint64 n ≤ n := Nat.mod_le _ _

theorem uint64_succ {n : Nat} (small : n < maxUint64) : uint64 (n + 1) = n + 1 := by
  unfold uint64
  unfold maxUint64 at small
  exact Nat.mod_eq_of_lt (by omega)

theorem batchEnd_le (batchSize start : Nat) : batchEnd batchSize start ≤ maxUint64 := by
  have lt : batchEnd batchSize start < 2 ^ 64 := Nat.mod_lt _ (by decide)
  unfold maxUint64
  omega

include downward in
include follow in
theorem plan_sound (truthful : ∀ cp, cfg.continuityCheckpoint = some cp → cp.Truthful chain)
    (sound : Seed.Sound chain seed) (syncedTo : Option Nat) :
    Seed.Sound chain (plan cfg seed syncedTo reads).1 ∧
      ∀ p, (plan cfg seed syncedTo reads).2 = .ok (some p) →
        p.start = resume cfg.originSlot syncedTo ∧ p.Sound chain finalized := by
  unfold plan
  rcases finality : reads.finalizedSlot with e | answer
  · exact ⟨sound, fun p ready => by cases ready⟩
  · rcases answer with _ | final
    · exact ⟨sound, fun p ready => by cases ready⟩
    · dsimp only
      split
      · exact ⟨sound, fun p ready => by cases ready⟩
      · rename_i reaches
        have isFinal := follow.finality final finality
        have startFinal : finalized (resume cfg.originSlot syncedTo) :=
          downward _ final (Nat.not_lt.mp reaches) isFinal
        obtain ⟨kept, behind⟩ := seedContinuity_sound follow downward truthful sound startFinal
        rcases seeded : seedContinuity cfg reads.header seed (resume cfg.originSlot syncedTo) with
          ⟨after, outcome⟩
        rw [seeded] at kept behind
        rcases outcome with e | ready
        · exact ⟨kept, fun p ready => by cases ready⟩
        · cases ready with
          | false => exact ⟨kept, fun p ready => by cases ready⟩
          | true =>
            refine ⟨kept, ?_⟩
            rintro p ⟨⟩
            exact ⟨rfl, behind rfl, isFinal, Nat.min_le_left _ _,
              Nat.le_trans (Nat.min_le_right _ _) (batchEnd_le _ _)⟩

omit [DecidableEq Root] in
theorem maybePrefetch_sound (sound : f.Sound kzg chain finalized)
    (next : maybePrefetch cfg f = some p) :
    ∃ last, f.reached = some last ∧ p.start = last + 1 ∧ p.Sound chain finalized := by
  unfold maybePrefetch at next
  split at next
  · cases next
  · rename_i full
    have reached : f.reached = some f.last := by simpa using full
    obtain ⟨-, short, -, root, isRoot, behind⟩ := sound.decided f.last reached
    dsimp only at next
    split at next
    · cases next
    · rename_i within
      cases next
      refine ⟨f.last, reached, uint64_succ short, ?_, sound.final, Nat.not_lt.mp within,
        batchEnd_le _ _⟩
      intro r held
      rw [isRoot] at held
      cases held
      rw [uint64_succ short]
      exact behind

omit [DecidableEq Root] in
theorem preparePost_batch {b : Batch} (ran : preparePost cfg f reads = .ok (some b)) :
    f.reached = some b.last ∧ b.start = f.start ∧ b.rows = f.rows := by
  unfold preparePost at ran
  rcases reached : f.reached with _ | last
  · simp only [reached] at ran
    cases ran
  · simp only [reached, bind, Except.bind] at ran
    rcases stored : put cfg.maxPutBlobs reads.putBlobs f.blobs with e | hashes
    · simp [stored] at ran
    · simp only [stored] at ran
      rcases verified : verifyAnchored f.rows hashes with e | u
      · simp [verified] at ran
      · simp only [verified, pure, Except.pure] at ran
        cases ran
        exact ⟨rfl, rfl, rfl⟩

theorem resume_le_resumeAt (originSlot : Nat) (syncedTo : Option Nat) :
    resume originSlot syncedTo ≤ resumeAt originSlot syncedTo := by
  cases syncedTo with
  | none => exact Nat.le_refl _
  | some s => exact uint64_le _

theorem plan_shape {syncedTo : Option Nat} {p : Plan Root}
    (planned : (plan cfg seed syncedTo reads).2 = .ok (some p)) :
    p.start = resume cfg.originSlot syncedTo ∧ p.last ≤ maxUint64 := by
  unfold plan at planned
  split at planned
  · cases planned
  · cases planned
  · dsimp only at planned
    split at planned
    · cases planned
    · split at planned
      · cases planned
      · cases planned
      · cases planned
        exact ⟨rfl, Nat.le_trans (Nat.min_le_right _ _) (batchEnd_le _ _)⟩

def anchoredContract (kzg : Kzg Commitment Blob) (chain : Chain Root Commitment)
    (downward : ∀ s t, s ≤ t → finalized t → finalized s)
    (truthful : ∀ cp, cfg.continuityCheckpoint = some cp → cp.Truthful chain) :
    Contract (anchored kzg cfg) cfg.originSlot (fun _ => Exactly (chain.hashes kzg)) (fun _ => True)
      (fun _ reads => reads.Follow chain finalized) where
  Memory := Seed.Sound chain
  Plan p start := p.start = start ∧ p.Sound chain finalized
  Fetched f start := f.start = start ∧ f.Sound kzg chain finalized
  fresh := Seed.sound_none
  plan seed syncedTo reads follow sound := by
    obtain ⟨kept, planned⟩ := plan_sound follow downward truthful sound syncedTo
    refine ⟨kept, fun p ready => ?_⟩
    have isPlan : (plan cfg seed syncedTo reads).2 = .ok (some p) := ok_of_join ready
    obtain ⟨isStart, good⟩ := planned p isPlan
    refine ⟨p.start, ?_, rfl, good⟩
    rw [isStart]
    cases syncedTo with
    | none => exact Nat.le_refl _
    | some s => exact uint64_le _
  fetch p start reads f follow good fetched := by
    obtain ⟨isStart, sound⟩ := good
    have ran : walkAnchored kzg cfg reads p = .ok f := ok_of_toOption fetched
    obtain ⟨same, kept⟩ := walkAnchored_sound follow downward sound ran
    exact ⟨same.trans isStart, kept⟩
  batch f start reads b follow good isBatch := by
    obtain ⟨isStart, sound⟩ := good
    have ran : preparePost cfg f reads = .ok (some b) := ok_of_join isBatch
    obtain ⟨reached, same, rows⟩ := preparePost_batch ran
    obtain ⟨-, -, tells, -⟩ := sound.decided b.last reached
    refine ⟨same.trans isStart, reached, ?_, fun _ => trivial⟩
    rw [same, rows]
    exact tells
  next f start p good next := by
    obtain ⟨last, reached, isNext, sound⟩ := maybePrefetch_sound good.2 next
    exact ⟨last, reached, isNext, sound⟩
  settle seed f start last kept good reached := by
    obtain ⟨inside, short, -, root, isRoot, behind⟩ := good.2.decided last reached
    rintro s r carried held
    obtain ⟨old, -, rfl⟩ := Option.map_eq_some_iff.mp carried
    have same : root = r := Option.some.inj (isRoot.symm.trans held)
    have reachedLast : f.reached = some last := reached
    simp only [reachedLast, Option.getD_some]
    rw [uint64_succ (by omega), ← same]
    exact behind

end Contract

/-! ### Any number of anchored indexers -/

section Runs

variable {ι : Type} [DecidableEq ι] [DecidableEq Root]

def Serving (kzg : Kzg Commitment Blob) (chain : Chain Root Commitment) (finalized : Nat → Prop)
    (cfgs : ι → Config Root) : Event (fun i => anchored kzg (cfgs i)) → Prop
  | .plan _ reads | .fetch _ reads | .fetchAhead _ reads | .post _ reads =>
    Reads.Follow chain finalized reads
  | .truncate _ => False
  | _ => True

/-- Whatever the feed hides and whenever, whatever is lost, repeated or restarted, every
covered slot has exactly the hashes of the chain's block there. -/
theorem anchored_records_chain (kzg : Kzg Commitment Blob) (chain : Chain Root Commitment)
    (finalized : Nat → Prop) (downward : ∀ s t, s ≤ t → finalized t → finalized s)
    (originSlot : Nat) (cfgs : ι → Config Root) (origin : ∀ i, (cfgs i).originSlot = originSlot)
    (truthful : ∀ i cp, (cfgs i).continuityCheckpoint = some cp → cp.Truthful chain)
    (tip : Option Cid) (s : System fun i => anchored kzg (cfgs i))
    (reached : System.Reaches originSlot (fun _ e => Serving kzg chain finalized cfgs e)
      (System.fresh _ tip) s) (slot : Nat) (covers : s.log.Covers originSlot slot) :
    s.log.hashes slot = chain.hashes kzg slot := by
  let honest : (i : ι) → Errand → (anchored kzg (cfgs i)).Reads → Prop :=
    fun _ _ reads => Reads.Follow chain finalized reads
  have contracts : ∀ i, Contract (anchored kzg (cfgs i)) originSlot (fun _ => Exactly (chain.hashes kzg))
      (fun _ => True) (honest i) := fun i => origin i ▸ anchoredContract kzg chain downward (truthful i)
  have fair : System.Reaches originSlot
      (System.Fair originSlot (fun _ => Exactly (chain.hashes kzg)) honest) (System.fresh _ tip) s := by
    refine reached.mono fun state e serving => ?_
    cases e with
    | truncate slot => exact serving.elim
    | setManifest tip => exact fun _ _ => id
    | _ => exact serving
  exact (fair.sound (System.sound_fresh contracts tip)).records slot covers

end Runs

section Sample

def sampleHashOf (n : Nat) : VersionedHash := ⟨List.replicate 32 (UInt8.ofNat n), rfl⟩

def sampleKzg : Kzg Nat Nat := ⟨sampleHashOf, fun n => .ok (sampleHashOf n)⟩

def sampleBlock : Nat → Option (ChainBlock Nat Nat)
  | 0 => some ⟨⟨10, 0⟩, [7]⟩
  | 2 => some ⟨⟨12, 10⟩, []⟩
  | _ => none

theorem sampleBlock_some {slot : Nat} {b : ChainBlock Nat Nat} (found : sampleBlock slot = some b) :
    slot = 0 ∧ b = ⟨⟨10, 0⟩, [7]⟩ ∨ slot = 2 ∧ b = ⟨⟨12, 10⟩, []⟩ := by
  unfold sampleBlock at found
  split at found
  · cases found
    exact .inl ⟨rfl, rfl⟩
  · cases found
    exact .inr ⟨rfl, rfl⟩
  · cases found

def sampleChain : Chain Nat Nat where
  block := sampleBlock
  linked slot before b c found isBefore lt gap := by
    rcases sampleBlock_some found with ⟨rfl, rfl⟩ | ⟨rfl, rfl⟩
    · omega
    · rcases sampleBlock_some isBefore with ⟨rfl, rfl⟩ | ⟨rfl, rfl⟩
      · rfl
      · omega
  distinct slot other b c found isOther same := by
    rcases sampleBlock_some found with ⟨rfl, rfl⟩ | ⟨rfl, rfl⟩ <;>
      rcases sampleBlock_some isOther with ⟨rfl, rfl⟩ | ⟨rfl, rfl⟩
    · rfl
    · cases same
    · cases same
    · rfl

def sampleConfig : Config Nat :=
  { originSlot := 0, batchSize := 10, fetchConcurrency := 1, maxPutBlobs := 64, sources := 1
    continuityCheckpoint := none }

def sampleReads : Reads Nat Nat Nat where
  finalizedSlot := .ok (some 2)
  header slot := .ok ((sampleBlock slot).map ChainBlock.header)
  commitments slot :=
    match sampleBlock slot with
    | none => .error "404"
    | some b => .ok b.commitments
  blobs _ _ := .found [7]
  putBlobs _ := .ok [sampleHashOf 7]

theorem sampleReads_follow : sampleReads.Follow sampleChain (fun slot => slot ≤ 2) where
  finality slot isFinal := by
    cases isFinal
    exact Nat.le_refl 2
  header slot h _ shown := by
    obtain ⟨b, found, isHeader⟩ := Option.map_eq_some_iff.mp (Except.ok.inj shown)
    exact ⟨b, found, isHeader⟩
  commitments slot cs _ listed := by
    unfold sampleReads at listed
    dsimp only at listed
    split at listed
    · cases listed
    · rename_i b found
      cases listed
      exact ⟨b, found, rfl⟩

/-- One pass: the missed slot 1 is recorded because the block of slot 2 vouches for it. -/
def sampleEvents : List (Event fun _ : Unit => anchored sampleKzg sampleConfig) :=
  [.plan () sampleReads, .fetch () sampleReads, .post () sampleReads,
    .deliver 0 { start := 0, last := 2, rows := [⟨0, [sampleHashOf 7]⟩], expectedManifest := none },
    .acknowledge ()]

theorem anchored_records_chain_sample :
    ∃ s, System.run 0 sampleEvents (System.fresh _ none) = some s ∧ s.log.synced = some 2 ∧
      ∀ slot, s.log.Covers 0 slot → s.log.hashes slot = sampleChain.hashes sampleKzg slot := by
  obtain ⟨s, ran, synced⟩ : ∃ s, System.run 0 sampleEvents (System.fresh _ none) = some s ∧
      s.log.synced = some 2 := ⟨_, rfl, rfl⟩
  refine ⟨s, ran, synced, fun slot covers => ?_⟩
  refine anchored_records_chain sampleKzg sampleChain (fun slot => slot ≤ 2)
    (fun s t le final => Nat.le_trans le final) 0 (fun _ => sampleConfig) (fun _ => rfl)
    (fun _ cp held => by cases held) none s (.of_run (fun e member _ => ?_) ran) slot covers
  simp only [sampleEvents, List.mem_cons, List.not_mem_nil, or_false] at member
  rcases member with rfl | rfl | rfl | rfl | rfl
  · exact sampleReads_follow
  · exact sampleReads_follow
  · exact sampleReads_follow
  · trivial
  · trivial

end Sample

end Bloar.Beacon
