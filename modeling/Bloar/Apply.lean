import Bloar.Canonical

/-!
`ApplyRefs` (`archive/apply.go`, `archive/generation.go`): shape validation,
idempotent replay, resolution of versioned hashes, the loop over windows that
fills and seals segments, and publication.
-/

namespace Bloar.Archive
open Ipld Schema Arith Fallible

variable {σ : Type}

structure RefRow where
  slot : Nat
  vhs : List VersionedHash
  deriving DecidableEq, Repr

structure ApplyResult where
  syncedTo : Nat
  root : Link
  noOp : Bool
  index : IndexApplyStats
  deriving DecidableEq, Repr

/-! ### Shape -/

def conflictUnless (holds : Prop) [Decidable holds] (reason : String) : Except Error Unit :=
  if holds then .ok () else .error (.conflict reason)

/-- The loop of `validateShape` at row `i`, after a row at slot `previous`. -/
def validateShapeFrom (originSlot newSyncedTo : Nat) :
    Nat → Option Nat → List RefRow → Except Error Unit
  | _, _, [] => .ok ()
  | i, previous, r :: rest => do
      let slot := r.slot
      let last := previous.getD 0
      conflictUnless (∀ p ∈ previous, ¬ r.slot ≤ p)
        s!"rows are not strictly ascending: row {i} (slot {slot}) follows slot {last}"
      conflictUnless (¬ r.slot < originSlot)
        s!"row {i} (slot {slot}) precedes origin_slot {originSlot}"
      conflictUnless (¬ r.slot > newSyncedTo) s!"row {i} (slot {slot}) is past synced_to {newSyncedTo}"
      conflictUnless (¬ r.vhs.length = 0)
        s!"row {i} (slot {slot}) has no versioned hashes; a slot with no blobs has no row"
      let count := r.vhs.length
      conflictUnless (¬ r.vhs.length > maxBlobsPerSlotCeiling)
        (s!"row {i} (slot {slot}) has {count} versioned hashes, " ++
          s!"more than the {maxBlobsPerSlotCeiling}-blob ceiling per slot")
      validateShapeFrom originSlot newSyncedTo (i + 1) (some r.slot) rest

def validateShape (st : State) (rows : List RefRow) (newSyncedTo : Nat) : Except Error Unit := do
  let originSlot := st.params.originSlot
  conflictUnless (¬ newSyncedTo < originSlot)
    s!"synced_to {newSyncedTo} precedes origin_slot {originSlot}"
  validateShapeFrom originSlot newSyncedTo 0 none rows

def lastSlot (rows : List RefRow) : Nat :=
  match rows.getLast? with
  | none => 0
  | some r => r.slot

def overlap (syncedTo newSyncedTo : Nat) : Nat → List RefRow → Except Error Unit
  | _, [] => .ok ()
  | i, r :: rest => do
      let slot := r.slot
      conflictUnless (¬ r.slot ≤ syncedTo)
        (s!"row {i} (slot {slot}) is at or before synced_to {syncedTo} while the batch advances " ++
          s!"coverage to {newSyncedTo}; a batch may replay or extend, not both")
      overlap syncedTo newSyncedTo (i + 1) rest

section Engine
variable (ipld : Codec) (cfg : Config σ)

/-! ### Replay -/

def replayEntries (slot : Nat) : Nat → List VersionedHash → List RefEntry → Except Error Unit
  | i, vh :: vhs, e :: entries => do
      conflictUnless (e.vh = vh) s!"replayed row for slot {slot} differs at entry {i}"
      replayEntries slot (i + 1) vhs entries
  | _, _, _ => .ok ()

def verifyReplay (st : State) : List RefRow → Engine σ Unit
  | [] => pure ()
  | r :: rest => do
      let slot := r.slot
      let (res, stored) ← lookupRow ipld cfg st r.slot
      match res.status, stored with
      | .found, some stored => do
          let count := r.vhs.length
          let found := stored.entries.length
          ofExcept (conflictUnless (stored.entries.length = r.vhs.length)
            s!"replayed row for slot {slot} has {count} versioned hashes, the stored row has {found}")
          ofExcept (replayEntries r.slot 0 r.vhs stored.entries)
          verifyReplay st rest
      | _, _ =>
        fail (.conflict (s!"replayed row for slot {slot} contradicts the head: " ++
          "that slot is covered and carries no blobs"))

/-! ### Resolution -/

def resolveBlob (resolve : VersionedHash → σ → Except String (Link × Bool) × σ)
    (vh : VersionedHash) : Engine σ (Link × Bool) := fun w =>
  match resolve vh w.shared with
  | (.ok answer, s) => (.ok answer, { w with shared := s })
  | (.error text, s) => (.error (.resolving vh text), { w with shared := s })

/-- Reads a blob's block: an absent block is an answer, any other failure is not. -/
def probeBlob (c : Cid) : Engine σ Bool := fun w =>
  match cfg.get c w.shared with
  | (.ok _, s) => (.ok true, { w with shared := s })
  | (.error .notFound, s) => (.ok false, { w with shared := s })
  | (.error e, s) =>
    (.error (.within "archive: validating blob block" (.reading c e)), { w with shared := s })

def resolveVHs (resolve : VersionedHash → σ → Except String (Link × Bool) × σ) :
    List VersionedHash → Engine σ (List VersionedHash × List RefEntry)
  | [] => pure ([], [])
  | vh :: rest => do
      match ← resolveBlob resolve vh with
      | (some c, true) => do
          let present ← probeBlob cfg c
          let (missing, entries) ← resolveVHs resolve rest
          if present then pure (missing, { vh, blob := some c } :: entries)
          else pure (vh :: missing, entries)
      | _ => do
          let (missing, entries) ← resolveVHs resolve rest
          pure (vh :: missing, entries)

def resolveRowsFrom (resolve : VersionedHash → σ → Except String (Link × Bool) × σ) :
    List RefRow → Engine σ (List VersionedHash × List Row)
  | [] => pure ([], [])
  | r :: rest => do
      let (missing, entries) ← resolveVHs cfg resolve r.vhs
      let (more, rows) ← resolveRowsFrom resolve rest
      pure (missing ++ more, { slot := r.slot, entries } :: rows)

def resolveRows (rows : List RefRow) : Engine σ (List Row) :=
  match cfg.resolver with
  | none => fail (.plain "archive: Config.Resolver is nil; this head cannot apply refs")
  | some resolve => do
      let (missing, out) ← resolveRowsFrom cfg resolve rows
      if missing = [] then pure out
      else fail (.missingBlobs "batch references blobs the archive does not hold" missing)

/-! ### Segments and windows -/

/-- The byte length of a committed segment: noted by its encode, or read back. -/
def committedBytes (dirty : Bool) (id : Cid) : Engine σ Nat :=
  if dirty then do
    let w ← Fallible.get
    pure w.segmentEncodedBytes
  else do
    let block ← within "archive: reading committed segment for exact size" (getBlock cfg id)
    pure (size block)

def commitSegment (segment : Pointer Segment) (state : SegmentState) : Engine σ Cid := do
  let (value, segment) ← segment.load cfg (segs ipld)
  modify fun w => { w with segmentEncodeState := some state, segmentEncodedBytes := 0 }
  let (id, _) ← ensuring (fun w => { w with segmentEncodeState := none })
    (segment.commit cfg (segs ipld))
  let encodedBytes ← committedBytes cfg segment.dirty id
  modify fun w => { w with applyStats := w.applyStats.map fun stats =>
    { stats with segments := stats.segments ++
      [{ state, encodedBytes, rows := value.rows.length, refs := countRefs value.rows }] } }
  pure id

def sub64 (a b : Nat) : Nat := u64 (a + (2 ^ 64 - b))

def sealWindow (st : State) (opened : Pointer Segment) (w : Nat) :
    Engine σ (State × Pointer Segment) := do
  let (seg, opened) ← within s!"archive: reading segment for window {w}"
    (opened.load cfg (segs ipld))
  let sealed ←
    (if seg.rows.length > 0 then do
      let c ← within s!"archive: sealing segment for window {w}"
        (commitSegment ipld cfg opened .sealed)
      pure (some c)
    else pure none)
  let (dir, dirDepth) ← dirAppend ipld cfg st.dir st.dirDepth st.params.fanoutBits
    (sub64 w st.dirBase) sealed
  pure ({ st with dir, dirDepth },
    newNode { slot0 := windowStart (u64 (w + 1)) st.params.segBits, rows := [] })

def sealIfFull (newSyncedTo : Nat) (st : State) (opened : Pointer Segment) (w : Nat) :
    Engine σ (State × Pointer Segment) :=
  if windowEnd w st.params.segBits ≤ newSyncedTo then sealWindow ipld cfg st opened w
  else pure (st, opened)

def fillWindow (opened : Pointer Segment) (w : Nat) (batch : List Row) :
    Engine σ (Pointer Segment) :=
  if batch.length > 0 then
    within s!"archive: opening segment for window {w}"
      (opened.mutate cfg (segs ipld) fun seg => { seg with rows := seg.rows ++ batch })
  else pure opened

structure Loop where
  next : State
  opened : Pointer Segment
  left : List Row

def applyWindow (newSyncedTo w : Nat) (loop : Loop) : Engine σ Loop := do
  let k := loop.next.params.segBits
  let opened ← fillWindow ipld cfg loop.opened w (loop.left.takeWhile fun r => ord r.slot k = w)
  let (next, opened) ← sealIfFull ipld cfg newSyncedTo loop.next opened w
  pure { next, opened, left := loop.left.dropWhile fun r => ord r.slot k = w }

/-- The loop over windows from `w` to `w1`, run for at most `rounds` windows. -/
def applyWindows (newSyncedTo w1 rounds w : Nat) (loop : Loop) : Engine σ Loop :=
  match rounds with
  | 0 => if w ≤ w1 then fail .diverges else pure loop
  | rounds + 1 =>
    if w ≤ w1 then do
      let loop ← applyWindow ipld cfg newSyncedTo w loop
      applyWindows newSyncedTo w1 rounds (u64 (w + 1)) loop
    else pure loop

/-- Rounds enough for the loop: each turn of the counter leaves a deeper directory. -/
def windowRounds (w0 w1 : Nat) : Nat :=
  if w1 < maxUint64 then w1 + 1 - w0 else 66 * 2 ^ 64

def startSegment (st : State) (w0 : Nat) : Engine σ (Pointer Segment) :=
  if st.covered then do
    let openW ← openOrd ipld cfg st
    guard (openW = w0) (.plain (s!"archive: internal: open segment is window {openW} " ++
      s!"but coverage resumes in window {w0}"))
    pure (pointer st.openCid)
  else pure (newNode { slot0 := windowStart w0 st.params.segBits, rows := [] })

/-- `ApplyRefs` from the resolved rows on, up to the state to publish. -/
def extendIndex (st : State) (resolved : List Row) (newSyncedTo : Nat) : Engine σ State := do
  let k := st.params.segBits
  let startSlot := if st.covered then u64 (st.syncedTo + 1) else st.params.originSlot
  let w0 := ord startSlot k
  let w1 := ord newSyncedTo k
  let opened ← startSegment ipld cfg st w0
  let loop ← applyWindows ipld cfg newSyncedTo w1 (windowRounds w0 w1) w0
    { next := { st with root := none }, opened, left := resolved }
  let rest := loop.left.length
  guard (loop.left.length = 0)
    (.plain s!"archive: internal: {rest} rows fell outside windows [{w0}, {w1}]")
  let openCid ← within "archive: writing open segment" (commitSegment ipld cfg loop.opened .opened)
  pure { loop.next with openCid := some openCid, syncedTo := newSyncedTo, covered := true }

def applyResolved (st : State) (resolved : List Row) (newSyncedTo : Nat) : Engine σ ApplyResult :=
  ensuring (fun w => { w with applyStats := none }) do
    modify fun w => { w with applyStats := some ⟨0, []⟩ }
    let next ← extendIndex ipld cfg st resolved newSyncedTo
    let next ← publish ipld cfg next
    let stats := ((← Fallible.get).applyStats).getD ⟨0, []⟩
    modify fun w => { w with lastApplyStats := stats }
    pure { syncedTo := next.syncedTo, root := next.root, noOp := false, index := stats }

def applyRefs (rows : List RefRow) (newSyncedTo : Nat) : Engine σ ApplyResult := do
  let st := (← Fallible.get).cur
  ofExcept (validateShape st rows newSyncedTo)
  if st.covered = true ∧ newSyncedTo ≤ st.syncedTo ∧ lastSlot rows ≤ st.syncedTo then do
    verifyReplay ipld cfg st rows
    pure { syncedTo := st.syncedTo, root := st.root, noOp := true, index := ⟨0, []⟩ }
  else do
    ofExcept (if st.covered then overlap st.syncedTo newSyncedTo 0 rows else .ok ())
    let resolved ← resolveRows cfg rows
    applyResolved ipld cfg st resolved newSyncedTo

def buildGeneration (params : Params) (rows : List RefRow) (syncedTo : Nat) : Engine σ Unit := do
  ofExcept (validateShape (.empty params) rows syncedTo)
  new ipld cfg params
  let _ ← applyRefs ipld cfg rows syncedTo

end Engine

end Bloar.Archive
