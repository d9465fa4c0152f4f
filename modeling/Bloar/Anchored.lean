import Bloar.Writers

/-!
The beacon indexer in anchored mode (`index/beacon/beacon.go`). A trusted block feed says
which slots have a block and what blobs it commits to; untrusted sources supply the bytes.
A 404 of the feed may be a block that it has not backfilled yet, so a missing slot is
recorded only once a later block's parent root has vouched for it.
-/

namespace Bloar.Beacon
open Schema Archive Indexing
/-! ### The outside -/

/-- The hashing of `ingest`, which lies outside the repository's own code. -/
structure Kzg (Commitment Blob : Type) where
  versionedHashFromCommitment : Commitment → VersionedHash
  versionedHash : Blob → Except String VersionedHash

inductive SourceAnswer (Blob : Type) where
  | failed (reason : String)
  | found (blobs : List Blob)
  | absent
  | notYetCovered
  | unknown

structure Header (Root : Type) where
  root : Root
  parentRoot : Root
  deriving DecidableEq

/-- Everything one step of the indexer may read, apart from the head's `synced_to`. -/
structure Reads (Root Commitment Blob : Type) where
  finalizedSlot : Except String (Option Nat)
  header : Nat → Except String (Option (Header Root))
  commitments : Nat → Except String (List Commitment)
  blobs : Nat → Nat → SourceAnswer Blob
  putBlobs : Nat → Except String (List VersionedHash)

structure Checkpoint (Root : Type) where
  slot : Nat
  root : Root

structure Config (Root : Type) where
  originSlot : Nat
  batchSize : Nat
  fetchConcurrency : Nat
  maxPutBlobs : Nat
  sources : Nat
  continuityCheckpoint : Option (Checkpoint Root)

def uint64 (n : Nat) : Nat := n % 2 ^ 64

def maxUint64 : Nat := 2 ^ 64 - 1

def seedWalkBound : Nat := 1024

variable {Root Commitment Blob : Type} [DecidableEq Root]

/-! ### The continuity anchor -/

/-- What a seeded indexer holds: the root that the next block must chain to, none before
the first block, and the slot that this root was found for. -/
structure Seed (Root : Type) where
  lastRoot : Option Root
  expectedResume : Nat

/-- The walk of `seedContinuity`, back from `slot`: the anchor, or `none` to wait. -/
def seedWalk (checkpoint : Option (Checkpoint Root))
    (header : Nat → Except String (Option (Header Root))) : Nat → Nat → Except String (Option Root)
  | 0, _ => .error "beacon: could not seed the continuity anchor: no present slot in the headers before"
  | bound + 1, slot => do
      let answer ← header slot
      match checkpoint.filter fun cp => slot == cp.slot, answer with
      | some cp, some h =>
        if h.root = cp.root then pure (some cp.root)
        else .error s!"beacon: continuity_checkpoint mismatch at slot {slot}"
      | some cp, none => pure (some cp.root)
      | none, some h => pure (some h.root)
      | none, none => if slot = 0 then pure none else seedWalk checkpoint header bound (slot - 1)

/-- `seedContinuity`: the memory it leaves, and whether the anchor is ready. -/
def seedContinuity (cfg : Config Root) (header : Nat → Except String (Option (Header Root)))
    (seed : Option (Seed Root)) (start : Nat) : Option (Seed Root) × Except String Bool :=
  match seed.filter fun s => s.expectedResume == start with
  | some s => (some s, .ok true)
  | none =>
    -- a seed for another slot is dropped before the walk
    match cfg.continuityCheckpoint.filter fun cp => decide (start ≤ cp.slot) with
    | some cp =>
      let slot := cp.slot
      (none, .error s!"beacon: continuity_checkpoint.slot {slot} is not strictly before the first slot {start}")
    | none =>
      if start = 0 then (some { lastRoot := none, expectedResume := start }, .ok true)
      else
        match seedWalk cfg.continuityCheckpoint header seedWalkBound (start - 1) with
        | .error e => (none, .error e)
        | .ok none => (none, .ok false)
        | .ok (some root) => (some { lastRoot := some root, expectedResume := start }, .ok true)

/-! ### Planning -/

/-- `batchPlan`. -/
structure Plan (Root : Type) where
  start : Nat
  last : Nat
  finalized : Nat
  inRoot : Option Root

def resume (originSlot : Nat) : Option Nat → Nat
  | none => originSlot
  | some syncedTo => uint64 (syncedTo + 1)

def batchEnd (batchSize start : Nat) : Nat := uint64 (start + batchSize + maxUint64)

def plan (cfg : Config Root) (seed : Option (Seed Root)) (syncedTo : Option Nat)
    (reads : Reads Root Commitment Blob) : Option (Seed Root) × Except String (Option (Plan Root)) :=
  match reads.finalizedSlot with
  | .error e => (seed, .error e)
  | .ok none => (seed, .ok none)
  | .ok (some finalized) =>
    let start := resume cfg.originSlot syncedTo
    if finalized < start then (seed, .ok none)
    else
      match seedContinuity cfg reads.header seed start with
      | (seed, .error e) => (seed, .error e)
      | (seed, .ok false) => (seed, .ok none)
      | (seed, .ok true) =>
        (seed, .ok (some {
          start, finalized
          last := min finalized (batchEnd cfg.batchSize start)
          inRoot := seed.bind Seed.lastRoot }))

/-! ### Fetching -/

inductive AnchoredSlot (Root Blob : Type) where
  | missed
  | present (header : Header Root) (vhs : List VersionedHash) (blobs : List Blob)

inductive AnchoredResult (Root Blob : Type) where
  | notRun
  | failed (e : String)
  | resolved (slot : AnchoredSlot Root Blob)

variable (kzg : Kzg Commitment Blob)

def commits : List Blob → List VersionedHash → Bool
  | [], [] => true
  | b :: blobs, vh :: vhs =>
    (match kzg.versionedHash b with
      | .ok derived => decide (derived = vh)
      | .error _ => false) && commits blobs vhs
  | _, _ => false

def trySource (vhs : List VersionedHash) : SourceAnswer Blob → Except String (List Blob)
  | .failed reason => .error reason
  | .found blobs =>
    if blobs.length ≠ vhs.length then .error "returned another number of blobs than the block has"
    else if commits kzg blobs vhs then .ok blobs
    else .error "a blob does not commit to its expected versioned hash"
  | .absent => .error "reported the slot absent (404)"
  | .notYetCovered => .error "reported the slot not yet covered (503)"
  | .unknown => .error "returned unknown status"

def resolveFromSources (slot : Nat) (vhs : List VersionedHash) :
    List (SourceAnswer Blob) → Except String (List Blob)
  | [] => .error s!"beacon: slot {slot}: no source served the block's blobs anchored"
  | answer :: rest =>
    match trySource kzg vhs answer with
    | .ok blobs => .ok blobs
    | .error _ => resolveFromSources slot vhs rest

def resolveAnchoredSlot (cfg : Config Root) (reads : Reads Root Commitment Blob) (slot : Nat) :
    Except String (AnchoredSlot Root Blob) := do
  match ← reads.header slot with
  | none => pure .missed
  | some header =>
    let commitments ← reads.commitments slot
    if commitments = [] then pure (.present header [] [])
    else
      let vhs := commitments.map kzg.versionedHashFromCommitment
      let blobs ← resolveFromSources kzg slot vhs
        ((List.range cfg.sources).map fun i => reads.blobs i slot)
      pure (.present header vhs blobs)

def resultOf (cfg : Config Root) (reads : Reads Root Commitment Blob) (slot : Nat) :
    AnchoredResult Root Blob :=
  match resolveAnchoredSlot kzg cfg reads slot with
  | .ok a => .resolved a
  | .error e => .failed e

def stopAtFailure : List (AnchoredResult Root Blob) → List (AnchoredResult Root Blob)
  | [] => []
  | .failed e :: rest => .failed e :: rest.map fun _ => .notRun
  | r :: rest => r :: stopAtFailure rest

structure Tally (Root Blob : Type) where
  anchor : Option Root
  lastPresent : Option Nat
  order : List RefRow
  blobs : List Blob

/-- The loop of `reassembleAnchored`; `none` where an unanchored block ends the batch with
nothing to commit. -/
def reassembleFrom : Nat → List (AnchoredResult Root Blob) → Tally Root Blob →
    Except String (Option (Tally Root Blob))
  | _, [], t => .ok (some t)
  | slot, .notRun :: _, _ => .error s!"beacon: slot {slot} was not resolved"
  | _, .failed e :: _, _ => .error e
  | slot, .resolved .missed :: rest, t => reassembleFrom (slot + 1) rest t
  | slot, .resolved (.present header vhs blobs) :: rest, t =>
    if t.anchor = none ∧ slot ≠ 0 then .ok none
    else if t.anchor ≠ none ∧ t.anchor ≠ some header.parentRoot then
      .error s!"beacon: continuity broken at slot {slot}"
    else reassembleFrom (slot + 1) rest {
      anchor := some header.root
      lastPresent := some slot
      order := if vhs = [] then t.order else t.order ++ [{ slot, vhs }]
      blobs := if vhs = [] then t.blobs else t.blobs ++ blobs }

structure Fetched (Root Blob : Type) where
  start : Nat
  last : Nat
  finalized : Nat
  rows : List RefRow
  blobs : List Blob
  reached : Option Nat
  outRoot : Option Root

/-- `reassembleAnchored`: only what lies before the last present slot is committed. -/
def reassembleAnchored (p : Plan Root) (results : List (AnchoredResult Root Blob)) :
    Except String (Fetched Root Blob) := do
  let nothing (outRoot : Option Root) : Fetched Root Blob :=
    { start := p.start, last := p.last, finalized := p.finalized, rows := [], blobs := []
      reached := none, outRoot }
  match ← reassembleFrom p.start results
      { anchor := p.inRoot, lastPresent := none, order := [], blobs := [] } with
  | none => pure (nothing p.inRoot)
  | some t =>
    match t.lastPresent with
    | none => pure (nothing t.anchor)
    | some last => pure {
        start := p.start, last := p.last, finalized := p.finalized
        rows := t.order, blobs := t.blobs, reached := some last, outRoot := t.anchor }

/-- `walkAnchored`. A range that ends at the largest slot never ends its loop, and runs off
the end of its results. -/
def walkAnchored (cfg : Config Root) (reads : Reads Root Commitment Blob) (p : Plan Root) :
    Except String (Fetched Root Blob) :=
  if p.last = maxUint64 then .error "index out of range"
  else
    let results := (List.range' p.start (p.last + 1 - p.start)).map (resultOf kzg cfg reads)
    if cfg.fetchConcurrency ≤ 1 ∨ p.start = p.last then reassembleAnchored p (stopAtFailure results)
    else reassembleAnchored p results

def maybePrefetch (cfg : Config Root) (fb : Fetched Root Blob) : Option (Plan Root) :=
  if fb.reached ≠ some fb.last then none
  else
    let start := uint64 (fb.last + 1)
    let last := batchEnd cfg.batchSize start
    if fb.finalized < last then none
    else some { start, last, finalized := fb.finalized, inRoot := fb.outRoot }

/-! ### Posting -/

/-- `put`: one request for each chunk of `max_put_blobs`. -/
def put (maxPutBlobs : Nat) (putBlobs : Nat → Except String (List VersionedHash))
    (blobs : List Blob) : Except String (List VersionedHash) := do
  let chunks := (blobs.length + maxPutBlobs - 1) / maxPutBlobs
  let answers ← (List.range chunks).mapM putBlobs
  pure answers.flatten

def verifyAnchored (rows : List RefRow) (stored : List VersionedHash) : Except String Unit :=
  let wanted := rows.flatMap RefRow.vhs
  if wanted.length ≠ stored.length then .error "beacon: the archive answered for another number of blobs"
  else if wanted = stored then .ok ()
  else .error "beacon: a blob was corrupted between the source and the archive"

/-- The part of `post` before the request, in anchored mode. -/
def preparePost (cfg : Config Root) (fb : Fetched Root Blob) (reads : Reads Root Commitment Blob) :
    Except String (Option Batch) := do
  match fb.reached with
  | none => pure none
  | some last =>
    let stored ← put cfg.maxPutBlobs reads.putBlobs fb.blobs
    verifyAnchored fb.rows stored
    pure (some { start := fb.start, last, rows := fb.rows, expectedManifest := none })

def carry (seed : Option (Seed Root)) (fb : Fetched Root Blob) : Option (Seed Root) :=
  seed.map fun _ => { lastRoot := fb.outRoot, expectedResume := uint64 (fb.reached.getD 0 + 1) }

def anchored (cfg : Config Root) : Indexing.Kind where
  Memory := Option (Seed Root)
  Plan := Plan Root
  Fetched := Fetched Root Blob
  Reads := Reads Root Commitment Blob
  fresh := none
  plan seed syncedTo reads :=
    ((plan cfg seed syncedTo reads).1, (plan cfg seed syncedTo reads).2.toOption.join)
  fetch p reads := (walkAnchored kzg cfg reads p).toOption
  last fb := fb.reached
  batch fb reads := (preparePost cfg fb reads).toOption.join
  next fb := maybePrefetch cfg fb
  settle seed fb := carry seed fb

end Bloar.Beacon
