import Bloar.Anchored

/-!
The beacon indexer in mirror mode (`index/beacon/beacon.go`): a copy of another archive's
head, slot by slot. The source's answers are recorded as given, a slot that it has not
covered yet ends the batch, and the row of a slot gets its hashes from the archive that
stores the bytes, checked against the bytes that were fetched.
-/

namespace Bloar.Beacon
open Ipld Schema Archive Indexing

variable {Commitment Blob : Type}

structure MirrorReads (Blob : Type) where
  originSlot : Except String Nat
  finalizedSlot : Except String (Option Nat)
  blobs : Nat → SourceAnswer Blob
  putBlobs : Nat → Except String (List VersionedHash)

structure MirrorConfig where
  originSlot : Nat
  batchSize : Nat
  fetchConcurrency : Nat
  maxPutBlobs : Nat

def loadOrigin (cfg : MirrorConfig) (gotOrigin : Bool) (reads : MirrorReads Blob) :
    Except String Unit :=
  if gotOrigin then .ok ()
  else do
    let upOrigin ← reads.originSlot
    if upOrigin > cfg.originSlot then
      let origin := cfg.originSlot
      .error (s!"beacon: refusing to run in mirror mode: the upstream archive's origin_slot {upOrigin} is above " ++
        s!"this head's origin_slot {origin}, so it cannot re-derive the whole head (spec 11.5); its coverage must start " ++
        s!"at or before slot {origin}")
    else pure ()

structure MirrorPlan where
  start : Nat
  last : Nat
  finalized : Nat

/-- `loadOrigin` and `plan`: whether the origin is checked, and the range. -/
def mirrorPlan (cfg : MirrorConfig) (gotOrigin : Bool) (syncedTo : Option Nat)
    (reads : MirrorReads Blob) : Bool × Except String (Option MirrorPlan) :=
  match loadOrigin cfg gotOrigin reads with
  | .error e => (gotOrigin, .error e)
  | .ok _ =>
    match reads.finalizedSlot with
    | .error e => (true, .error e)
    | .ok none => (true, .ok none)
    | .ok (some finalized) =>
      let start := resume cfg.originSlot syncedTo
      if finalized < start then (true, .ok none)
      else (true, .ok (some {
        start, finalized, last := min finalized (batchEnd cfg.batchSize start) }))

structure MirrorTally (Blob : Type) where
  order : List (Nat × Nat)
  blobs : List Blob

/-- The loop of `walkMirror` over the answers from `slot` on, with `classifyMirror`: the tally
and the slot that was not covered yet, if it met one. -/
def walkMirrorFrom : Nat → List (SourceAnswer Blob) → MirrorTally Blob →
    Except String (MirrorTally Blob × Option Nat)
  | _, [], t => .ok (t, none)
  | slot, .failed e :: _, _ => .error s!"beacon: fetching slot {slot}: {e}"
  | slot, .found blobs :: rest, t =>
    if blobs = [] then walkMirrorFrom (slot + 1) rest t
    else walkMirrorFrom (slot + 1) rest
      { order := t.order ++ [(slot, blobs.length)], blobs := t.blobs ++ blobs }
  | slot, .notYetCovered :: _, t => .ok (t, some slot)
  | slot, .absent :: _, _ =>
    .error s!"beacon: slot {slot}: the mirror upstream returned 404 for a slot at or above its validated origin_slot"
  | slot, .unknown :: _, _ => .error s!"beacon: slot {slot}: upstream returned unknown status"

structure MirrorFetched (Blob : Type) where
  start : Nat
  last : Nat
  finalized : Nat
  order : List (Nat × Nat)
  blobs : List Blob
  reached : Option Nat

/-- `walkMirror` with `stopEarly`. A range that ends at the largest slot never ends its
loop, and the concurrent walk cannot size its results for a range that wraps. -/
def walkMirror (cfg : MirrorConfig) (reads : MirrorReads Blob) (p : MirrorPlan) :
    Except String (MirrorFetched Blob) :=
  if p.last = maxUint64 then .error "the walk does not end"
  else if 1 < cfg.fetchConcurrency ∧ p.last + 1 < p.start then .error "makeslice: len out of range"
  else do
    let answers := (List.range' p.start (p.last + 1 - p.start)).map reads.blobs
    let (t, stopped) ← walkMirrorFrom p.start answers { order := [], blobs := [] }
    match stopped with
    | none => pure {
        start := p.start, last := p.last, finalized := p.finalized
        order := t.order, blobs := t.blobs, reached := some p.last }
    | some slot =>
      if slot = p.start then pure {
        start := p.start, last := p.last, finalized := p.finalized
        order := [], blobs := [], reached := none }
      else pure {
        start := p.start, last := p.last, finalized := p.finalized
        order := t.order, blobs := t.blobs, reached := some (slot - 1) }

def mirrorPrefetch (cfg : MirrorConfig) (fb : MirrorFetched Blob) : Option MirrorPlan :=
  if fb.reached ≠ some fb.last then none
  else
    let start := uint64 (fb.last + 1)
    let last := batchEnd cfg.batchSize start
    if fb.finalized < last then none
    else some { start, last, finalized := fb.finalized }

variable (kzg : Kzg Commitment Blob)

def verifyEach : List Blob → List VersionedHash → Except String Unit
  | b :: blobs, vh :: stored =>
    match kzg.versionedHash b with
    | .error e => .error s!"beacon: a blob fetched from the upstream is not a valid KZG blob: {e}"
    | .ok derived =>
      if derived = vh then verifyEach blobs stored
      else .error "beacon: a blob was corrupted between the upstream and the archive"
  | _, _ => .ok ()

def verify (blobs : List Blob) (stored : List VersionedHash) : Except String Unit :=
  if blobs.length ≠ stored.length then .error "beacon: the archive answered for another number of blobs"
  else verifyEach kzg blobs stored

def fillRows : List (Nat × Nat) → List VersionedHash → List RefRow
  | [], _ => []
  | (slot, count) :: rest, stored => { slot, vhs := stored.take count } :: fillRows rest (stored.drop count)

def assign (order : List (Nat × Nat)) (stored : List VersionedHash) : Except String (List RefRow) :=
  if (order.map Prod.snd).sum ≠ stored.length then
    .error "beacon: the archive answered for another number of blobs"
  else .ok (fillRows order stored)

/-- The part of `post` before the request, in mirror mode. -/
def mirrorPost (cfg : MirrorConfig) (fb : MirrorFetched Blob) (reads : MirrorReads Blob) :
    Except String (Option Batch) := do
  match fb.reached with
  | none => pure none
  | some last =>
    let stored ← put cfg.maxPutBlobs reads.putBlobs fb.blobs
    verify kzg fb.blobs stored
    let rows ← assign fb.order stored
    pure (some { start := fb.start, last, rows, expectedManifest := none })

/-- The mirror indexer. It remembers nothing but that it has checked the source's origin. -/
def mirror (cfg : MirrorConfig) : Indexing.Kind where
  Memory := Bool
  Plan := MirrorPlan
  Fetched := MirrorFetched Blob
  Reads := MirrorReads Blob
  fresh := false
  plan gotOrigin syncedTo reads :=
    ((mirrorPlan cfg gotOrigin syncedTo reads).1,
      (mirrorPlan cfg gotOrigin syncedTo reads).2.toOption.join)
  fetch p reads := (walkMirror cfg reads p).toOption
  last fb := fb.reached
  batch fb reads := (mirrorPost kzg cfg fb reads).toOption.join
  next fb := mirrorPrefetch cfg fb
  settle gotOrigin _ := gotOrigin

end Bloar.Beacon
