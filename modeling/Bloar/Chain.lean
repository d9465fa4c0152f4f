import Bloar.Schedule
import Bloar.Anchored

/-!
The chain indexer: one pass reads the published manifest, finds the L1 block at which the
head resumes, scans a range of finalized blocks with every source of the schedule, and posts
the rows under the manifest's name.
-/

namespace Bloar.Chain
open Ipld Schema Archive Indexing

/-! ### The outside -/

structure Header where
  number : Nat
  time : Nat
  deriving DecidableEq, Repr

structure Tx where
  hash : Hash
  type : Nat
  recipient : Option Address
  sender : Except String Address
  blobHashes : List VersionedHash

def blobTxType : Nat := 3

structure Block where
  header : Header
  transactions : List Tx

structure Log where
  address : Address
  topics : List Hash
  blockNumber : Nat
  txHash : Hash
  txIndex : Nat
  blockHash : Hash
  index : Nat
  removed : Bool
  deriving DecidableEq, Repr

/-- Everything one step of the indexer may read, apart from the head's `synced_to`. A pass
may read the manifest three times: at its start, in its poll and to check a changed tip. -/
structure Reads (Blob : Type) where
  manifest : Nat → Except String (Option (Cid × List Source))
  latest : Except String (Option Header)
  header : Nat → Except String Header
  headerByHash : Hash → Except String Header
  filterLogs : Nat → Nat → Address → Hash → Except String (List Log)
  transactionByHash : Hash → Except String (Tx × Bool)
  blockByNumber : Nat → Except String (Option Block)
  blobs : Nat → Beacon.SourceAnswer Blob
  putBlobs : Nat → Nat → Except String (List VersionedHash)
  allSyncedTo : Except String (Option Nat)

structure Config where
  originSlot : Nat
  sources : List Source
  genesisTime : Nat
  secondsPerSlot : Nat
  fetchBlobs : Bool
  blockRange : Nat
  rpcBatchSize : Nat
  maxPutBlobs : Nat

variable {Blob : Type} (cfg : Config) (reads : Reads Blob)

/-! ### The manifest -/

def checkSchedule (published : Except String (Option (Cid × List Source))) : Except String Cid := do
  match ← published with
  | none => .error "chain: the head has no published manifest chain"
  | some (tip, sources) =>
    if schedulesEqual sources cfg.sources then pure tip
    else .error "chain: the configured schedule does not equal its published manifest tip"

/-- The check at the start of `Run` and `reconcileManifestTip`: the verified tip that is left,
and the tip of this pass. A failed check leaves none. -/
def reconcile (verified : Option Cid) : Option Cid × Except String Cid :=
  let started : Except String Cid :=
    match verified with
    | some tip => .ok tip
    | none => checkSchedule cfg (reads.manifest 0)
  match started with
  | .error e => (none, .error e)
  | .ok tip =>
    match reads.manifest 1 with
    | .error e => (some tip, .error e)
    | .ok info =>
      if info.map Prod.fst = some tip then (some tip, .ok tip)
      else
        match checkSchedule cfg (reads.manifest 2) with
        | .error e => (none, .error e)
        | .ok tip => (some tip, .ok tip)

/-! ### Where a pass begins -/

/-- `sort.Search`, which stops at the first read that fails. -/
def search (f : Nat → Except String Bool) : Nat → Nat → Nat → Except String Nat
  | 0, i, _ => .ok i
  | fuel + 1, i, j =>
    if i < j then
      match f ((i + j) / 2) with
      | .error e => .error e
      | .ok true => search f fuel i ((i + j) / 2)
      | .ok false => search f fuel ((i + j) / 2 + 1) j
    else .ok i

/-- `int(latest) + 1` as the length of a search: a length below zero is an empty one. -/
def searchLength (latest : Nat) : Nat := if latest + 1 < 2 ^ 63 then latest + 1 else 0

def blockAtOrAfterSlot (slot latest : Nat) : Except String Nat :=
  let target := Beacon.uint64 (cfg.genesisTime + slot * cfg.secondsPerSlot)
  let later (i : Nat) : Except String Bool :=
    match reads.header i with
    | .error e => .error s!"chain: reading L1 header {i} during the slot search: {e}"
    | .ok h => .ok (decide (target ≤ h.time))
  search later (searchLength latest) 0 (searchLength latest)

structure Progress where
  slot : Nat
  block : Nat
  deriving DecidableEq

def resume (hint : Option Progress) (syncedTo : Option Nat) (latest : Nat) : Except String Nat :=
  match hint.filter fun h => syncedTo == some h.slot with
  | some h => .ok (Beacon.uint64 (h.block + 1))
  | none => blockAtOrAfterSlot cfg reads (Beacon.resume cfg.originSlot syncedTo) latest

structure ScanPlan where
  start : Nat
  firstBlock : Nat
  lastBlock : Nat
  tip : Cid

/-- The part of `Step` before the scan. -/
def step (tip : Cid) (hint : Option Progress) (syncedTo : Option Nat) :
    Except String (Option ScanPlan) := do
  match ← reads.latest with
  | none => pure none
  | some latest =>
    if 2 ^ 64 ≤ latest.number then
      let number := latest.number
      .error s!"chain: finalized L1 block number {number} does not fit in a uint64"
    else
      let last := latest.number
      let first ← resume cfg reads hint syncedTo last
      if last < first then pure none
      else pure (some {
        start := resumeAt cfg.originSlot syncedTo
        firstBlock := first, lastBlock := min last (Beacon.batchEnd cfg.blockRange first), tip })

structure Memory where
  manifestTip : Option Cid
  hint : Option Progress

def plan (m : Memory) (syncedTo : Option Nat) : Memory × Except String (Option ScanPlan) :=
  match reconcile cfg reads m.manifestTip with
  | (manifestTip, .error e) => ({ m with manifestTip }, .error e)
  | (manifestTip, .ok tip) => ({ m with manifestTip }, step cfg reads tip m.hint syncedTo)

/-! ### Rows -/

def addHashes (vhs hashes : List VersionedHash) : List VersionedHash :=
  hashes.foldl (fun vhs h => if h ∈ vhs then vhs else vhs ++ [h]) vhs

abbrev RowBuilder := List RefRow

def RowBuilder.add (b : RowBuilder) (slot : Nat) (hashes : List VersionedHash) : RowBuilder :=
  if b.any fun r => r.slot == slot then
    b.map fun r => if r.slot = slot then { r with vhs := addHashes r.vhs hashes } else r
  else b ++ [{ slot, vhs := addHashes [] hashes }]

def RowBuilder.rows (b : RowBuilder) : List RefRow := b.insertionSort fun r r' => r.slot ≤ r'.slot

def slotOf (h : Header) : Except String Nat :=
  if h.time < cfg.genesisTime then
    let number := h.number
    let time := h.time
    let genesisTime := cfg.genesisTime
    .error (s!"chain: L1 block {number} has timestamp {time}, before the beacon genesis time {genesisTime}; " ++
      "the configured genesis_time does not belong to this chain")
  else .ok ((h.time - cfg.genesisTime) / cfg.secondsPerSlot)

def recordMatch (b : RowBuilder) (slot : Nat) (hashes : List VersionedHash) :
    Except String RowBuilder :=
  if slot < cfg.originSlot then
    let origin := cfg.originSlot
    .error s!"chain: a batch transaction lands on slot {slot}, below the head's origin_slot {origin}"
  else .ok (b.add slot hashes)

/-! ### Scanning -/

def Log.precedes (a b : Log) : Prop :=
  a.blockNumber < b.blockNumber ∨
    a.blockNumber = b.blockNumber ∧
      (a.txIndex < b.txIndex ∨ a.txIndex = b.txIndex ∧ a.index ≤ b.index)

instance : DecidableRel Log.precedes := fun _ _ => inferInstanceAs (Decidable (_ ∨ _))

/-- The checks that `canonicalInboxLogs` makes of one log; `seen` are the logs before it,
the last one first. -/
def checkLog (src : Source) (first last : Nat) (seen : List Log) (l : Log) : Except String Unit := do
  let block := l.blockNumber
  let txIndex := l.txIndex
  let index := l.index
  if l.blockNumber < first ∨ last < l.blockNumber then
    .error s!"chain: node returned a log from L1 block {block} outside requested range [{first}, {last}]"
  if l.address ≠ src.address then .error "chain: node returned a log from another address"
  if l.topics.head? ≠ some src.topic then .error "chain: node returned a log with the wrong topic0"
  if l.blockHash = 0 then .error s!"chain: node returned a log at L1 block {block} with a zero block hash"
  if l.txHash = 0 then
    .error s!"chain: node returned a log at L1 block {block}, tx index {txIndex} with a zero transaction hash"
  if seen.any fun p => p.blockNumber == l.blockNumber && p.blockHash != l.blockHash then
    .error s!"chain: node returned inconsistent block hashes for L1 block {block}"
  if seen.any fun p => p.blockHash == l.blockHash && p.blockNumber != l.blockNumber then
    .error s!"chain: node returned one block hash for L1 block {block} and another"
  if seen.any fun p => p.blockNumber == l.blockNumber && p.index == l.index then
    .error s!"chain: node returned duplicate log position at L1 block {block}, log index {index}"
  if seen.any fun p =>
      p.blockNumber == l.blockNumber && p.txIndex == l.txIndex && p.txHash != l.txHash then
    .error s!"chain: node returned transaction index {txIndex} in L1 block {block} with two hashes"
  if seen.any fun p =>
      p.txHash == l.txHash && !(p.blockNumber == l.blockNumber && p.txIndex == l.txIndex) then
    .error s!"chain: node returned one transaction at L1 block {block} index {txIndex} and elsewhere"
  if (seen.head?.filter fun p => p.blockNumber == l.blockNumber && decide (l.index ≤ p.index)).isSome then
    .error s!"chain: node returned impossible log ordering in L1 block {block}"

def checkLogs (src : Source) (first last : Nat) : List Log → List Log → Except String Unit
  | _, [] => pure ()
  | seen, l :: rest => do
      checkLog src first last seen l
      checkLogs src first last (l :: seen) rest

def canonicalInboxLogs (logs : List Log) (src : Source) (first last : Nat) :
    Except String (List Log) := do
  let ordered := logs.insertionSort Log.precedes
  checkLogs src first last [] ordered
  pure ordered

def scanLog (first last : Nat) (b : RowBuilder) (l : Log) : Except String RowBuilder := do
  let block := l.blockNumber
  if l.removed then
    .error (s!"chain: node returned a removed log at L1 block {block}, " ++
      s!"inside the finalized range [{first}, {last}]")
  else
    let (tx, pending) ← reads.transactionByHash l.txHash
    if pending then
      .error s!"chain: node calls a batch tx pending, but it emitted a log in finalized L1 block {block}"
    -- a batch that is not in blobs makes no row; coverage still advances
    else if tx.type ≠ blobTxType then pure b
    else if tx.blobHashes = [] then
      .error "chain: a batch tx is a blob transaction carrying no blob hashes"
    else
      let h ← reads.headerByHash l.blockHash
      let slot ← slotOf cfg h
      recordMatch cfg b slot tx.blobHashes

def scanInboxEvents (src : Source) (first last : Nat) (b : RowBuilder) : Except String RowBuilder := do
  let logs ← reads.filterLogs first last src.address src.topic
  let logs ← canonicalInboxLogs logs src first last
  logs.foldlM (scanLog cfg reads first last) b

def fetchJobs (batchSize : Nat) : Nat → Nat → Nat → List (List Nat)
  | 0, _, _ => []
  | fuel + 1, first, last =>
    if last < first then []
    else
      let stop := if batchSize ≤ last - first then first + batchSize - 1 else last
      List.range' first (stop + 1 - first) ::
        if stop = last then [] else fetchJobs batchSize fuel (stop + 1) last

def fetchBlockChunk (numbers : List Nat) : Except String (List Block) :=
  numbers.mapM fun number => do
    match ← reads.blockByNumber number with
    | none => .error s!"chain: block batch returned nil for L1 block {number}"
    | some block =>
      let got := block.header.number
      if got ≠ number then
        .error s!"chain: block batch returned L1 block {got} at position for block {number}"
      else pure block

def scanTx (src : Source) (slot : Nat) (b : RowBuilder) (tx : Tx) : Except String RowBuilder :=
  if tx.type ≠ blobTxType then pure b
  else if tx.recipient ≠ some src.address then pure b
  else do
    let sender ← tx.sender
    if src.senderAllowed sender = false then pure b
    else if tx.blobHashes = [] then .error "chain: a tx is a blob transaction carrying no blob hashes"
    else recordMatch cfg b slot tx.blobHashes

def scanBlobTxBlock (src : Source) (b : RowBuilder) (block : Block) : Except String RowBuilder := do
  let slot ← slotOf cfg block.header
  block.transactions.foldlM (scanTx cfg src slot) b

/-- `scanBlobTxs`: chunks are fetched by many workers and reduced in their order. -/
def scanBlobTxs (src : Source) (first last : Nat) (b : RowBuilder) : Except String RowBuilder := do
  let batchSize := if cfg.rpcBatchSize = 0 then 1 else cfg.rpcBatchSize
  let chunks ← (fetchJobs batchSize (last + 1 - first) first last).mapM (fetchBlockChunk reads)
  chunks.flatten.foldlM (scanBlobTxBlock cfg src) b

def scanSource (first last : Nat) (b : RowBuilder) (src : Source) : Except String RowBuilder :=
  match src.activeRange first last with
  | none => pure b
  | some (lo, hi) =>
    match src.type with
    | .inboxEvents => scanInboxEvents cfg reads src lo hi b
    | .blobTxs => scanBlobTxs cfg reads src lo hi b
    | .other name => .error s!"chain: a source has unknown type \"{name}\""

def scan (first last : Nat) : Except String (List RefRow) := do
  let b ← cfg.sources.foldlM (scanSource cfg reads first last) []
  pure (RowBuilder.rows b)

structure Scanned where
  start : Nat
  lastBlock : Nat
  rows : List RefRow
  reached : Option Nat
  tip : Cid

/-- The part of `scanRange` before it waits or fetches. -/
def scanRange (p : ScanPlan) : Except String Scanned := do
  let rows ← scan cfg reads p.firstBlock p.lastBlock
  let h ← reads.header p.lastBlock
  let target ← slotOf cfg h
  pure {
    start := p.start, lastBlock := p.lastBlock, rows, tip := p.tip
    reached := if target < cfg.originSlot then none else some target }

/-! ### Posting -/

def fetchRow (row : RefRow) : Except String Unit := do
  let slot := row.slot
  match reads.blobs row.slot with
  | .failed e => .error s!"chain: fetching blobs for slot {slot}: {e}"
  | .absent => .error s!"chain: upstream does not have the blobs this chain posted at slot {slot}"
  | .notYetCovered => .error s!"chain: upstream has not covered slot {slot} yet"
  | .unknown => .error s!"chain: slot {slot}: upstream returned unknown status"
  | .found blobs =>
    let stored ← Beacon.put cfg.maxPutBlobs (reads.putBlobs row.slot) blobs
    if stored.length ≠ row.vhs.length then
      .error s!"chain: slot {slot}: the archive answered for another number of blobs"
    else if stored ≠ row.vhs then
      .error s!"chain: slot {slot}: the blob was corrupted between the upstream and the archive"
    else pure ()

def fetchAndPut (rows : List RefRow) : Except String Unit := rows.forM (fetchRow cfg reads)

def allCovers (target : Nat) : Except String Bool := do
  let syncedTo ← reads.allSyncedTo
  pure (syncedTo.any fun s => decide (target ≤ s))

def blobsStored (rows : List RefRow) (target : Nat) : Except String Bool :=
  if cfg.fetchBlobs then do
    fetchAndPut cfg reads rows
    pure true
  else allCovers reads target

/-- The part of `scanRange` that comes before the request, `none` while it waits. -/
def prepare (f : Scanned) : Except String (Option Batch) := do
  match f.reached with
  | none => pure none
  | some target =>
    let ready ← blobsStored cfg reads f.rows target
    if ready then
      pure (some { start := f.start, last := target, rows := f.rows, expectedManifest := some f.tip })
    else pure none

def chainIndexer (cfg : Config) : Indexing.Kind where
  Memory := Memory
  Plan := ScanPlan
  Fetched := Scanned
  Reads := Reads Blob
  fresh := { manifestTip := none, hint := none }
  plan m syncedTo reads :=
    ((plan cfg reads m syncedTo).1, (plan cfg reads m syncedTo).2.toOption.join)
  fetch p reads := (scanRange cfg reads p).toOption
  last f := f.reached
  batch f reads := (prepare cfg reads f).toOption.join
  next _ := none
  settle m f := { m with hint := f.reached.map fun slot => { slot, block := f.lastBlock } }

end Bloar.Chain
