import Bloar.Chain
import Bloar.Loops
import Bloar.AnchoredSpec

/-!
The chain indexer against the chain: whatever its partition into scans, a head holds in each
covered slot what the sources of its schedule select from the block of that slot.
-/

namespace Bloar.Chain
open Ipld Schema Archive Indexing Loops

/-! ### The chain and what a schedule selects of it -/

structure ChainBlock where
  hash : Hash
  block : Block
  logs : List Log

namespace ChainBlock

def number (b : ChainBlock) : Nat := b.block.header.number

def time (b : ChainBlock) : Nat := b.block.header.time

def slot (genesisTime secondsPerSlot : Nat) (b : ChainBlock) : Nat :=
  (b.time - genesisTime) / secondsPerSlot

def transaction (b : ChainBlock) (hash : Hash) : Option Tx :=
  b.block.transactions.find? fun tx => tx.hash = hash

def logsOf (b : ChainBlock) (address : Address) (topic : Hash) : List Log :=
  b.logs.filter fun l => l.address = address ∧ l.topics.head? = some topic

def blobTx (b : ChainBlock) (l : Log) : Option Tx :=
  (b.transaction l.txHash).filter fun tx => tx.type = blobTxType

def sentBy (s : Source) (tx : Tx) : Bool :=
  match tx.sender with
  | .ok sender => s.senderAllowed sender
  | .error _ => false

/-- What one source selects of the block: the hashes of each transaction, in the block's order. -/
def selects (b : ChainBlock) (s : Source) : List (List VersionedHash) :=
  match s.type with
  | .inboxEvents => (b.logsOf s.address s.topic).filterMap fun l => (b.blobTx l).map Tx.blobHashes
  | .blobTxs =>
    (b.block.transactions.filter fun tx =>
      tx.type = blobTxType ∧ tx.recipient = some s.address ∧ sentBy s tx).map Tx.blobHashes
  | .other _ => []

/-- The sources in list order, repeated hashes dropped. -/
def row (b : ChainBlock) (sources : List Source) : List VersionedHash :=
  ((activeAt sources b.number).flatMap fun s => (b.selects s).flatten).eraseDups

end ChainBlock

structure L1 where
  blocks : List ChainBlock
  numbered : ∀ (n : Nat) (b : ChainBlock), blocks[n]? = some b → b.number = n
  increasing : ∀ (m n : Nat) (b c : ChainBlock), blocks[m]? = some b → blocks[n]? = some c →
    m < n → b.time < c.time
  hashed : ∀ b ∈ blocks, ∀ c ∈ blocks, b.hash = c.hash → b = c
  signed : ∀ b ∈ blocks, ∀ c ∈ blocks, ∀ tx ∈ b.block.transactions, ∀ tx' ∈ c.block.transactions,
    tx.hash = tx'.hash → tx = tx'
  logged : ∀ b ∈ blocks, ∀ l ∈ b.logs, l.blockNumber = b.number ∧ l.blockHash = b.hash ∧
    ∃ tx ∈ b.block.transactions, tx.hash = l.txHash
  ordered : ∀ b ∈ blocks,
    b.logs.Pairwise fun l l' => l.txIndex < l'.txIndex ∨ l.txIndex = l'.txIndex ∧ l.index < l'.index

namespace L1

variable (chain : L1)

def OnePerSlot (genesisTime secondsPerSlot : Nat) : Prop :=
  ∀ b ∈ chain.blocks, ∀ c ∈ chain.blocks, genesisTime ≤ b.time → genesisTime ≤ c.time →
    b.slot genesisTime secondsPerSlot = c.slot genesisTime secondsPerSlot → b = c

def between (lo hi : Nat) : List ChainBlock :=
  (List.range' lo (hi + 1 - lo)).filterMap fun n => chain.blocks[n]?

def blockAt (genesisTime secondsPerSlot slot : Nat) : Option ChainBlock :=
  chain.blocks.find? fun b => genesisTime ≤ b.time ∧ b.slot genesisTime secondsPerSlot = slot

def row (genesisTime secondsPerSlot : Nat) (sources : List Source) (slot : Nat) :
    List VersionedHash :=
  match chain.blockAt genesisTime secondsPerSlot slot with
  | some b => b.row sources
  | none => []

end L1

/-- A node that follows the chain: it may fail, or lag behind, but does not lie. A manifest
is named by its contents. -/
structure Reads.Follow {Blob : Type} (chain : L1) (schedule : Cid → List Source)
    (reads : Reads Blob) : Prop where
  manifest : ∀ i tip sources, reads.manifest i = .ok (some (tip, sources)) → sources = schedule tip
  latest : ∀ h, reads.latest = .ok (some h) → ∃ b, chain.blocks[h.number]? = some b ∧ b.block.header = h
  header : ∀ n h, reads.header n = .ok h → ∃ b, chain.blocks[n]? = some b ∧ b.block.header = h
  headerByHash : ∀ x h, reads.headerByHash x = .ok h →
    ∃ b ∈ chain.blocks, b.hash = x ∧ b.block.header = h
  filterLogs : ∀ lo hi address topic logs, reads.filterLogs lo hi address topic = .ok logs →
    logs.Perm ((chain.between lo hi).flatMap fun b => b.logsOf address topic)
  transactionByHash : ∀ x tx pending, reads.transactionByHash x = .ok (tx, pending) →
    ∃ b ∈ chain.blocks, tx ∈ b.block.transactions ∧ tx.hash = x
  blockByNumber : ∀ n block, reads.blockByNumber n = .ok (some block) → block.header.number = n →
    ∃ b, chain.blocks[n]? = some b ∧ b.block = block

theorem ChainBlock.row_alike {b : ChainBlock} {current proposed : List Source}
    (alike : List.Forall₂ Alike (activeAt current b.number) (activeAt proposed b.number)) :
    b.row current = b.row proposed := by
  have selects : ∀ s s', Alike s s' → b.selects s = b.selects s' := by
    intro s s' same
    unfold ChainBlock.selects
    rw [← same.type]
    cases type : s.type with
    | inboxEvents => rw [same.address, same.topic type]
    | blobTxs =>
      have sent : ∀ tx, ChainBlock.sentBy s tx = ChainBlock.sentBy s' tx := by
        intro tx
        unfold ChainBlock.sentBy Source.senderAllowed
        rw [same.senders type]
      simp only [same.address, sent]
    | other name => rfl
  unfold ChainBlock.row
  congr 1
  generalize activeAt current b.number = xs at alike
  generalize activeAt proposed b.number = ys at alike
  induction alike with
  | nil => rfl
  | cons same rest ih => rw [List.flatMap_cons, List.flatMap_cons, selects _ _ same, ih]

/-! ### The rows of a builder -/

section Builder

variable {b : RowBuilder} {slot : Nat} {hashes : List VersionedHash}

theorem addHashes_append (vhs xs ys : List VersionedHash) :
    addHashes vhs (xs ++ ys) = addHashes (addHashes vhs xs) ys := List.foldl_append

theorem rowAt_map_add (b : RowBuilder) (slot : Nat) (hashes : List VersionedHash) (s : Nat) :
    rowAt (b.map fun r => if r.slot = slot then { r with vhs := addHashes r.vhs hashes } else r) s =
      if s = slot ∧ ∃ r ∈ b, r.slot = slot then addHashes (rowAt b s) hashes else rowAt b s := by
  induction b with
  | nil => simp
  | cons r rest ih =>
    rw [List.map_cons, rowAt_cons, rowAt_cons, ih]
    by_cases here : r.slot = slot
    · by_cases asked : s = slot
      · simp [here, asked]
      · have other : ¬ slot = s := fun same => asked same.symm
        simp [here, asked, other]
    · by_cases asked : s = slot
      · simp [here, asked]
      · simp [here, asked]

theorem rowAt_add (b : RowBuilder) (slot : Nat) (hashes : List VersionedHash) (s : Nat) :
    rowAt (b.add slot hashes) s = if s = slot then addHashes (rowAt b s) hashes else rowAt b s := by
  unfold RowBuilder.add
  by_cases known : ∃ r ∈ b, r.slot = slot
  · rw [if_pos (by simpa using known), rowAt_map_add]
    simp [known]
  · rw [if_neg (by simpa using known)]
    have missing : b.find? (fun r => r.slot = slot) = none := by simpa using known
    by_cases asked : s = slot
    · subst asked
      simp [rowAt, List.find?_append, missing]
    · have other : ¬ slot = s := fun same => asked same.symm
      simp only [if_neg asked, rowAt, List.find?_append]
      cases b.find? fun r => r.slot = s <;> simp [other]

theorem add_nodup (nodup : (b.map RefRow.slot).Nodup) :
    ((b.add slot hashes).map RefRow.slot).Nodup := by
  unfold RowBuilder.add
  split
  · have same : (b.map fun r => if r.slot = slot then { r with vhs := addHashes r.vhs hashes } else r).map
        RefRow.slot = b.map RefRow.slot := by
      rw [List.map_map]
      refine List.map_congr_left fun r _ => ?_
      simp only [Function.comp]
      split <;> rfl
    rw [same]
    exact nodup
  · rename_i unknown
    rw [List.map_append, List.nodup_append]
    refine ⟨nodup, List.nodup_singleton _, ?_⟩
    intro x inOld y isNew same
    obtain ⟨r, member, rfl⟩ := List.mem_map.mp inOld
    have isSlot : y = slot := by simpa using isNew
    exact unknown (by simpa using ⟨r, member, same.trans isSlot⟩)

abbrev Encounter := Nat × List VersionedHash

def RowBuilder.encounter (b : RowBuilder) (e : Encounter) : RowBuilder := b.add e.1 e.2

def metAt (es : List Encounter) (slot : Nat) : List VersionedHash :=
  (es.filter fun e => e.1 = slot).flatMap Prod.snd

variable (es : List Encounter)

theorem rowAt_encounters (b : RowBuilder) (s : Nat) :
    rowAt (es.foldl RowBuilder.encounter b) s = addHashes (rowAt b s) (metAt es s) := by
  induction es generalizing b with
  | nil => rfl
  | cons e rest ih =>
    rw [List.foldl_cons, ih, RowBuilder.encounter, rowAt_add]
    by_cases here : e.1 = s
    · simp [metAt, here, addHashes_append]
    · simp [metAt, here, Ne.symm here]

theorem encounters_nodup (nodup : (b.map RefRow.slot).Nodup) :
    ((es.foldl RowBuilder.encounter b).map RefRow.slot).Nodup := by
  induction es generalizing b with
  | nil => exact nodup
  | cons e rest ih => exact ih (add_nodup nodup)

theorem rowAt_of_mem {r : RefRow} (nodup : (b.map RefRow.slot).Nodup) (member : r ∈ b) :
    rowAt b r.slot = r.vhs := by
  induction b with
  | nil => cases member
  | cons x rest ih =>
    rw [rowAt_cons]
    obtain ⟨fresh, tail⟩ := List.nodup_cons.mp nodup
    rcases List.mem_cons.mp member with rfl | later
    · rw [if_pos rfl]
    · have other : x.slot ≠ r.slot := fun same => fresh (same ▸ List.mem_map_of_mem later)
      rw [if_neg other]
      exact ih tail later

theorem rowAt_rows (nodup : (b.map RefRow.slot).Nodup) (s : Nat) :
    rowAt b.rows s = rowAt b s := by
  have perm : b.rows.Perm b := List.perm_insertionSort _ b
  have sorted : (b.rows.map RefRow.slot).Nodup := (perm.map RefRow.slot).nodup_iff.mpr nodup
  by_cases known : ∃ r ∈ b, r.slot = s
  · obtain ⟨r, member, rfl⟩ := known
    rw [rowAt_of_mem nodup member, rowAt_of_mem sorted (perm.mem_iff.mpr member)]
  · have missing : b.find? (fun r => r.slot = s) = none := by simpa using known
    have missing' : b.rows.find? (fun r => r.slot = s) = none := by
      rw [List.find?_eq_none] at missing ⊢
      exact fun r member => missing r (perm.mem_iff.mp member)
    simp [rowAt, missing, missing']

theorem rowAt_scan (s : Nat) :
    rowAt (RowBuilder.rows (es.foldl RowBuilder.encounter [])) s = (metAt es s).eraseDups := by
  have fresh : (([] : RowBuilder).map RefRow.slot).Nodup := List.nodup_nil
  rw [rowAt_rows (encounters_nodup es fresh), rowAt_encounters]
  exact foldl_insert_eq_eraseDups _

end Builder

/-! ### One scan -/

variable {slot : Nat}

section Scan

variable {Blob : Type} {cfg : Config} {chain : L1} {schedule : Cid → List Source}
variable {reads : Reads Blob} {b b' : RowBuilder} {c : ChainBlock} {src : Source}
variable {lo hi : Nat}

def selections (cfg : Config) (src : Source) (c : ChainBlock) : List Encounter :=
  if cfg.genesisTime ≤ c.time then
    (c.selects src).map fun hashes => (c.slot cfg.genesisTime cfg.secondsPerSlot, hashes)
  else []

theorem L1.mem_between : c ∈ chain.between lo hi ↔
    ∃ n, lo ≤ n ∧ n ≤ hi ∧ chain.blocks[n]? = some c := by
  unfold L1.between
  simp only [List.mem_filterMap, List.mem_range'_1]
  constructor
  · rintro ⟨n, ⟨ge, lt⟩, found⟩
    exact ⟨n, ge, by omega, found⟩
  · rintro ⟨n, ge, le, found⟩
    exact ⟨n, ⟨ge, by omega⟩, found⟩

theorem L1.mem_of_between (inside : c ∈ chain.between lo hi) : c ∈ chain.blocks := by
  obtain ⟨n, -, -, found⟩ := L1.mem_between.mp inside
  exact List.mem_of_getElem? found

theorem L1.getElem?_number (member : c ∈ chain.blocks) : chain.blocks[c.number]? = some c := by
  obtain ⟨n, found⟩ := List.getElem?_of_mem member
  rw [chain.numbered n c found]
  exact found

theorem slotOf_ok {h : Header} (found : slotOf cfg h = .ok slot) :
    cfg.genesisTime ≤ h.time ∧ slot = (h.time - cfg.genesisTime) / cfg.secondsPerSlot := by
  unfold slotOf at found
  split at found
  · cases found
  · rename_i after
    cases found
    exact ⟨Nat.le_of_not_lt after, rfl⟩

theorem recordMatch_ok {hashes : List VersionedHash}
    (recorded : recordMatch cfg b slot hashes = .ok b') : b' = b.add slot hashes := by
  unfold recordMatch at recorded
  split at recorded
  · cases recorded
  · cases recorded
    rfl

/-! #### Logs -/

instance : Std.Total Log.precedes where
  total a b := by
    unfold Log.precedes
    omega

instance : IsTrans Log Log.precedes where
  trans a b c := by
    unfold Log.precedes
    omega

variable {logs : List Log} {tx : Tx} {l : Log} {first last : Nat}

theorem canonicalInboxLogs_ok {ordered : List Log}
    (canonical : canonicalInboxLogs logs src lo hi = .ok ordered) :
    ordered = logs.insertionSort Log.precedes := by
  unfold canonicalInboxLogs at canonical
  obtain ⟨_, -, done⟩ := bind_ok_iff.mp canonical
  exact (pure_ok_iff.mp done).symm

theorem between_pairwise (chain : L1) (lo hi : Nat) :
    (chain.between lo hi).Pairwise fun c d => c.number < d.number := by
  unfold L1.between
  rw [List.pairwise_filterMap]
  refine (List.pairwise_lt_range' 1).imp ?_
  intro m n lt c found d found'
  rw [chain.numbered m c found, chain.numbered n d found']
  exact lt

/-- The chain's own order of its logs is the one that the scan puts them in. -/
theorem logs_canonical {address : Address} {topic : Hash}
    (perm : logs.Perm ((chain.between lo hi).flatMap fun c => c.logsOf address topic)) :
    logs.insertionSort Log.precedes =
      (chain.between lo hi).flatMap fun c => c.logsOf address topic := by
  refine insertionSort_of_perm perm ?_
  rw [List.pairwise_flatMap]
  constructor
  · intro c inside
    have member := L1.mem_of_between inside
    refine List.Pairwise.filter _ ?_
    refine (List.Pairwise.and_mem.mp (chain.ordered c member)).imp ?_
    rintro l l' ⟨inC, inC', before⟩
    have number := (chain.logged c member l inC).1
    have number' := (chain.logged c member l' inC').1
    unfold Log.precedes
    omega
  · refine (List.Pairwise.and_mem.mp (between_pairwise chain lo hi)).imp ?_
    rintro c d ⟨inside, inside', before⟩ l inC l' inD
    have number := (chain.logged c (L1.mem_of_between inside) l (List.mem_of_mem_filter inC)).1
    have number' := (chain.logged d (L1.mem_of_between inside') l' (List.mem_of_mem_filter inD)).1
    unfold Log.precedes
    omega

def logEncounters (cfg : Config) (chain : L1) (l : Log) : List Encounter :=
  match chain.blocks[l.blockNumber]? with
  | none => []
  | some c =>
    if cfg.genesisTime ≤ c.time then
      (c.blobTx l).toList.map fun tx =>
        (c.slot cfg.genesisTime cfg.secondsPerSlot, tx.blobHashes)
    else []

variable (follow : reads.Follow chain schedule)
include follow

theorem L1.transaction_eq (member : c ∈ chain.blocks) (inC : l ∈ c.logs) {pending : Bool}
    (read : reads.transactionByHash l.txHash = .ok (tx, pending)) :
    c.transaction l.txHash = some tx := by
  obtain ⟨d, inChain, inD, named⟩ := follow.transactionByHash _ _ _ read
  obtain ⟨-, -, own, inOwn, ownName⟩ := chain.logged c member l inC
  unfold ChainBlock.transaction
  cases found : c.block.transactions.find? fun tx => tx.hash = l.txHash with
  | none =>
    have missing := List.find?_eq_none.mp found own inOwn
    simp [ownName] at missing
  | some first =>
    have firstName : first.hash = l.txHash := by simpa using List.find?_some found
    rw [chain.signed c member d inChain first (List.mem_of_find?_eq_some found) tx inD
      (firstName.trans named.symm)]

theorem scanLog_adds (member : c ∈ chain.blocks) (inC : l ∈ c.logs)
    (done : scanLog cfg reads lo hi b l = .ok b') :
    b' = (logEncounters cfg chain l).foldl RowBuilder.encounter b := by
  obtain ⟨number, hash, -⟩ := chain.logged c member l inC
  have home : chain.blocks[l.blockNumber]? = some c := number ▸ L1.getElem?_number member
  unfold scanLog at done
  dsimp only at done
  split at done
  · cases done
  obtain ⟨⟨tx, pending⟩, read, done⟩ := bind_ok_iff.mp done
  dsimp only at done
  have own := L1.transaction_eq follow member inC read
  split at done
  · cases done
  split at done
  · rename_i plain
    rw [← pure_ok_iff.mp done]
    have none : c.blobTx l = none := by simp [ChainBlock.blobTx, own, Option.filter, plain]
    simp [logEncounters, home, none]
  split at done
  · cases done
  rename_i isBlob _
  rw [not_not] at isBlob
  obtain ⟨h, header, done⟩ := bind_ok_iff.mp done
  obtain ⟨slot, placed, done⟩ := bind_ok_iff.mp done
  obtain ⟨d, inChain, named, isHeader⟩ := follow.headerByHash _ _ header
  have same : d = c := chain.hashed d inChain c member (named.trans hash)
  subst same
  obtain ⟨after, rfl⟩ := slotOf_ok placed
  rw [← isHeader] at after done
  rw [recordMatch_ok done]
  have late : cfg.genesisTime ≤ d.time := after
  have blob : d.blobTx l = some tx := by simp [ChainBlock.blobTx, own, Option.filter, isBlob]
  simp only [logEncounters, home, if_pos late, blob]
  rfl

theorem scanInboxEvents_adds (type : src.type = .inboxEvents)
    (done : scanInboxEvents cfg reads src lo hi b = .ok b') :
    b' = ((chain.between lo hi).flatMap (selections cfg src)).foldl RowBuilder.encounter b := by
  unfold scanInboxEvents at done
  obtain ⟨logs, filtered, done⟩ := bind_ok_iff.mp done
  obtain ⟨ordered, canonical, done⟩ := bind_ok_iff.mp done
  rw [canonicalInboxLogs_ok canonical, logs_canonical (follow.filterLogs _ _ _ _ _ filtered)] at done
  have adds : ∀ l ∈ (chain.between lo hi).flatMap fun c => c.logsOf src.address src.topic,
      ∀ b b', scanLog cfg reads lo hi b l = .ok b' →
        b' = (logEncounters cfg chain l).foldl RowBuilder.encounter b := by
    intro l member b b' ran
    obtain ⟨c, inside, inC⟩ := List.mem_flatMap.mp member
    exact scanLog_adds follow (L1.mem_of_between inside) (List.mem_of_mem_filter inC) ran
  rw [foldlM_adds adds done, List.flatMap_assoc]
  congr 1
  refine List.flatMap_congr fun c inside => ?_
  have member := L1.mem_of_between inside
  have home : ∀ l ∈ c.logsOf src.address src.topic, chain.blocks[l.blockNumber]? = some c := by
    intro l inC
    rw [(chain.logged c member l (List.mem_of_mem_filter inC)).1]
    exact L1.getElem?_number member
  unfold selections
  split
  · rename_i late
    simp only [ChainBlock.selects, type, List.filterMap_eq_flatMap_toList, List.map_flatMap]
    refine List.flatMap_congr fun l inC => ?_
    simp only [logEncounters, home l inC, if_pos late]
    cases c.blobTx l <;> rfl
  · rename_i early
    rw [List.flatMap_eq_nil_iff]
    intro l inC
    simp only [logEncounters, home l inC, if_neg early]

/-! #### Blocks -/

omit follow in
theorem fetchJobs_flatten {batchSize : Nat} (positive : 0 < batchSize) (fuel first last : Nat)
    (enough : last + 1 - first ≤ fuel) :
    (fetchJobs batchSize fuel first last).flatten = List.range' first (last + 1 - first) := by
  induction fuel generalizing first with
  | zero =>
    have none : last + 1 - first = 0 := by omega
    rw [none]
    rfl
  | succ fuel ih =>
    unfold fetchJobs
    split
    · rename_i past
      have none : last + 1 - first = 0 := by omega
      rw [none]
      rfl
    · rename_i inside
      generalize stopped : (if batchSize ≤ last - first then first + batchSize - 1 else last) = stop
      have within : first ≤ stop ∧ stop ≤ last := by
        split at stopped <;> omega
      simp only [List.flatten_cons]
      split
      · rename_i whole
        rw [whole, List.flatten_nil, List.append_nil]
      · rename_i more
        rw [ih (stop + 1) (by omega)]
        have join := List.range'_append_1 (s := first) (m := stop + 1 - first) (n := last + 1 - (stop + 1))
        rw [show first + (stop + 1 - first) = stop + 1 by omega,
          show stop + 1 - first + (last + 1 - (stop + 1)) = last + 1 - first by omega] at join
        exact join

theorem fetchBlockChunk_ok {numbers : List Nat} {blocks : List Block}
    (done : fetchBlockChunk reads numbers = .ok blocks) :
    blocks = (numbers.filterMap fun n => chain.blocks[n]?).map ChainBlock.block := by
  unfold fetchBlockChunk at done
  have pairs := mapM_ok_iff.mp done
  induction pairs with
  | nil => rfl
  | cons read rest ih =>
    rename_i n block numbers blocks
    obtain ⟨answer, answered, read⟩ := bind_ok_iff.mp read
    cases answer with
    | none => cases read
    | some got =>
      dsimp only at read
      split at read
      · cases read
      rename_i right
      rw [not_not] at right
      obtain rfl := pure_ok_iff.mp read
      obtain ⟨c, found, same⟩ := follow.blockByNumber n got answered right
      rw [ih (mapM_ok_iff.mpr rest), List.filterMap_cons, found, List.map_cons, same]

theorem fetchJobs_blocks {jobs : List (List Nat)} {chunks : List (List Block)}
    (done : jobs.mapM (fetchBlockChunk reads) = .ok chunks) :
    chunks.flatten = (jobs.flatten.filterMap fun n => chain.blocks[n]?).map ChainBlock.block := by
  have pairs := mapM_ok_iff.mp done
  induction pairs with
  | nil => rfl
  | cons read rest ih =>
    rw [List.flatten_cons, List.flatten_cons, List.filterMap_append, List.map_append,
      fetchBlockChunk_ok follow read, ih (mapM_ok_iff.mpr rest)]

omit follow

def picks (src : Source) (tx : Tx) : Bool :=
  decide (tx.type = blobTxType ∧ tx.recipient = some src.address ∧ ChainBlock.sentBy src tx)

theorem scanTx_adds (done : scanTx cfg src slot b tx = .ok b') :
    b' = (if picks src tx then [(slot, tx.blobHashes)] else []).foldl RowBuilder.encounter b := by
  unfold scanTx at done
  split at done
  · rename_i plain
    rw [← pure_ok_iff.mp done]
    simp [picks, plain]
  split at done
  · rename_i other
    rw [← pure_ok_iff.mp done]
    simp [picks, other]
  rename_i isBlob isTo
  rw [not_not] at isBlob isTo
  obtain ⟨sender, recovered, done⟩ := bind_ok_iff.mp done
  split at done
  · rename_i refused
    rw [← pure_ok_iff.mp done]
    simp [picks, ChainBlock.sentBy, recovered, refused]
  split at done
  · cases done
  rename_i allowed _
  have picked : picks src tx = true := by
    simp [picks, isBlob, isTo, ChainBlock.sentBy, recovered, Bool.eq_true_of_not_eq_false allowed]
  rw [recordMatch_ok done, if_pos picked]
  rfl

theorem scanBlobTxBlock_adds (type : src.type = .blobTxs)
    (done : scanBlobTxBlock cfg src b c.block = .ok b') :
    b' = (selections cfg src c).foldl RowBuilder.encounter b := by
  unfold scanBlobTxBlock at done
  obtain ⟨slot, placed, done⟩ := bind_ok_iff.mp done
  obtain ⟨late, rfl⟩ := slotOf_ok placed
  rw [foldlM_adds (fun tx _ b b' ran => scanTx_adds ran) done]
  unfold selections
  rw [if_pos (show cfg.genesisTime ≤ c.time from late)]
  simp only [ChainBlock.selects, type, List.map_map]
  exact congrArg _ (filter_map_eq_flatMap (picks src) _ _).symm

include follow in
theorem scanBlobTxs_adds (type : src.type = .blobTxs)
    (done : scanBlobTxs cfg reads src lo hi b = .ok b') :
    b' = ((chain.between lo hi).flatMap (selections cfg src)).foldl RowBuilder.encounter b := by
  unfold scanBlobTxs at done
  obtain ⟨chunks, fetched, done⟩ := bind_ok_iff.mp done
  have positive : 0 < if cfg.rpcBatchSize = 0 then 1 else cfg.rpcBatchSize := by
    split <;> omega
  rw [fetchJobs_blocks follow fetched, fetchJobs_flatten positive _ _ _ (Nat.le_refl _),
    List.foldlM_map] at done
  exact foldlM_adds (fun c _ b b' ran => scanBlobTxBlock_adds type ran) done

/-! #### A whole scan -/

def metBy (cfg : Config) (chain : L1) (first last : Nat) (src : Source) : List Encounter :=
  match src.activeRange first last with
  | none => []
  | some (lo, hi) => (chain.between lo hi).flatMap (selections cfg src)

include follow in
theorem scanSource_adds (done : scanSource cfg reads first last b src = .ok b') :
    b' = (metBy cfg chain first last src).foldl RowBuilder.encounter b := by
  unfold scanSource at done
  unfold metBy
  cases range : src.activeRange first last with
  | none =>
    rw [range] at done
    exact (pure_ok_iff.mp done).symm
  | some bounds =>
    rw [range] at done
    dsimp only at done ⊢
    cases type : src.type with
    | inboxEvents =>
      rw [type] at done
      exact scanInboxEvents_adds follow type done
    | blobTxs =>
      rw [type] at done
      exact scanBlobTxs_adds follow type done
    | other name =>
      rw [type] at done
      cases done

theorem metAt_flatMap {α : Type} (xs : List α) (f : α → List Encounter) (slot : Nat) :
    metAt (xs.flatMap f) slot = xs.flatMap fun x => metAt (f x) slot := by
  unfold metAt
  rw [List.filter_flatMap, List.flatMap_assoc]

theorem metAt_selections (src : Source) (c : ChainBlock) (slot : Nat) :
    metAt (selections cfg src c) slot =
      if cfg.genesisTime ≤ c.time ∧ c.slot cfg.genesisTime cfg.secondsPerSlot = slot then
        (c.selects src).flatten else [] := by
  unfold selections metAt
  by_cases late : cfg.genesisTime ≤ c.time
  · by_cases here : c.slot cfg.genesisTime cfg.secondsPerSlot = slot
    · rw [if_pos late, if_pos ⟨late, here⟩, List.filter_map, List.flatMap_map]
      have all : (c.selects src).filter
          ((fun e : Encounter => decide (e.1 = slot)) ∘ fun hashes =>
            (c.slot cfg.genesisTime cfg.secondsPerSlot, hashes)) = c.selects src :=
        List.filter_eq_self.mpr fun hashes _ => by simpa using here
      rw [all]
      simp [List.flatMap_id']
    · rw [if_pos late, if_neg fun both => here both.2, List.filter_map]
      simp [here]
  · simp [late]

theorem metAt_metBy (single : chain.OnePerSlot cfg.genesisTime cfg.secondsPerSlot)
    (member : c ∈ chain.blocks) (late : cfg.genesisTime ≤ c.time)
    (here : c.slot cfg.genesisTime cfg.secondsPerSlot = slot)
    (inside : first ≤ c.number ∧ c.number ≤ last) (src : Source) :
    metAt (metBy cfg chain first last src) slot =
      if src.Active c.number then (c.selects src).flatten else [] := by
  have range := src.activeRange_mem first last c.number
  unfold metBy
  cases bounds : src.activeRange first last with
  | none =>
    rw [if_neg fun active => by
      obtain ⟨lo, hi, isRange, -⟩ := range.mpr ⟨active, inside⟩
      rw [bounds] at isRange
      cases isRange]
    rfl
  | some pair =>
    obtain ⟨lo, hi⟩ := pair
    dsimp only
    have active : src.Active c.number ↔ lo ≤ c.number ∧ c.number ≤ hi := by
      constructor
      · intro active
        obtain ⟨lo', hi', isRange, within⟩ := range.mpr ⟨active, inside⟩
        rw [bounds] at isRange
        cases isRange
        exact within
      · intro within
        exact (range.mp ⟨lo, hi, bounds, within⟩).1
    rw [metAt_flatMap, L1.between, List.filterMap_eq_flatMap_toList, List.flatMap_assoc,
      flatMap_of_single (x := c.number) (List.nodup_range' 1) ?_]
    · rw [L1.getElem?_number member]
      simp only [List.mem_range'_1, Option.toList_some, List.flatMap_cons, List.flatMap_nil,
        List.append_nil, metAt_selections, if_pos (And.intro late here)]
      have same : (lo ≤ c.number ∧ c.number < lo + (hi + 1 - lo)) ↔ src.Active c.number := by
        rw [active]
        omega
      simp only [same]
    · -- another block of the same slot would be the same block
      intro n _ other
      cases found : chain.blocks[n]? with
      | none => rfl
      | some d =>
        simp only [Option.toList_some, List.flatMap_cons, List.flatMap_nil, List.append_nil,
          metAt_selections]
        refine if_neg fun both => other ?_
        have same : d = c := single d (List.mem_of_getElem? found) c member both.1 late
          (both.2.trans here.symm)
        rw [← same, chain.numbered n d found]

theorem metAt_metBy_none (nothing : chain.blockAt cfg.genesisTime cfg.secondsPerSlot slot = none)
    (src : Source) : metAt (metBy cfg chain first last src) slot = [] := by
  unfold metBy
  cases src.activeRange first last with
  | none => rfl
  | some bounds =>
    rw [metAt_flatMap, List.flatMap_eq_nil_iff]
    intro c inside
    rw [metAt_selections, if_neg]
    intro both
    have missing := List.find?_eq_none.mp nothing c (L1.mem_of_between inside)
    simp [both] at missing

theorem L1.blockAt_some {genesisTime secondsPerSlot slot : Nat}
    (found : chain.blockAt genesisTime secondsPerSlot slot = some c) :
    c ∈ chain.blocks ∧ genesisTime ≤ c.time ∧ c.slot genesisTime secondsPerSlot = slot :=
  ⟨List.mem_of_find?_eq_some found, by simpa using List.find?_some found⟩

include follow

theorem scan_rowAt {rows : List RefRow}
    (single : chain.OnePerSlot cfg.genesisTime cfg.secondsPerSlot)
    (done : scan cfg reads first last = .ok rows)
    (inside : ∀ c, chain.blockAt cfg.genesisTime cfg.secondsPerSlot slot = some c →
      first ≤ c.number ∧ c.number ≤ last) :
    rowAt rows slot = chain.row cfg.genesisTime cfg.secondsPerSlot cfg.sources slot := by
  unfold scan at done
  obtain ⟨b, built, done⟩ := bind_ok_iff.mp done
  rw [foldlM_adds (fun src _ b b' ran => scanSource_adds follow ran) built] at done
  rw [← pure_ok_iff.mp done, rowAt_scan, metAt_flatMap]
  unfold L1.row
  cases found : chain.blockAt cfg.genesisTime cfg.secondsPerSlot slot with
  | none =>
    have none : (cfg.sources.flatMap fun src => metAt (metBy cfg chain first last src) slot) = [] :=
      List.flatMap_eq_nil_iff.mpr fun src _ => metAt_metBy_none found src
    rw [none]
    rfl
  | some c =>
    obtain ⟨member, late, here⟩ := L1.blockAt_some found
    have each := metAt_metBy single member late here (inside c found)
    simp only [each]
    unfold ChainBlock.row activeAt
    congr 1
    induction cfg.sources with
    | nil => rfl
    | cons s rest ih =>
      rw [List.flatMap_cons, ih]
      by_cases active : s.Active c.number <;> simp [active]

end Scan

/-! ### Where a pass begins -/

section Resume

variable {Blob : Type} {cfg : Config} {chain : L1} {schedule : Cid → List Source}
variable {reads : Reads Blob}

variable {r n m latest : Nat}

/-- A search that ends has found the border of what it was told. -/
theorem search_border {f : Nat → Except String Bool} {P : Nat → Prop}
    (tells : ∀ i v, f i = .ok v → (v = true ↔ P i)) (mono : ∀ i j, i ≤ j → P i → P j)
    {fuel i j : Nat} (enough : j - i ≤ fuel) (le : i ≤ j) (below : ∀ k < i, ¬ P k)
    (above : ∀ k, j ≤ k → k < n → P k) (done : search f fuel i j = .ok r) :
    (∀ k < r, ¬ P k) ∧ (∀ k, r ≤ k → k < n → P k) ∧ r ≤ j := by
  induction fuel generalizing i j with
  | zero =>
    have same : i = j := by omega
    subst same
    cases done
    exact ⟨below, above, Nat.le_refl _⟩
  | succ fuel ih =>
    unfold search at done
    split at done
    · split at done
      · cases done
      · rename_i found
        have later : ∀ k, (i + j) / 2 ≤ k → k < n → P k :=
          fun k ge _ => mono _ _ ge ((tells _ _ found).mp rfl)
        obtain ⟨low, high, bound⟩ := ih (by omega) (by omega) below later done
        exact ⟨low, high, by omega⟩
      · rename_i missed
        have earlier : ∀ k < (i + j) / 2 + 1, ¬ P k := by
          intro k lt held
          exact absurd ((tells _ _ missed).mpr (mono k _ (by omega) held)) (by simp)
        obtain ⟨low, high, bound⟩ := ih (by omega) (by omega) earlier above done
        exact ⟨low, high, bound⟩
    · have same : i = j := by omega
      subst same
      cases done
      exact ⟨below, above, Nat.le_refl _⟩

theorem L1.time_le {b c : ChainBlock} (found : chain.blocks[m]? = some b)
    (found' : chain.blocks[n]? = some c) (le : m ≤ n) : b.time ≤ c.time := by
  rcases Nat.lt_or_eq_of_le le with lt | rfl
  · exact Nat.le_of_lt (chain.increasing m n b c found found' lt)
  · cases found.symm.trans found'
    exact Nat.le_refl _

def NotBefore (chain : L1) (target n : Nat) : Prop :=
  ∀ b, chain.blocks[n]? = some b → target ≤ b.time

theorem NotBefore.mono {target : Nat} (le : m ≤ n) (held : NotBefore chain target m) :
    NotBefore chain target n := by
  intro c found
  have short : m < chain.blocks.length := by
    have := (List.getElem?_eq_some_iff.mp found).1
    omega
  have there : chain.blocks[m]? = some (chain.blocks[m]) := List.getElem?_eq_getElem short
  exact Nat.le_trans (held _ there) (L1.time_le there found le)

/-- What `blockAtOrAfterSlot` found: no block before it is of the slot's time, and every block
of the search from it on is. -/
theorem blockAtOrAfterSlot_border (follow : reads.Follow chain schedule)
    (found : blockAtOrAfterSlot cfg reads slot latest = .ok r) :
    (∀ k < r, ¬ NotBefore chain (Beacon.uint64 (cfg.genesisTime + slot * cfg.secondsPerSlot)) k) ∧
      (∀ k, r ≤ k → k < searchLength latest →
        NotBefore chain (Beacon.uint64 (cfg.genesisTime + slot * cfg.secondsPerSlot)) k) ∧
      r ≤ searchLength latest := by
  unfold blockAtOrAfterSlot at found
  refine search_border ?_ (fun _ _ => NotBefore.mono) (Nat.le_refl _) (Nat.zero_le _)
    (fun k lt => absurd lt (Nat.not_lt_zero k)) (fun k ge lt => absurd lt (Nat.not_lt.mpr ge)) found
  intro i v answered
  split at answered
  · cases answered
  · rename_i h read
    obtain ⟨b, there, isHeader⟩ := follow.header i h read
    cases answered
    rw [decide_eq_true_eq, ← isHeader]
    constructor
    · intro le c found
      cases there.symm.trans found
      exact le
    · intro held
      exact held b there

theorem blockAtOrAfterSlot_le {slot slot' : Nat} {c : ChainBlock}
    (follow : reads.Follow chain schedule)
    (found : blockAtOrAfterSlot cfg reads slot latest = .ok r) (there : chain.blocks[n]? = some c)
    (late : cfg.genesisTime ≤ c.time) (le : slot ≤ slot')
    (reaches : slot' ≤ c.slot cfg.genesisTime cfg.secondsPerSlot) : r ≤ n := by
  by_contra before
  obtain ⟨low, -, -⟩ := blockAtOrAfterSlot_border follow found
  refine low n (by omega) fun d found' => ?_
  cases there.symm.trans found'
  have wrapped := Beacon.uint64_le (cfg.genesisTime + slot * cfg.secondsPerSlot)
  have placed : slot * cfg.secondsPerSlot ≤ c.time - cfg.genesisTime :=
    calc slot * cfg.secondsPerSlot
        ≤ c.slot cfg.genesisTime cfg.secondsPerSlot * cfg.secondsPerSlot :=
          Nat.mul_le_mul_right _ (Nat.le_trans le reaches)
      _ ≤ c.time - cfg.genesisTime := Nat.div_mul_le_self _ _
  omega

theorem L1.slot_le {b c : ChainBlock} {genesisTime secondsPerSlot : Nat}
    (found : chain.blocks[m]? = some b) (found' : chain.blocks[n]? = some c) (le : m ≤ n) :
    b.slot genesisTime secondsPerSlot ≤ c.slot genesisTime secondsPerSlot :=
  Nat.div_le_div_right (Nat.sub_le_sub_right (L1.time_le found found' le) _)

def Progress.Sound (cfg : Config) (chain : L1) (h : Progress) : Prop :=
  ∃ c, chain.blocks[h.block]? = some c ∧ cfg.genesisTime ≤ c.time ∧
    c.slot cfg.genesisTime cfg.secondsPerSlot = h.slot

def Ahead (cfg : Config) (chain : L1) (start first : Nat) : Prop :=
  ∀ n c, chain.blocks[n]? = some c → cfg.genesisTime ≤ c.time →
    start ≤ c.slot cfg.genesisTime cfg.secondsPerSlot → first ≤ n

theorem resume_ahead {hint : Option Progress} {syncedTo : Option Nat} {first : Nat}
    (follow : reads.Follow chain schedule) (sound : ∀ h, hint = some h → h.Sound cfg chain)
    (resumed : resume cfg reads hint syncedTo latest = .ok first) :
    Ahead cfg chain (resumeAt cfg.originSlot syncedTo) first := by
  intro n c found late reaches
  unfold resume at resumed
  split at resumed
  · rename_i h kept
    obtain ⟨isHint, here⟩ := Option.filter_eq_some_iff.mp kept
    cases resumed
    obtain ⟨e, at_hint, -, slot⟩ := sound h isHint
    have synced : syncedTo = some h.slot := by simpa using here
    have wrapped := Beacon.uint64_le (h.block + 1)
    by_contra before
    have earlier : n ≤ h.block := by omega
    have slots : c.slot cfg.genesisTime cfg.secondsPerSlot ≤
      e.slot cfg.genesisTime cfg.secondsPerSlot := L1.slot_le found at_hint earlier
    rw [synced] at reaches
    simp only [resumeAt] at reaches
    omega
  · refine blockAtOrAfterSlot_le follow resumed found late ?_ reaches
    cases syncedTo with
    | none => exact Nat.le_refl _
    | some s => exact Beacon.uint64_le _

end Resume

/-! ### The contract -/

section Contract

variable {Blob : Type} {cfg : Config} {chain : L1} {schedule : Cid → List Source}
variable {reads : Reads Blob}

def Runs (cfg : Config) (schedule : Cid → List Source) (tip : Cid) : Prop :=
  schedulesEqual (schedule tip) cfg.sources = true

variable {tip : Cid} {p : ScanPlan} {f : Scanned}

variable (follow : reads.Follow chain schedule)
include follow

theorem checkSchedule_runs {i : Nat} (checked : checkSchedule cfg (reads.manifest i) = .ok tip) :
    Runs cfg schedule tip := by
  unfold checkSchedule at checked
  obtain ⟨published, read, checked⟩ := bind_ok_iff.mp checked
  cases published with
  | none => cases checked
  | some info =>
    dsimp only at checked
    split at checked
    · rename_i same
      obtain rfl := pure_ok_iff.mp checked
      rw [follow.manifest i info.1 info.2 read] at same
      exact same
    · cases checked

theorem started_runs {verified : Option Cid} {tip : Cid}
    (ok : (match verified with
      | some tip => .ok tip
      | none => checkSchedule cfg (reads.manifest 0) : Except String Cid) = .ok tip)
    (sound : ∀ tip, verified = some tip → Runs cfg schedule tip) : Runs cfg schedule tip := by
  cases verified with
  | some old =>
    cases ok
    exact sound tip rfl
  | none => exact checkSchedule_runs follow ok

theorem reconcile_runs {verified : Option Cid}
    (sound : ∀ tip, verified = some tip → Runs cfg schedule tip) :
    (∀ tip, (reconcile cfg reads verified).1 = some tip → Runs cfg schedule tip) ∧
      ∀ tip, (reconcile cfg reads verified).2 = .ok tip → Runs cfg schedule tip := by
  unfold reconcile
  dsimp only
  split
  · exact ⟨fun tip none => (by cases none), fun tip none => (by cases none)⟩
  · rename_i tip isTip
    have runs := started_runs follow isTip sound
    split
    · exact ⟨fun t same => Option.some.inj same ▸ runs, fun t none => (by cases none)⟩
    · split
      · exact ⟨fun t same => Option.some.inj same ▸ runs, fun t same => Except.ok.inj same ▸ runs⟩
      · split
        · exact ⟨fun t none => (by cases none), fun t none => (by cases none)⟩
        · rename_i next checked
          have moved := checkSchedule_runs follow checked
          exact ⟨fun t same => Option.some.inj same ▸ moved, fun t same => Except.ok.inj same ▸ moved⟩

omit follow

structure ScanPlan.Sound (cfg : Config) (chain : L1) (schedule : Cid → List Source) (p : ScanPlan) :
    Prop where
  ahead : Ahead cfg chain p.start p.firstBlock
  runs : Runs cfg schedule p.tip

include follow in
theorem step_sound {hint : Option Progress} {syncedTo : Option Nat} (runs : Runs cfg schedule tip)
    (sound : ∀ h, hint = some h → h.Sound cfg chain)
    (planned : step cfg reads tip hint syncedTo = .ok (some p)) :
    p.start = resumeAt cfg.originSlot syncedTo ∧ p.Sound cfg chain schedule := by
  unfold step at planned
  obtain ⟨latest, -, planned⟩ := bind_ok_iff.mp planned
  cases latest with
  | none => cases pure_ok_iff.mp planned
  | some latest =>
    dsimp only at planned
    split at planned
    · cases planned
    obtain ⟨first, resumed, planned⟩ := bind_ok_iff.mp planned
    split at planned
    · cases pure_ok_iff.mp planned
    · cases pure_ok_iff.mp planned
      exact ⟨rfl, resume_ahead follow sound resumed, runs⟩

/-- What a schedule that the head names says of a slot; a head without a manifest has no rows. -/
def rules (chain : L1) (schedule : Cid → List Source) (genesisTime secondsPerSlot : Nat) :
    Option Cid → Nat → List VersionedHash → Prop
  | none, _, _ => False
  | some tip, slot, vhs => vhs = chain.row genesisTime secondsPerSlot (schedule tip) slot

def ScannedAt (cfg : Config) (chain : L1) (reads : Reads Blob) (slot : Nat)
    (vhs : List VersionedHash) : Prop :=
  ∃ first last rows, scan cfg reads first last = .ok rows ∧ vhs = rowAt rows slot ∧
    ∀ c, chain.blockAt cfg.genesisTime cfg.secondsPerSlot slot = some c →
      first ≤ c.number ∧ c.number ≤ last

theorem Runs.row_eq (runs : Runs cfg schedule tip) (slot : Nat) :
    chain.row cfg.genesisTime cfg.secondsPerSlot cfg.sources slot =
      chain.row cfg.genesisTime cfg.secondsPerSlot (schedule tip) slot := by
  unfold L1.row
  cases chain.blockAt cfg.genesisTime cfg.secondsPerSlot slot with
  | none => rfl
  | some c => exact (ChainBlock.row_alike (schedulesEqual_alike runs c.number)).symm

theorem ScannedAt.row_eq {vhs : List VersionedHash} (scanned : ScannedAt cfg chain reads slot vhs)
    (follow : reads.Follow chain schedule)
    (single : chain.OnePerSlot cfg.genesisTime cfg.secondsPerSlot) (runs : Runs cfg schedule tip) :
    vhs = chain.row cfg.genesisTime cfg.secondsPerSlot (schedule tip) slot := by
  obtain ⟨first, last, rows, done, rfl, inside⟩ := scanned
  rw [scan_rowAt follow single done inside, runs.row_eq]

theorem Ahead.inside {start first lastBlock slot : Nat} {last c : ChainBlock}
    (ahead : Ahead cfg chain start first)
    (single : chain.OnePerSlot cfg.genesisTime cfg.secondsPerSlot)
    (found : chain.blocks[lastBlock]? = some last) (late : cfg.genesisTime ≤ last.time)
    (ge : start ≤ slot) (le : slot ≤ last.slot cfg.genesisTime cfg.secondsPerSlot)
    (at_slot : chain.blockAt cfg.genesisTime cfg.secondsPerSlot slot = some c) :
    first ≤ c.number ∧ c.number ≤ lastBlock := by
  obtain ⟨member, lateC, here⟩ := L1.blockAt_some at_slot
  have there := L1.getElem?_number member
  refine ⟨ahead _ c there lateC (here.symm ▸ ge), ?_⟩
  by_contra past
  have slots : last.slot cfg.genesisTime cfg.secondsPerSlot ≤
    c.slot cfg.genesisTime cfg.secondsPerSlot := L1.slot_le found there (by omega)
  -- a later block of no later slot would be the last one itself
  have isLast := single last (List.mem_of_getElem? found) c member late lateC (by omega)
  rw [← isLast, chain.numbered _ _ found] at past
  exact past (Nat.le_refl _)

structure Scanned.Sound (cfg : Config) (chain : L1) (schedule : Cid → List Source)
    (reads : Reads Blob) (f : Scanned) : Prop where
  last : ∀ slot, f.reached = some slot → Progress.Sound cfg chain { slot, block := f.lastBlock }
  tells : ∀ slot, f.reached = some slot → Tells (ScannedAt cfg chain reads) f.start slot f.rows
  runs : Runs cfg schedule f.tip

include follow in
theorem scanRange_sound (single : chain.OnePerSlot cfg.genesisTime cfg.secondsPerSlot)
    (sound : p.Sound cfg chain schedule) (done : scanRange cfg reads p = .ok f) :
    f.start = p.start ∧ f.Sound cfg chain schedule reads := by
  unfold scanRange at done
  obtain ⟨rows, scanned, done⟩ := bind_ok_iff.mp done
  obtain ⟨h, read, done⟩ := bind_ok_iff.mp done
  obtain ⟨target, placed, done⟩ := bind_ok_iff.mp done
  obtain rfl := pure_ok_iff.mp done
  obtain ⟨last, found, isHeader⟩ := follow.header _ _ read
  obtain ⟨late, isSlot⟩ := slotOf_ok placed
  rw [← isHeader] at late isSlot
  have reached : ∀ slot, (if target < cfg.originSlot then none else some target) = some slot →
      slot = last.slot cfg.genesisTime cfg.secondsPerSlot := by
    intro slot same
    split at same
    · cases same
    · exact (Option.some.inj same).symm.trans isSlot
  refine ⟨rfl, fun slot same => ?_, fun slot same s ge le => ?_, sound.runs⟩
  · exact ⟨last, found, late, (reached slot same).symm⟩
  · exact ⟨_, _, rows, scanned, rfl, fun c at_slot =>
      sound.ahead.inside single found late ge (reached slot same ▸ le) at_slot⟩

theorem prepare_batch {b : Batch} (ready : prepare cfg reads f = .ok (some b)) :
    f.reached = some b.last ∧ b.start = f.start ∧ b.rows = f.rows ∧ b.expectedManifest = some f.tip := by
  unfold prepare at ready
  split at ready
  · cases pure_ok_iff.mp ready
  · rename_i target reached
    obtain ⟨go, -, ready⟩ := bind_ok_iff.mp ready
    split at ready
    · cases pure_ok_iff.mp ready
      exact ⟨reached, rfl, rfl, rfl⟩
    · cases pure_ok_iff.mp ready

def Memory.Sound (cfg : Config) (chain : L1) (schedule : Cid → List Source) (m : Memory) : Prop :=
  (∀ tip, m.manifestTip = some tip → Runs cfg schedule tip) ∧
    ∀ h, m.hint = some h → h.Sound cfg chain

def chainContract (cfg : Config) (chain : L1) (schedule : Cid → List Source)
    (single : chain.OnePerSlot cfg.genesisTime cfg.secondsPerSlot)
    {truth : Option Cid → Nat → List VersionedHash → Prop} {reach : Nat → Prop}
    {honest : Errand → Reads Blob → Prop}
    (follows : ∀ errand reads, honest errand reads → reads.Follow chain schedule)
    (sees : ∀ reads tip, honest .scanning reads → Runs cfg schedule tip → ∀ slot vhs,
      ScannedAt cfg chain reads slot vhs → truth (some tip) slot vhs)
    (reaches : ∀ c ∈ chain.blocks, cfg.genesisTime ≤ c.time →
      reach (c.slot cfg.genesisTime cfg.secondsPerSlot)) :
    Contract (@chainIndexer Blob cfg) cfg.originSlot truth reach honest where
  Memory := Memory.Sound cfg chain schedule
  Plan p start := p.start = start ∧ p.Sound cfg chain schedule
  Fetched f start := f.start = start ∧ ∃ reads, honest .scanning reads ∧
    f.Sound cfg chain schedule reads
  fresh := ⟨fun tip none => (by cases none), fun h none => (by cases none)⟩
  plan m syncedTo reads fair sound := by
    obtain ⟨kept, runs⟩ := reconcile_runs (follows _ reads fair) sound.1
    unfold chainIndexer plan
    dsimp only
    split
    · rename_i manifestTip e reconciled
      rw [reconciled] at kept
      exact ⟨⟨kept, sound.2⟩, fun p none => (by cases none)⟩
    · rename_i manifestTip tip reconciled
      rw [reconciled] at kept runs
      refine ⟨⟨kept, sound.2⟩, fun p ready => ?_⟩
      have planned : step cfg reads tip m.hint syncedTo = .ok (some p) := ok_of_join ready
      obtain ⟨start, good⟩ := step_sound (follows _ reads fair) (runs tip rfl) sound.2 planned
      exact ⟨p.start, Nat.le_of_eq start, rfl, good⟩
  fetch p start reads f fair good fetched := by
    obtain ⟨isStart, sound⟩ := good
    obtain ⟨same, kept⟩ := scanRange_sound (follows _ reads fair) single sound (ok_of_toOption fetched)
    exact ⟨same.trans isStart, reads, fair, kept⟩
  batch f start late b _ good isBatch := by
    obtain ⟨isStart, reads, fair, sound⟩ := good
    obtain ⟨reached, start, rows, tip⟩ := prepare_batch (ok_of_join isBatch)
    refine ⟨start.trans isStart, reached, ?_, fun _ => ?_⟩
    · rw [tip, rows, start]
      exact fun slot ge le => sees reads f.tip fair sound.runs slot _
        (sound.tells b.last reached slot ge le)
    · obtain ⟨c, found, after, slot⟩ := sound.last b.last reached
      have isLast : c.slot cfg.genesisTime cfg.secondsPerSlot = b.last := slot
      exact isLast ▸ reaches c (List.mem_of_getElem? found) after
  next f start p good next := by cases next
  settle m f start last kept good reached := by
    obtain ⟨-, reads, -, sound⟩ := good
    refine ⟨kept.1, fun h noted => ?_⟩
    obtain ⟨slot, isReached, rfl⟩ := Option.map_eq_some_iff.mp noted
    exact sound.last slot isReached

end Contract

/-! ### Any number of chain indexers -/

section Runs

variable {ι ι' Blob : Type} [DecidableEq ι] [DecidableEq ι']

/-- The events of chain indexers whose nodes follow the chain, under one manifest and with no
truncation. -/
def Scanning (chain : L1) (schedule : Cid → List Source) (cfgs : ι → Config) :
    Event (fun i => @chainIndexer Blob (cfgs i)) → Prop
  | .plan _ reads | .fetch _ reads | .fetchAhead _ reads | .post _ reads =>
    Reads.Follow chain schedule reads
  | .truncate _ | .setManifest _ => False
  | _ => True

structure Shared (genesisTime secondsPerSlot originSlot : Nat) (cfg : Config) : Prop where
  genesisTime : cfg.genesisTime = genesisTime
  secondsPerSlot : cfg.secondsPerSlot = secondsPerSlot
  originSlot : cfg.originSlot = originSlot

variable {genesisTime secondsPerSlot originSlot : Nat}

variable {chain : L1}

theorem chainContract_shared {cfg : Config}
    (shared : Shared genesisTime secondsPerSlot originSlot cfg) (schedule : Cid → List Source)
    (single : chain.OnePerSlot genesisTime secondsPerSlot) :
    Nonempty (Contract (@chainIndexer Blob cfg) originSlot
      (rules chain schedule genesisTime secondsPerSlot)
      (fun slot => ∃ c ∈ chain.blocks, genesisTime ≤ c.time ∧ c.slot genesisTime secondsPerSlot = slot)
      (fun _ reads => reads.Follow chain schedule)) := by
  obtain ⟨rfl, rfl, rfl⟩ := shared
  refine ⟨chainContract cfg chain schedule single (fun _ _ follow => follow) ?_ ?_⟩
  · intro reads tip follow runs slot vhs scanned
    exact scanned.row_eq follow single runs
  · intro c member late
    exact ⟨c, member, late, rfl⟩

variable {cfgs : ι → Config} {s : System fun i => @chainIndexer Blob (cfgs i)}

theorem scanning_tip {schedule : Cid → List Source} {tip : Option Cid}
    (reached : System.Reaches originSlot (fun _ e => Scanning chain schedule cfgs e)
      (System.fresh _ tip) s) : s.tip = tip := by
  induction reached with
  | refl => rfl
  | step before met taken ih =>
    refine (System.step_tip ?_ taken).trans ih
    rintro other rfl
    exact met

theorem scanning_records {schedule : Cid → List Source}
    (single : chain.OnePerSlot genesisTime secondsPerSlot)
    (shared : ∀ i, Shared genesisTime secondsPerSlot originSlot (cfgs i)) {tip : Cid}
    (reached : System.Reaches originSlot (fun _ e => Scanning chain schedule cfgs e)
      (System.fresh _ (some tip)) s) (slot : Nat) (covers : s.log.Covers originSlot slot) :
    s.log.hashes slot = chain.row genesisTime secondsPerSlot (schedule tip) slot := by
  let honest : (i : ι) → Errand → (@chainIndexer Blob (cfgs i)).Reads → Prop :=
    fun _ _ reads => Reads.Follow chain schedule reads
  let contracts := fun i =>
    Classical.choice (@chainContract_shared Blob _ _ _ _ _ (shared i) schedule single)
  have fair : System.Reaches originSlot
      (System.Fair originSlot (rules chain schedule genesisTime secondsPerSlot) honest)
      (System.fresh _ (some tip)) s := by
    refine reached.mono fun state e scanning => ?_
    cases e with
    | truncate | setManifest => exact scanning.elim
    | _ => exact scanning
  have records := (fair.sound (System.sound_fresh contracts (some tip))).records slot covers
  rw [scanning_tip reached] at records
  exact records

theorem L1.row_slot (single : chain.OnePerSlot genesisTime secondsPerSlot) {c : ChainBlock}
    (member : c ∈ chain.blocks) (late : genesisTime ≤ c.time) (sources : List Source) :
    chain.row genesisTime secondsPerSlot sources (c.slot genesisTime secondsPerSlot) =
      c.row sources := by
  unfold L1.row
  cases found : chain.blockAt genesisTime secondsPerSlot (c.slot genesisTime secondsPerSlot) with
  | none =>
    have missing := List.find?_eq_none.mp found c member
    simp [late] at missing
  | some d =>
    obtain ⟨inChain, lateD, here⟩ := L1.blockAt_some found
    rw [single d inChain c member lateD late here]

/-- A chain head is its schedule's filter of the chain, however many indexers write it and
however they partition, repeat and abandon their scans: each covered slot has what the sources
select of its block, each block of a covered slot is in it, and heads that end alike are alike. -/
theorem chain_head_is_filter {chain : L1} {schedule : Cid → List Source}
    {genesisTime secondsPerSlot originSlot : Nat}
    (single : chain.OnePerSlot genesisTime secondsPerSlot) {tip : Cid}
    {cfgs : ι → Config} (shared : ∀ i, Shared genesisTime secondsPerSlot originSlot (cfgs i))
    {s : System fun i => @chainIndexer Blob (cfgs i)}
    (reached : System.Reaches originSlot (fun _ e => Scanning chain schedule cfgs e)
      (System.fresh _ (some tip)) s)
    {cfgs' : ι' → Config} (shared' : ∀ i, Shared genesisTime secondsPerSlot originSlot (cfgs' i))
    {s' : System fun i => @chainIndexer Blob (cfgs' i)}
    (reached' : System.Reaches originSlot (fun _ e => Scanning chain schedule cfgs' e)
      (System.fresh _ (some tip)) s') :
    (∀ slot, s.log.Covers originSlot slot →
      s.log.hashes slot = chain.row genesisTime secondsPerSlot (schedule tip) slot) ∧
    (∀ c ∈ chain.blocks, genesisTime ≤ c.time →
      s.log.Covers originSlot (c.slot genesisTime secondsPerSlot) →
      s.log.hashes (c.slot genesisTime secondsPerSlot) = c.row (schedule tip)) ∧
    (s.log.synced = s'.log.synced → ∀ slot, s.log.Covers originSlot slot →
      s.log.hashes slot = s'.log.hashes slot) := by
  have records := scanning_records single shared reached
  refine ⟨records, fun c member late covers => ?_, fun synced slot covers => ?_⟩
  · rw [records _ covers, L1.row_slot single member late]
  · have covers' : s'.log.Covers originSlot slot := by
      obtain ⟨ge, last, isLast, le⟩ := covers
      exact ⟨ge, last, synced ▸ isLast, le⟩
    rw [records slot covers, scanning_records single shared' reached' slot covers']

/-! ### Two blocks -/

def sampleTip : Cid :=
  { version := 1, codec := dagCBOR, hash := { code := sha2_256, length := 32, digest := ⟨0⟩ } }

/-- An inbox that logs its batches, and an account that is written to directly. -/
def sampleSources : List Source :=
  [{ type := .inboxEvents, address := 5, topic := 6, senders := [], fromBlock := 0
     untilBlock := 0, openEnded := true },
   { type := .blobTxs, address := 1, topic := 0, senders := [2], fromBlock := 1
     untilBlock := 9, openEnded := false }]

def sampleTx : Tx :=
  { hash := 7, type := 3, recipient := some 1, sender := .ok 2, blobHashes := [sampleHash] }

def sampleLog : Log :=
  { address := 5, topics := [6], blockNumber := 1, txHash := 7, txIndex := 0, blockHash := 11
    index := 0, removed := false }

def sampleBlocks : List ChainBlock :=
  [{ hash := 10, block := { header := { number := 0, time := 100 }, transactions := [] }, logs := [] },
   { hash := 11, block := { header := { number := 1, time := 105 }, transactions := [sampleTx] }
     logs := [sampleLog] }]

/-- Both sources select the one batch; its hash is in the row once. -/
def sampleL1 : L1 where
  blocks := sampleBlocks
  numbered n b found := by
    match n with
    | 0 | 1 => cases found; rfl
    | n + 2 => cases found
  increasing m n b c found found' lt := by
    match m, n with
    | 0, 1 => cases found; cases found'; decide
    | 0, 0 | 1, 0 | 1, 1 => omega
    | m + 2, _ => cases found
    | _, n + 2 => cases found'
  hashed := by simp [sampleBlocks]
  signed := by simp [sampleBlocks]
  logged := by simp [sampleBlocks, ChainBlock.number, sampleLog, sampleTx]
  ordered := by simp [sampleBlocks]

theorem sampleL1_single : sampleL1.OnePerSlot 100 2 := by
  intro b member c member' _ _ same
  have here : b ∈ sampleBlocks := member
  have there : c ∈ sampleBlocks := member'
  simp only [sampleBlocks, List.mem_cons, List.not_mem_nil, or_false] at here there
  rcases here with rfl | rfl <;> rcases there with rfl | rfl
  · rfl
  · cases same
  · cases same
  · rfl

def sampleConfig : Config :=
  { originSlot := 0, sources := sampleSources, genesisTime := 100, secondsPerSlot := 2
    fetchBlobs := false, blockRange := 1000, rpcBatchSize := 1, maxPutBlobs := 64 }

def sampleReads : Reads Unit where
  manifest _ := .ok (some (sampleTip, sampleSources))
  latest := .ok (some { number := 1, time := 105 })
  header n := ((sampleBlocks[n]?).map fun b => b.block.header).elim (.error "not found") .ok
  headerByHash x :=
    ((sampleBlocks.find? fun b => b.hash = x).map fun b => b.block.header).elim (.error "not found") .ok
  filterLogs lo hi address topic :=
    .ok ((sampleL1.between lo hi).flatMap fun b => b.logsOf address topic)
  transactionByHash x := if x = 7 then .ok (sampleTx, false) else .error "not found"
  blockByNumber n := .ok ((sampleBlocks[n]?).map ChainBlock.block)
  blobs _ := .unknown
  putBlobs _ _ := .error "unused"
  allSyncedTo := .ok (some 9)

theorem ok_of_elim {α : Type} {x : Option α} {e : String} {a : α}
    (found : x.elim (.error e) .ok = (.ok a : Except String α)) : x = some a := by
  cases x with
  | none => cases found
  | some b => rw [Except.ok.inj found]

theorem sampleReads_follow : sampleReads.Follow sampleL1 (fun _ => sampleSources) where
  manifest i tip sources read := by
    cases read
    rfl
  latest h read := by
    cases read
    exact ⟨_, rfl, rfl⟩
  header n h read := by
    obtain ⟨b, found, isHeader⟩ := Option.map_eq_some_iff.mp (ok_of_elim read)
    exact ⟨b, found, isHeader⟩
  headerByHash x h read := by
    obtain ⟨b, found, isHeader⟩ := Option.map_eq_some_iff.mp (ok_of_elim read)
    exact ⟨b, List.mem_of_find?_eq_some found, by simpa using List.find?_some found, isHeader⟩
  filterLogs lo hi address topic logs read := by
    cases read
    exact .refl _
  transactionByHash x tx pending read := by
    simp only [sampleReads] at read
    split at read
    · rename_i isTx
      cases read
      exact ⟨_, List.mem_cons_of_mem _ List.mem_cons_self, List.mem_cons_self, isTx.symm⟩
    · cases read
  blockByNumber n block read _ := by
    obtain ⟨b, found, isBlock⟩ := Option.map_eq_some_iff.mp (Except.ok.inj read)
    exact ⟨b, found, isBlock⟩

def sampleScan : List (Event fun _ : Unit => @chainIndexer Unit sampleConfig) :=
  [.plan () sampleReads, .fetch () sampleReads, .post () sampleReads,
    .deliver 0 { start := 0, last := 2, rows := [⟨2, [sampleHash]⟩]
                 expectedManifest := some sampleTip },
    .acknowledge ()]

theorem chain_head_is_filter_sample :
    ∃ s, System.run 0 sampleScan (System.fresh _ (some sampleTip)) = some s ∧
      s.log.synced = some 2 ∧
      ∀ slot, s.log.Covers 0 slot → s.log.hashes slot = sampleL1.row 100 2 sampleSources slot := by
  have synced : (System.run 0 sampleScan (System.fresh _ (some sampleTip))).map
      (fun s => s.log.synced) = some (some 2) := by decide +kernel
  obtain ⟨s, ran, isSynced⟩ := Option.map_eq_some_iff.mp synced
  have reached : System.Reaches 0 (fun _ e => Scanning sampleL1 (fun _ => sampleSources)
      (fun _ => sampleConfig) e) (System.fresh _ (some sampleTip)) s := by
    refine .of_run (fun e member _ => ?_) ran
    simp only [sampleScan, List.mem_cons, List.not_mem_nil, or_false] at member
    rcases member with rfl | rfl | rfl | rfl | rfl
    · exact sampleReads_follow
    · exact sampleReads_follow
    · exact sampleReads_follow
    · trivial
    · trivial
  have shared : ∀ _ : Unit, Shared 100 2 0 sampleConfig := fun _ => ⟨rfl, rfl, rfl⟩
  exact ⟨s, ran, isSynced, (chain_head_is_filter sampleL1_single shared reached shared reached).1⟩

end Runs

end Bloar.Chain
