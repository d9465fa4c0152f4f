import Bloar.Schema

/-!
The filter schedule of a chain head: an ordered list of sources, each with a range of L1
blocks. A schedule may be replaced by one that treats every block up to a position alike.
-/

namespace Bloar.Chain

abbrev Address := BitVec 160

abbrev Hash := BitVec 256

/-- `SourceType`, which is a string in the configuration. -/
inductive SourceType where
  | inboxEvents
  | blobTxs
  | other (name : String)
  deriving DecidableEq, Repr

structure Source where
  type : SourceType
  address : Address
  topic : Hash
  senders : List Address
  fromBlock : Nat
  untilBlock : Nat
  openEnded : Bool
  deriving DecidableEq, Repr

def Source.activeRange (s : Source) (first last : Nat) : Option (Nat × Nat) :=
  let lo := max s.fromBlock first
  let hi := if s.openEnded then last else min s.untilBlock last
  if hi < lo then none else some (lo, hi)

def Source.senderAllowed (s : Source) (addr : Address) : Bool := s.senders.any fun a => a == addr

def Source.Active (s : Source) (block : Nat) : Prop :=
  s.fromBlock ≤ block ∧ (s.openEnded = false → block ≤ s.untilBlock)

instance (s : Source) (block : Nat) : Decidable (s.Active block) :=
  inferInstanceAs (Decidable (_ ∧ _))

theorem Source.activeRange_mem (s : Source) (first last block : Nat) :
    (∃ lo hi, s.activeRange first last = some (lo, hi) ∧ lo ≤ block ∧ block ≤ hi) ↔
      s.Active block ∧ first ≤ block ∧ block ≤ last := by
  unfold Source.activeRange Source.Active
  cases s.openEnded <;> simp only [Bool.false_eq_true, if_false, if_true] <;> constructor
  · rintro ⟨lo, hi, range, ge, le⟩
    split at range
    · cases range
    · cases range
      omega
  · rintro ⟨⟨starts, ends⟩, ge, le⟩
    have ends := ends trivial
    exact ⟨_, _, if_neg (by omega), by omega, by omega⟩
  · rintro ⟨lo, hi, range, ge, le⟩
    split at range
    · cases range
    · cases range
      exact ⟨⟨by omega, fun no => by cases no⟩, by omega, le⟩
  · rintro ⟨⟨starts, ends⟩, ge, le⟩
    exact ⟨_, _, if_neg (by omega), by omega, by omega⟩

/-! ### `ValidateSources` -/

def emptyAllowlistReason : String :=
  "anyone can send a blob transaction to any address, so a blob-txs source with no " ++
  "sender allowlist is a write handle to the head that any third party holds, and a head is a claim about what a " ++
  "specific sequencer posted, which an unrestricted EOA source cannot make (spec 10.4)"

def validateSource (i : Nat) (s : Source) : Except String Unit := do
  if s.address = 0 then .error s!"chain: source {i} has a zero address"
  match s.type with
  | .inboxEvents =>
    if s.topic = 0 then .error s!"chain: source {i} is inbox-events with a zero topic"
  | .blobTxs =>
    if s.senders = [] then
      .error s!"chain: source {i} is blob-txs with an empty sender allowlist: {emptyAllowlistReason}"
  | .other name =>
    .error (s!"chain: source {i} has unknown type \"{name}\"; " ++
      "want \"inbox-events\" or \"blob-txs\"")
  if s.openEnded = false ∧ s.untilBlock < s.fromBlock then
    let untilBlock := s.untilBlock
    let fromBlock := s.fromBlock
    .error s!"chain: source {i} has until_block {untilBlock} before from_block {fromBlock}"

def validateEach : Nat → List Source → Except String Unit
  | _, [] => pure ()
  | i, s :: rest => do
      validateSource i s
      validateEach (i + 1) rest

/-- The loop of `requireContiguous` over the later sources: `coveredMax` is covered without
a hole, by the source `left`. -/
def contiguousFrom : Nat → Nat → List (Nat × Source) → Except String Unit
  | _, _, [] => pure ()
  | left, coveredMax, (i, s) :: rest =>
    if coveredMax < s.fromBlock ∧ 1 < s.fromBlock - coveredMax then
      let lo := coveredMax + 1
      let hi := s.fromBlock - 1
      .error (s!"chain: sources {left} and {i} leave L1 blocks {lo}..{hi} uncovered, a gap between two covered " ++
        "ranges (spec 10.4): the scan advances synced_to across those blocks while selecting no batch, so every " ++
        "blob this chain posted in them is recorded as a permanent, false 404 that replay and followers then " ++
        "inherit. Overlap adjacent sources to hand off between them; a gap is refused")
    else if s.openEnded then pure ()
    else if coveredMax < s.untilBlock then contiguousFrom i s.untilBlock rest
    else contiguousFrom left coveredMax rest

def requireContiguous (sources : List Source) : Except String Unit :=
  let order := ((List.range sources.length).zip sources).insertionSort
    fun a b => a.2.fromBlock ≤ b.2.fromBlock
  match order with
  | [] => pure ()
  | (left, s) :: rest => if s.openEnded then pure () else contiguousFrom left s.untilBlock rest

def validateSources (sources : List Source) : Except String Unit :=
  if sources = [] then .error "chain: a head needs at least one source (spec 10.4)"
  else do
    validateEach 0 sources
    requireContiguous sources

/-! ### `ValidateUpgrade` -/

def recoveryOrder : String :=
  "to change a rule the head's position has already covered, move the position back first: " ++
  "truncate the head to before the affected range, publish the corrected manifest, then resync (spec 10.5)"

def coveredSources (sources : List Source) (position : Nat) : List Source :=
  sources.filter fun s => s.fromBlock ≤ position

def coveredEnd (s : Source) (position : Nat) : Nat :=
  if s.openEnded then position else min s.untilBlock position

def sameCoveredGround (c p : Source) (position : Nat) : Except String Unit :=
  if c.type ≠ p.type then .error "type changed"
  else if c.address ≠ p.address then .error "address changed"
  else if c.fromBlock ≠ p.fromBlock then
    let was := c.fromBlock
    let now := p.fromBlock
    .error s!"from_block changed from {was} to {now}"
  else if c.type = .inboxEvents ∧ c.topic ≠ p.topic then .error "topic changed"
  else if c.type = .blobTxs ∧ c.senders ≠ p.senders then .error "sender allowlist changed"
  else if coveredEnd c position ≠ coveredEnd p position then
    let was := coveredEnd c position
    let now := coveredEnd p position
    .error (s!"the covered range shrank: it now ends at L1 block {now}, was {was} (an until_block may move only " ++
      "while still ahead of the position)")
  else pure ()

/-- The loop of `ValidateUpgrade` over the covered sources, pairwise. -/
def validateCovered (position : Nat) : Nat → List Source → List Source → Except String Unit
  | i, c :: current, p :: proposed =>
    match sameCoveredGround c p position with
    | .error reason =>
      .error (s!"chain: the proposed schedule rewrites source {i}, which has covered L1 block {position} or " ++
        s!"earlier: {reason}. {recoveryOrder}")
    | .ok _ => validateCovered position (i + 1) current proposed
  | _, _, _ => pure ()

def validateUpgrade (current proposed : List Source) (position : Nat) : Except String Unit :=
  let cCov := coveredSources current position
  let pCov := coveredSources proposed position
  if cCov.length ≠ pCov.length then
    let now := pCov.length
    let was := cCov.length
    .error (s!"chain: the proposed schedule changes the sources covering L1 block {position} or earlier " ++
      s!"({now} covered sources, was {was}): a source that has covered ground is immutable (spec 10.4). {recoveryOrder}")
  else validateCovered position 0 cCov pCov

def sameSource (a b : Source) : Bool :=
  a.type = b.type ∧ a.address = b.address ∧ a.fromBlock = b.fromBlock ∧ a.openEnded = b.openEnded ∧
    (a.openEnded = false → a.untilBlock = b.untilBlock) ∧
    (a.type = .inboxEvents → a.topic = b.topic) ∧ (a.type = .blobTxs → a.senders = b.senders)

def schedulesEqual : List Source → List Source → Bool
  | [], [] => true
  | a :: as, b :: bs => sameSource a b && schedulesEqual as bs
  | _, _ => false

/-! ### What two schedules have in common -/

/-- The sources select the same transactions of a block: what `type` does not read may differ. -/
structure Alike (a b : Source) : Prop where
  type : a.type = b.type
  address : a.address = b.address
  topic : a.type = .inboxEvents → a.topic = b.topic
  senders : a.type = .blobTxs → a.senders = b.senders

def activeAt (sources : List Source) (block : Nat) : List Source :=
  sources.filter fun s => s.Active block

theorem sameSource_alike {a b : Source} (same : sameSource a b = true) :
    Alike a b ∧ ∀ block, a.Active block ↔ b.Active block := by
  simp only [sameSource, decide_eq_true_eq] at same
  obtain ⟨type, address, starts, openEnded, ends, topic, senders⟩ := same
  refine ⟨⟨type, address, topic, senders⟩, fun block => ?_⟩
  unfold Source.Active
  rw [starts, openEnded]
  refine and_congr_right fun _ => ?_
  constructor
  · intro bounded closed
    have same := ends (openEnded.trans closed)
    exact same ▸ bounded closed
  · intro bounded closed
    have same := ends (openEnded.trans closed)
    exact same ▸ bounded closed

theorem activeAt_alike {as bs : List Source} {block : Nat}
    (pairs : List.Forall₂ (fun a b => Alike a b ∧ (a.Active block ↔ b.Active block)) as bs) :
    List.Forall₂ Alike (activeAt as block) (activeAt bs block) := by
  unfold activeAt
  induction pairs with
  | nil => exact .nil
  | cons pair rest ih =>
    rename_i a b as bs
    obtain ⟨alike, actives⟩ := pair
    by_cases active : a.Active block
    · rw [List.filter_cons_of_pos (by simpa using active),
        List.filter_cons_of_pos (by simpa using actives.mp active)]
      exact .cons alike ih
    · rw [List.filter_cons_of_neg (by simpa using active),
        List.filter_cons_of_neg (by simpa using fun held => active (actives.mpr held))]
      exact ih

theorem schedulesEqual_pairs {as bs : List Source} (same : schedulesEqual as bs = true) :
    List.Forall₂ (fun a b => sameSource a b = true) as bs := by
  induction as generalizing bs with
  | nil =>
    cases bs with
    | nil => exact .nil
    | cons b rest => cases same
  | cons a rest ih =>
    cases bs with
    | nil => cases same
    | cons b others =>
      simp only [schedulesEqual, Bool.and_eq_true] at same
      exact .cons same.1 (ih same.2)

theorem schedulesEqual_alike {as bs : List Source} (same : schedulesEqual as bs = true)
    (block : Nat) : List.Forall₂ Alike (activeAt as block) (activeAt bs block) := by
  refine activeAt_alike ((schedulesEqual_pairs same).imp fun a b pair => ?_)
  obtain ⟨alike, actives⟩ := sameSource_alike pair
  exact ⟨alike, actives block⟩

section Upgrade

variable {c p : Source} {position block : Nat}

theorem active_iff_coveredEnd (s : Source) (behind : block ≤ position) :
    s.Active block ↔ s.fromBlock ≤ block ∧ block ≤ coveredEnd s position := by
  unfold Source.Active coveredEnd
  cases s.openEnded
  · simp only [Bool.false_eq_true, if_false, true_implies]
    omega
  · simp [behind]

theorem sameCoveredGround_ok (same : sameCoveredGround c p position = .ok ()) :
    Alike c p ∧ c.fromBlock = p.fromBlock ∧ coveredEnd c position = coveredEnd p position := by
  unfold sameCoveredGround at same
  split at same
  · cases same
  split at same
  · cases same
  split at same
  · cases same
  split at same
  · cases same
  split at same
  · cases same
  split at same
  · cases same
  rename_i type address starts topic senders ends
  simp only [ne_eq, not_not, not_and] at type address starts topic senders ends
  exact ⟨⟨type, address, topic, senders⟩, starts, ends⟩

theorem validateCovered_ok {i : Nat} {current proposed : List Source}
    (length : current.length = proposed.length)
    (valid : validateCovered position i current proposed = .ok ()) :
    List.Forall₂ (fun c p => sameCoveredGround c p position = .ok ()) current proposed := by
  induction current generalizing i proposed with
  | nil =>
    cases proposed with
    | nil => exact .nil
    | cons p rest => cases length
  | cons c rest ih =>
    cases proposed with
    | nil => cases length
    | cons p others =>
      simp only [validateCovered] at valid
      split at valid
      · cases valid
      · rename_i same
        exact .cons same (ih (Nat.succ.inj length) valid)

theorem activeAt_covered (sources : List Source) (behind : block ≤ position) :
    activeAt sources block = activeAt (coveredSources sources position) block := by
  unfold activeAt coveredSources
  rw [List.filter_filter]
  refine List.filter_congr fun s _ => ?_
  by_cases active : s.Active block
  · have starts := active.1
    simp [active, Nat.le_trans starts behind]
  · simp [active]

/-- A legal upgrade treats every block up to the position alike. -/
theorem validateUpgrade_alike {current proposed : List Source}
    (valid : validateUpgrade current proposed position = .ok ()) (behind : block ≤ position) :
    List.Forall₂ Alike (activeAt current block) (activeAt proposed block) := by
  simp only [validateUpgrade] at valid
  split at valid
  · cases valid
  · rename_i length
    rw [not_not] at length
    rw [activeAt_covered current behind, activeAt_covered proposed behind]
    refine activeAt_alike ((validateCovered_ok length valid).imp fun c p same => ?_)
    obtain ⟨alike, starts, ends⟩ := sameCoveredGround_ok same
    refine ⟨alike, ?_⟩
    rw [active_iff_coveredEnd c behind, active_iff_coveredEnd p behind, starts, ends]

end Upgrade

end Bloar.Chain
