import Bloar.Heads

/-!
`ReplaceGeneration`. The call reads the durable record without the lock, binds the finalized
head it was told of under the lock, builds its snapshot outside of it, and takes the lock again
to compare, commit and expose. The parts between which others may run are separate here.
-/

namespace Bloar.Server
open Ipld Schema Archive
open Fallible (Prog guard ofExcept)

variable {idx : Index} {Source : Type}

structure GenerationResponse where
  generation : Nat
  windowStart : Nat
  syncedTo : Nat
  root : RootText
  noOp : Bool
  deriving DecidableEq, Repr

def generationResponse (st : GenerationState) (noOp : Bool) : GenerationResponse :=
  { generation := st.generation, windowStart := st.windowStart, syncedTo := st.syncedTo
    root := st.root, noOp }

def conflictText (name : String) (expected current : Nat) (reason : String) : String :=
  s!"server: generation conflict for head \"{name}\": expected {expected}, current {current}: {reason}"

/-- `generationStateLocked`, and `GenerationState` after its check of the policy. -/
def generationState (env : Env) (name : String) : Op idx Source GenerationState := do
  let found ← getGeneration env name
  match found with
  | none => Fallible.fail s!"server: mutable head \"{name}\" has no durable kind baseline"
  | some st => do
      guard (st.kind == .unfinalizedMutable)
        s!"server: head \"{name}\" is durably finalized, cannot open it as \"unfinalized-mutable\""
      pure st

def isRetry (digest : String) (req : GenerationRequest) (current : GenerationState) : Bool :=
  req.expectedGeneration != maxUint64 && req.expectedGeneration + 1 == current.generation &&
    current.requestDigest == digest

def invalidGeneration (reason : String) : String := "server: invalid mutable generation: " ++ reason

def requestChecks (policy : HeadPolicy) (req : GenerationRequest) (n : NormalizedGeneration) :
    List (Bool × String) :=
  let start := req.windowStart
  let synced := req.syncedTo
  let finalized := req.sourceFinalizedSlot
  let observed := req.observedHandoffSyncedTo
  let slots := policy.maxWindowSlots
  let count := n.rows.length
  [(decide (start ≤ synced), invalidGeneration s!"window_start {start} is above synced_to {synced}"),
    (decide (synced - start < slots), invalidGeneration s!"generation is above max_window_slots {slots}"),
    (decide (finalized ≤ synced),
      invalidGeneration s!"source_finalized_slot {finalized} is above source head slot/synced_to {synced}"),
    (decide (observed ≤ finalized),
      invalidGeneration s!"observed_handoff_synced_to {observed} is above source_finalized_slot {finalized}"),
    (observed == maxUint64 || decide (start ≤ observed + 1),
      invalidGeneration s!"window_start {start} would leave a gap above observed handoff synced_to {observed}"),
    (decide (count ≤ slots),
      invalidGeneration s!"generation carries {count} blob rows, above max_window_slots {slots}")]

/-! ### Before the first lock -/

inductive Started where
  | retry (n : NormalizedGeneration) (st : GenerationState)
  | build (n : NormalizedGeneration) (generation : Nat)

/-- `ReplaceGeneration` up to its first lock. -/
def replaceStart (digest : NormalizedGeneration → String) (env : Env) (name : String)
    (req : GenerationRequest) : Op idx Source Started := do
  let memory ← getMemory
  let policy := memory.cfg.policy name
  guard (policy.kind.effective == .unfinalizedMutable) s!"server: unknown head: \"{name}\""
  let n ← ofExcept ((normalizeGeneration req).mapError invalidGeneration)
  guard memory.cfg.generations s!"server: mutable head \"{name}\" has no generation store"
  let current ← generationState env name
  let expected := req.expectedGeneration
  let generation := current.generation
  if expected = generation then do
    guard (generation != maxUint64) "server: mutable generation counter exhausted"
    ofExcept (requireAll (requestChecks policy req n))
    pure (.build n generation)
  else do
    guard (isRetry (digest n) req current) (conflictText name expected generation
      "expected_generation is stale or its request differs from the selected generation")
    pure (.retry n current)

/-! ### The handoff -/

def durableHandoff (reg : Registry idx Source) (name : String) (policy : HeadPolicy) (generation : Nat) :
    Except String (Entry Source × HeadEntry × Nat) :=
  let handoffHead := policy.handoffHead
  let conflict (reason : String) := conflictText name generation generation reason
  match reg.find handoffHead with
  | none => .error (conflict s!"handoff head \"{handoffHead}\" has no durable served generation")
  | some handoff =>
    match handoff.durable with
    | none => .error (conflict s!"handoff head \"{handoffHead}\" has no durable served generation")
    | some line =>
      if handoff.quarantine ≠ "" then
        .error (conflict s!"handoff head \"{handoffHead}\" has no durable served generation")
      else if handoff.kind ≠ .finalizedMonotonic ∨ line.effectiveKind ≠ .finalizedMonotonic ∨
          handoff.lineage = none then
        .error (conflict s!"handoff head \"{handoffHead}\" is not a usable finalized-monotonic lineage")
      else
        match line.syncedTo with
        | none => .error (conflict s!"handoff head \"{handoffHead}\" is empty")
        | some frontier => .ok (handoff, line, frontier)

def bindObservedHandoff (reg : Registry idx Source) (name : String) (policy : HeadPolicy)
    (req : GenerationRequest) (generation : Nat) : Except String (Option Lineage) := do
  let (handoff, line, frontier) ← durableHandoff reg name policy generation
  let finalized := req.sourceFinalizedSlot
  let conflict (reason : String) := conflictText name generation generation reason
  requireAll [
    (line.root == req.observedHandoffRoot && frontier == req.observedHandoffSyncedTo,
      conflict "observed handoff is stale"),
    (decide (frontier ≤ req.sourceFinalizedSlot),
      conflict s!"handoff frontier {frontier} is above source_finalized_slot {finalized}")]
  pure handoff.lineage

def validateAdvancedHandoff (reg : Registry idx Source) (name : String) (policy : HeadPolicy)
    (req : GenerationRequest) (generation : Nat) (lineage : Option Lineage) :
    Except String (HeadEntry × Nat) := do
  let (handoff, line, frontier) ← durableHandoff reg name policy generation
  let handoffHead := policy.handoffHead
  let observed := req.observedHandoffSyncedTo
  let finalized := req.sourceFinalizedSlot
  let start := req.windowStart
  let conflict (reason : String) := conflictText name generation generation reason
  requireAll [
    (handoff.lineage == lineage,
      conflict s!"handoff head \"{handoffHead}\" was rewritten while the generation was built"),
    (decide (observed ≤ frontier),
      conflict s!"handoff head \"{handoffHead}\" regressed from observed {observed} to {frontier}"),
    (decide (frontier ≤ finalized),
      conflict s!"handoff frontier {frontier} advanced above source_finalized_slot {finalized}"),
    (frontier == maxUint64 || decide (start ≤ frontier + 1),
      conflict s!"window_start {start} would leave a gap above handoff \"{handoffHead}\" synced_to {frontier}")]
  pure (line, frontier)

/-! ### Under the lock -/

def mutableWritable (name : String) : Op idx Source (Entry Source) := do
  let e ← writable name
  guard (e.kind == .unfinalizedMutable)
    s!"server: head \"{name}\" is finalized; complete generations require \"unfinalized-mutable\""
  pure e

/-- The first lock: the lineage of the handoff, and the parameters of the head. -/
def replaceBind (name : String) (req : GenerationRequest) (generation : Nat) :
    Op idx Source (Option Lineage × Params) := do
  let memory ← getMemory
  let e ← mutableWritable name
  let lineage ← ofExcept (bindObservedHandoff memory.reg name (memory.cfg.policy name) req generation)
  pure (lineage, idx.params e.head)

def generationEntry (idx : Index) (e : Entry Source) (candidate : Cid) (st : GenerationState)
    (lineage : Option Lineage) : Entry Source :=
  { e with head := candidate, manifestTip := none, durable := some (headEntryGeneration idx candidate st)
           generation := st.generation, proof := some st, proofLineage := lineage, proofValid := false
           bindRestartProof := false }

def prospectiveGeneration (keys : Keyring) (env : Env) (name : String) (candidate : Cid)
    (st : GenerationState) (lineage : Option Lineage) :
    Op idx Source (Registry idx Source × Published) := do
  let memory ← getMemory
  let e ← mutableWritable name
  guard (memory.cfg.replacements name) s!"server: mutable head \"{name}\" has no replacement callback"
  let prospective := memory.reg.withEntry (generationEntry idx e candidate st lineage)
  guard ((prospective.find name).any Entry.proofValid)
    (conflictText name (st.generation - 1) (st.generation - 1)
      "candidate does not form a coherent finalized handoff pair")
  let pub ← buildPublication keys env prospective
  pure (prospective, pub)

/-- `GenerationStore.Commit`: the root mirror and the record in one batch. -/
def commitGeneration (env : Env) (name : String) (expected : Nat) (root : Cid) (next : GenerationState) :
    Op idx Source Unit := do
  let found ← getGeneration env name
  match found with
  | none => Fallible.fail s!"server: head \"{name}\" has no durable kind baseline"
  | some cur => do
      let current := cur.generation
      guard (cur.generation == expected) (conflictText name expected current "")
      guard (expected != maxUint64) "server: mutable generation counter exhausted"
      guard (next.generation == expected + 1) "server: internal: generation state is out of order"
      guard (next.kind == cur.kind) s!"server: head \"{name}\" is durably of another kind"
      guard (next.root == .cid root) "server: internal: generation state root differs from selected root"
      ofExcept (validateGenerationState name next)
      write env .generationsWrite s!"server: committing a generation of head \"{name}\""
        fun store => { store with
          roots := Function.update store.roots name (some root)
          generations := Function.update store.generations name (some next) }

def generationPublished (memory : Memory idx Source) (name : String) (st : GenerationState) : Bool :=
  match memory.pub, memory.reg.find name with
  | some pub, some selected =>
    match pub.doc.heads.find? fun line => line.name == name with
    | none => false
    | some line => selected.durable == some line && selected.generation == st.generation &&
        st.root == .cid selected.head && pub.generations.lookup name == some st.generation
  | _, _ => false

def exposeGeneration (keys : Keyring) (env : Env) (name : String) (candidate : Cid)
    (st : GenerationState) : Op idx Source Unit := do
  let memory ← getMemory
  let e ← mutableWritable name
  let lineage ← ofExcept (exposedLineage memory e st)
  let (prospective, pub) ← prospectiveGeneration keys env name candidate st lineage
  install env prospective pub
where
  /-- The lineage in hand, or the one of a handoff that is exactly the durable anchor. -/
  exposedLineage (memory : Memory idx Source) (e : Entry Source) (st : GenerationState) :
      Except String (Option Lineage) :=
    if e.generation = st.generation ∧ e.head = candidate ∧ e.proof.isSome ∧ e.proofLineage.isSome then
      .ok e.proofLineage
    else do
      let (handoff, line, frontier) ←
        durableHandoff memory.reg name (memory.cfg.policy name) st.generation
      requireAll [(line.root == st.handoffRoot && frontier == st.handoffSyncedTo,
        conflictText name st.generation st.generation
          "committed generation cannot be rebound after restart because its exact handoff anchor changed; select a fresh generation")]
      pure handoff.lineage

/-- The engine of an exact retry: the served one, or the snapshot built again. -/
def retryCandidate (env : Env) (name : String) (e : Entry Source) (st : GenerationState)
    (rows : List RefRow) : Op idx Source Cid := do
  if e.generation = st.generation ∧ st.root.decode = some e.head ∧ e.proofValid then pure e.head
  else do
    attempt env .engine (engineFailed name)
    match idx.buildGeneration { idx.params e.head with originSlot := st.windowStart } rows st.syncedTo with
    | none => Fallible.fail (engineFailed name)
    | some candidate => do
        guard (st.root.decode == some candidate)
          s!"server: exact retry rebuilt a generation of head \"{name}\" at another root"
        pure candidate

def finishRetry (keys : Keyring) (env : Env) (name : String) (st : GenerationState)
    (rows : List RefRow) : Op idx Source GenerationResponse := do
  let memory ← getMemory
  let e ← mutableWritable name
  guard st.root.decode.isSome "server: decoding the selected root"
  let candidate ← retryCandidate env name e st rows
  let exposed := e.generation == st.generation && e.proofValid && st.root.decode == some e.head
  if exposed && generationPublished memory name st then pure (generationResponse st true)
  else do
    exposeGeneration keys env name candidate st
    pure (generationResponse st true)

def nextGeneration (digest : NormalizedGeneration → String) (policy : HeadPolicy)
    (n : NormalizedGeneration) (generation : Nat) (candidate : Cid) (line : HeadEntry) (frontier : Nat) :
    GenerationState :=
  { v := generationStateVersion, kind := .unfinalizedMutable, generation := generation + 1
    requestDigest := digest n, root := .cid candidate, windowStart := n.windowStart
    syncedTo := n.syncedTo, sourceHeadRoot := renderBeaconRoot n.sourceHeadRoot
    sourceHeadSlot := n.syncedTo, sourceFinalizedSlot := n.sourceFinalizedSlot
    sourceFinalizedRoot := renderBeaconRoot n.sourceFinalizedRoot
    observedHandoffRoot := .cid n.observedHandoffRoot
    observedHandoffSyncedTo := n.observedHandoffSyncedTo, handoffHead := policy.handoffHead
    handoffRoot := line.root, handoffSyncedTo := frontier }

def selectGeneration (digest : NormalizedGeneration → String) (keys : Keyring) (env : Env)
    (name : String) (req : GenerationRequest) (n : NormalizedGeneration) (lineage : Option Lineage)
    (candidate : Cid) (generation : Nat) : Op idx Source GenerationResponse := do
  let memory ← getMemory
  let policy := memory.cfg.policy name
  let _ ← mutableWritable name
  let (line, frontier) ← ofExcept (validateAdvancedHandoff memory.reg name policy req generation lineage)
  let next := nextGeneration digest policy n generation candidate line frontier
  let (prospective, pub) ← prospectiveGeneration keys env name candidate next lineage
  commitGeneration env name generation candidate next
  install env prospective pub
  pure (generationResponse next false)

/-- `ReplaceGeneration` from the build on. -/
def replaceFinish (digest : NormalizedGeneration → String) (keys : Keyring) (env : Env)
    (name : String) (req : GenerationRequest) (n : NormalizedGeneration) (lineage : Option Lineage)
    (base : Params) : Op idx Source GenerationResponse := do
  attempt env .engine (engineFailed name)
  match idx.buildGeneration { base with originSlot := req.windowStart } n.rows req.syncedTo with
  | none => Fallible.fail (engineFailed name)
  | some candidate => do
      let current ← generationState env name
      let expected := req.expectedGeneration
      let generation := current.generation
      if generation = expected then
        selectGeneration digest keys env name req n lineage candidate generation
      else if isRetry (digest n) req current then finishRetry keys env name current n.rows
      else Fallible.fail (conflictText name expected generation "another generation was selected during the build")

def replaceGeneration (digest : NormalizedGeneration → String) (keys : Keyring) (env : Env)
    (name : String) (req : GenerationRequest) : Op idx Source GenerationResponse := do
  let started ← replaceStart digest env name req
  match started with
  | .retry n st => finishRetry keys env name st n.rows
  | .build n generation => do
      let (lineage, base) ← replaceBind name req generation
      replaceFinish digest keys env name req n lineage base

end Bloar.Server
