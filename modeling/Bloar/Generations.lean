import Bloar.Publication
import Bloar.Apply

/-!
Complete mutable generations: the request that selects one, the durable record of the one
selected, and what both are checked for.
-/

namespace Bloar.Server
open Ipld Schema Archive

/-! ### Requests -/

def hexBytes : List (Fin 16) → List UInt8
  | high :: low :: rest => UInt8.ofNat (16 * high.val + low.val) :: hexBytes rest
  | _ => []

/-- `parseVH`: the prefix is optional. -/
def parseVH (raw : String) : Option VersionedHash :=
  let digits :=
    match raw.toList with
    | '0' :: 'x' :: rest => rest
    | rest => rest
  (digits.mapM hexValue).bind fun digits =>
    if width : digits.length = 64 ∧ (hexBytes digits).length = 32 then
      some ⟨hexBytes digits, width.2⟩
    else none

structure GenerationRow where
  slot : Nat
  versionedHashes : List String
  deriving DecidableEq, Repr

structure GenerationRequest where
  expectedGeneration : Nat
  windowStart : Nat
  syncedTo : Nat
  rows : List GenerationRow
  sourceHeadRoot : String
  sourceFinalizedSlot : Nat
  sourceFinalizedRoot : String
  observedHandoffRoot : RootText
  observedHandoffSyncedTo : Nat
  deriving DecidableEq, Repr

/-- `normalizedGeneration`: the claim of a request, whatever its spelling. -/
structure NormalizedGeneration where
  windowStart : Nat
  syncedTo : Nat
  rows : List RefRow
  sourceHeadRoot : BeaconRoot
  sourceFinalizedSlot : Nat
  sourceFinalizedRoot : BeaconRoot
  observedHandoffRoot : Cid
  observedHandoffSyncedTo : Nat
  deriving DecidableEq

def normalizeRow (i : Nat) (row : GenerationRow) : Except String RefRow :=
  match row.versionedHashes.mapM parseVH with
  | some vhs => .ok { slot := row.slot, vhs }
  | none =>
    let slot := row.slot
    .error s!"row {i} (slot {slot}): versioned hash is not 32 hex-encoded bytes"

def normalizeRows : Nat → List GenerationRow → Except String (List RefRow)
  | _, [] => .ok []
  | i, row :: rest => do
      let first ← normalizeRow i row
      let others ← normalizeRows (i + 1) rest
      pure (first :: others)

/-- `normalizeGeneration`, without the digest. -/
def normalizeGeneration (req : GenerationRequest) : Except String NormalizedGeneration :=
  match parseBeaconRoot req.sourceHeadRoot with
  | none => .error "source_head_root: not a 0x-prefixed 32-byte beacon block root"
  | some sourceHeadRoot =>
    match parseBeaconRoot req.sourceFinalizedRoot with
    | none => .error "source_finalized_root: not a 0x-prefixed 32-byte beacon block root"
    | some sourceFinalizedRoot =>
      match req.observedHandoffRoot.decode with
      | none => .error "observed_handoff_root: not a CID"
      | some observedHandoffRoot => do
          let rows ← normalizeRows 0 req.rows
          pure {
            windowStart := req.windowStart, syncedTo := req.syncedTo, rows, sourceHeadRoot
            sourceFinalizedSlot := req.sourceFinalizedSlot, sourceFinalizedRoot
            observedHandoffRoot, observedHandoffSyncedTo := req.observedHandoffSyncedTo }

/-! ### The durable record -/

/-- `GenerationState`; generation 0 is a baseline of the kind only. -/
structure GenerationState where
  v : Nat
  kind : HeadKind
  generation : Nat
  requestDigest : String
  root : RootText
  windowStart : Nat
  syncedTo : Nat
  sourceHeadRoot : String
  sourceHeadSlot : Nat
  sourceFinalizedSlot : Nat
  sourceFinalizedRoot : String
  observedHandoffRoot : RootText
  observedHandoffSyncedTo : Nat
  handoffHead : String
  handoffRoot : RootText
  handoffSyncedTo : Nat
  deriving DecidableEq, Repr

def legacyGenerationStateVersion : Nat := 1
def generationStateVersion : Nat := 2

def GenerationState.baseline (kind : HeadKind) : GenerationState :=
  { v := generationStateVersion, kind, generation := 0, requestDigest := "", root := .empty
    windowStart := 0, syncedTo := 0, sourceHeadRoot := "", sourceHeadSlot := 0
    sourceFinalizedSlot := 0, sourceFinalizedRoot := "", observedHandoffRoot := .empty
    observedHandoffSyncedTo := 0, handoffHead := "", handoffRoot := .empty, handoffSyncedTo := 0 }

def validDigest (digest : String) : Bool :=
  digest.toList.length == 64 && digest.toList.all fun c => (hexValue c).isSome

def generationChecks (name : String) (st : GenerationState) : List (Bool × String) :=
  let generation := st.generation
  let current := st.v == generationStateVersion
  let observed := st.observedHandoffSyncedTo
  let handoff := st.handoffSyncedTo
  let start := st.windowStart
  let finalized := st.sourceFinalizedSlot
  [(st.kind == .unfinalizedMutable,
      s!"server: finalized head \"{name}\" has mutable generation {generation}"),
    (validDigest st.requestDigest,
      s!"server: head \"{name}\" generation {generation} has invalid request digest"),
    (st.root.decode.isSome, s!"server: head \"{name}\" generation {generation} has invalid root"),
    (st.handoffRoot.decode.isSome,
      s!"server: head \"{name}\" generation {generation} has invalid handoff_root"),
    (!current || st.observedHandoffRoot.decode.isSome,
      s!"server: head \"{name}\" generation {generation} has invalid observed_handoff_root"),
    (!current || decide (observed ≤ handoff),
      s!"server: head \"{name}\" generation {generation} observed handoff {observed} is above commit handoff {handoff}"),
    (!current || !(observed == handoff && st.observedHandoffRoot != st.handoffRoot),
      s!"server: head \"{name}\" generation {generation} changed handoff root without advancing its frontier"),
    ((parseBeaconRoot st.sourceHeadRoot).isSome,
      s!"server: head \"{name}\" generation {generation} has invalid source_head_root"),
    ((parseBeaconRoot st.sourceFinalizedRoot).isSome,
      s!"server: head \"{name}\" generation {generation} has invalid source_finalized_root"),
    (decide (st.windowStart ≤ st.syncedTo),
      s!"server: head \"{name}\" generation {generation} ends before its window starts"),
    (st.sourceHeadSlot == st.syncedTo,
      s!"server: head \"{name}\" generation {generation} source head slot differs from synced_to"),
    (decide (st.sourceFinalizedSlot ≤ st.sourceHeadSlot),
      s!"server: head \"{name}\" generation {generation} finalized source slot {finalized} is above head slot"),
    (st.handoffHead != "", s!"server: head \"{name}\" generation {generation} has no handoff head"),
    (!current || decide (handoff ≤ finalized),
      s!"server: head \"{name}\" generation {generation} handoff coverage {handoff} is above source finalized slot {finalized}"),
    (!(decide (handoff < start) && decide (1 < start - handoff)),
      s!"server: head \"{name}\" generation {generation} window starts at {start} beyond handoff coverage {handoff}")]

def validateGenerationState (name : String) (st : GenerationState) : Except String Unit := do
  let v := st.v
  let kind := st.kind.text
  requireAll [
    (st.v == legacyGenerationStateVersion || st.v == generationStateVersion,
      s!"server: head \"{name}\" generation state version is {v}, want 2 or legacy 1"),
    (st.kind == .finalizedMonotonic || st.kind == .unfinalizedMutable,
      s!"server: head \"{name}\" generation state has unknown kind \"{kind}\"")]
  requireAll (if st.generation = 0 then [] else generationChecks name st)

structure HeadPolicy where
  kind : HeadKind
  handoffHead : String
  maxWindowSlots : Nat
  deriving DecidableEq, Repr

end Bloar.Server
