import Bloar.Generations
import Bloar.HeadLog

/-!
The registry of heads: an immutable snapshot that is replaced as a whole. What makes a mutable
head servable is derived from the snapshot: its proof must join the finalized head that is in
the registry now, in the same line of appends.
-/

namespace Bloar.Server
open Ipld Schema Archive
/-! ### Heads -/

inductive Applied where
  | noOp
  | root (c : Cid)

/-- What the roots of heads name, and what the engine makes of them. A root is the hash of all
that it names; an operation of the engine that is not defined has failed. -/
structure Index where
  params : Cid → Params
  syncedTo : Cid → Option Nat
  row : Cid → Nat → List RefEntry
  dirDepth : Cid → Nat
  applyRefs : Cid → List RefRow → Nat → Option Applied
  truncate : Cid → Nat → Option Cid
  buildGeneration : Params → List RefRow → Nat → Option Cid

variable (idx : Index)

def headEntry (c : Cid) (manifestTip : Link) : HeadEntry :=
  let params := idx.params c
  { name := params.name, root := .cid c, originSlot := params.originSlot, syncedTo := idx.syncedTo c
    segBits := params.segBits, fanoutBits := params.fanoutBits, dirDepth := idx.dirDepth c
    manifest := .ofLink manifestTip, kind := .omitted, windowStart := none, sourceHeadRoot := ""
    sourceFinalizedSlot := none, sourceFinalizedRoot := "", handoffHead := "", handoffRoot := .empty
    handoffSyncedTo := none }

def headEntryKind (c : Cid) (manifestTip : Link) (kind : HeadKind) : HeadEntry :=
  let e := headEntry idx c manifestTip
  if kind = .unfinalizedMutable then { e with kind, windowStart := some (idx.params c).originSlot }
  else e

def headEntryGeneration (c : Cid) (st : GenerationState) : HeadEntry :=
  { headEntryKind idx c none .unfinalizedMutable with
    sourceHeadRoot := st.sourceHeadRoot, sourceFinalizedSlot := some st.sourceFinalizedSlot
    sourceFinalizedRoot := st.sourceFinalizedRoot, handoffHead := st.handoffHead
    handoffRoot := st.handoffRoot, handoffSyncedTo := some st.handoffSyncedTo }

/-! ### Entries -/

/-- The identity of a line of appends; a rewrite takes a new one. -/
abbrev Lineage := Nat

/-- `entry`; `Source` is where blobs of followed heads are read from. -/
structure Entry (Source : Type) where
  head : Cid
  blobs : Option Source
  manifestTip : Link
  durable : Option HeadEntry
  followed : Bool
  quarantine : String
  republish : Bool
  kind : HeadKind
  generation : Nat
  lineage : Option Lineage
  proof : Option GenerationState
  proofLineage : Option Lineage
  handoffWitness : Option HeadEntry
  metadataHandoff : Bool
  proofValid : Bool
  bindRestartProof : Bool

variable {Source : Type}

def Entry.name (e : Entry Source) : String := (idx.params e.head).name

def matchesProof (head : Cid) (line : HeadEntry) (proof : GenerationState) : Bool :=
  let params := idx.params head
  line.kind == .unfinalizedMutable && line.name == params.name && line.root == .cid head &&
    line.root == proof.root && line.originSlot == params.originSlot &&
    line.originSlot == proof.windowStart && line.syncedTo == idx.syncedTo head &&
    line.syncedTo == some proof.syncedTo && line.segBits == params.segBits &&
    line.fanoutBits == params.fanoutBits && line.dirDepth == idx.dirDepth head &&
    line.manifest.isEmpty && line.windowStart == some proof.windowStart &&
    line.sourceHeadRoot == proof.sourceHeadRoot &&
    line.sourceFinalizedSlot == some proof.sourceFinalizedSlot &&
    line.sourceFinalizedRoot == proof.sourceFinalizedRoot && line.handoffHead == proof.handoffHead &&
    !line.handoffRoot.isEmpty && line.handoffSyncedTo.isSome

def metadataHandoffValid (e : Entry Source) (line : HeadEntry) (proof : GenerationState) : Bool :=
  match e.handoffWitness with
  | none => false
  | some witness =>
    e.metadataHandoff && witness.effectiveKind == .finalizedMonotonic && witness.syncedTo.isSome &&
      witness.windowStart.isNone && witness.proofless && witness.name == proof.handoffHead &&
      witness.root == proof.handoffRoot && witness.syncedTo == some proof.handoffSyncedTo &&
      line.handoffHead == witness.name && line.handoffRoot == witness.root &&
      line.handoffSyncedTo.isSome && line.handoffSyncedTo == witness.syncedTo

/-- The finalized frontier of a usable handoff: a served finalized entry with a lineage. -/
def Entry.frontier (e : Entry Source) : Option Nat :=
  match e.durable with
  | none => none
  | some line =>
    if e.quarantine = "" ∧ e.kind = .finalizedMonotonic ∧
        line.effectiveKind = .finalizedMonotonic ∧ e.lineage.isSome then line.syncedTo
    else none

/-- The part of `mutableProofValid` about a handoff that is in the registry. -/
def handoffValid (e : Entry Source) (proof : GenerationState) (handoff : Entry Source) : Bool :=
  match handoff.frontier with
  | none => false
  | some frontier =>
    e.proofLineage.isSome && handoff.lineage == e.proofLineage &&
      decide (proof.handoffSyncedTo ≤ frontier) && decide (frontier ≤ proof.sourceFinalizedSlot) &&
      (frontier == maxUint64 || decide (proof.windowStart ≤ frontier + 1))

def mutableProofValid (find : String → Option (Entry Source)) (e : Entry Source) : Bool :=
  match e.durable, e.proof with
  | some line, some proof =>
    e.kind == .unfinalizedMutable && proof.v == generationStateVersion &&
      matchesProof idx e.head line proof &&
      match find proof.handoffHead with
      | none => metadataHandoffValid e line proof
      | some handoff => handoffValid e proof handoff
  | _, _ => false

def physicalHandoffMatchesWitness (handoff : Entry Source) (witness : HeadEntry) : Bool :=
  handoff.frontier.isSome && witness.effectiveKind == .finalizedMonotonic && witness.syncedTo.isSome &&
    (handoff.durable.map HeadEntry.root) == some witness.root && handoff.frontier == witness.syncedTo

/-! ### Coherence -/

def bindRestart (find : String → Option (Entry Source)) (e : Entry Source) : Entry Source :=
  match e.bindRestartProof, e.proof with
  | true, some proof =>
    match find proof.handoffHead with
    | none => e
    | some handoff =>
      match handoff.durable with
      | none => e
      | some line =>
        { e with
          bindRestartProof := false
          proofLineage :=
            if line.root = proof.handoffRoot ∧ line.syncedTo = some proof.handoffSyncedTo then
              handoff.lineage
            else e.proofLineage }
  | _, _ => e

/-- The binding of an entry whose handoff was metadata only, once the head itself is there. -/
def bindWitness (find : String → Option (Entry Source)) (e : Entry Source) : Entry Source :=
  match e.metadataHandoff && e.proofLineage.isNone, e.proof, e.handoffWitness with
  | true, some proof, some witness =>
    match find proof.handoffHead with
    | none => e
    | some handoff =>
      if physicalHandoffMatchesWitness handoff witness then { e with proofLineage := handoff.lineage }
      else e
  | _, _, _ => e

def refreshed (find : String → Option (Entry Source)) (e : Entry Source) : Option HeadEntry :=
  match e.durable, e.proof with
  | some line, some proof =>
    match find proof.handoffHead with
    | some handoff =>
      match handoff.durable with
      | some now => some { line with handoffRoot := now.root, handoffSyncedTo := now.syncedTo }
      | none => some line
    | none =>
      match e.handoffWitness with
      | some witness =>
        some { line with handoffRoot := witness.root, handoffSyncedTo := witness.syncedTo }
      | none => some line
  | durable, _ => durable

def cohereEntry (find : String → Option (Entry Source)) (current : Entry Source) : Entry Source :=
  if current.kind = .unfinalizedMutable then
    let e := bindWitness find (bindRestart find current)
    let proofValid := mutableProofValid idx find e
    { e with proofValid, durable := if proofValid then refreshed find e else e.durable }
  else current

structure Registry (idx : Index) (Source : Type) where
  entries : List (Entry Source)
  distinct : (entries.map (Entry.name idx)).Nodup

namespace Registry

variable {idx}

def empty : Registry idx Source := ⟨[], List.nodup_nil⟩

def find (reg : Registry idx Source) (name : String) : Option (Entry Source) :=
  reg.entries.find? fun e => e.name idx == name

def erase (reg : Registry idx Source) (name : String) : Registry idx Source where
  entries := reg.entries.filter fun e => e.name idx != name
  distinct := reg.distinct.sublist (List.filter_sublist.map _)

def insert (reg : Registry idx Source) (e : Entry Source) : Registry idx Source where
  entries := e :: (reg.erase (e.name idx)).entries
  distinct := by
    refine List.nodup_cons.mpr ⟨fun again => ?_, (reg.erase _).distinct⟩
    obtain ⟨other, member, same⟩ := List.mem_map.mp again
    simp [erase, same] at member

theorem cohereEntry_head (find : String → Option (Entry Source)) (e : Entry Source) :
    (cohereEntry idx find e).head = e.head := by
  unfold cohereEntry
  split
  · dsimp only
    unfold bindWitness bindRestart
    repeat' split
    all_goals rfl
  · rfl

def cohere (reg : Registry idx Source) : Registry idx Source where
  entries := reg.entries.map (cohereEntry idx reg.find)
  distinct := by
    have names : (reg.entries.map (cohereEntry idx reg.find)).map (Entry.name idx) =
        reg.entries.map (Entry.name idx) := by
      simp [Function.comp_def, Entry.name, cohereEntry_head]
    rw [names]
    exact reg.distinct

def withEntry (reg : Registry idx Source) (e : Entry Source) : Registry idx Source :=
  (reg.insert e).cohere

/-- An entry that is served: in good standing, durable and, where it is mutable, proven. -/
def servable (e : Entry Source) : Bool :=
  e.quarantine == "" && e.durable.isSome && (e.kind != .unfinalizedMutable || e.proofValid)

def names (reg : Registry idx Source) : List String :=
  ((reg.entries.filter servable).map (Entry.name idx)).insertionSort (· ≤ ·)

/-- The line that an entry has in the document. A finalized kind is not spelled out. -/
def published (e : Entry Source) : Option HeadEntry :=
  if e.republish then
    e.durable.map fun line =>
      if line.effectiveKind = .finalizedMonotonic then { line with kind := .omitted } else line
  else none

def lines (reg : Registry idx Source) : List HeadEntry :=
  reg.names.filterMap fun name => (reg.find name).bind published

def activates (reg : Registry idx Source) : Bool :=
  reg.entries.any fun e => e.durable.isSome && e.republish && e.kind == .unfinalizedMutable

end Registry

end Bloar.Server
