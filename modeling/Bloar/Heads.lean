import Bloar.Registry
import Bloar.Writers
import Bloar.Fallible

/-!
`Heads`: the operations that replace the registry, each with the document that it publishes. A
document is rendered and signed before anything durable changes, under a revision that is
burned in the store first; the registry and the document are swapped last.
-/

namespace Bloar.Server
open Ipld Schema Archive Indexing
open Fallible (Prog guard ofExcept)

/-! ### The node -/

structure Store where
  roots : String → Link
  manifests : String → Link
  generations : String → Option GenerationState
  /-- the last revision that the key has burned -/
  revision : Option Nat
  /-- the roots that a follower's own batches have made durable -/
  adopted : String → Link

inductive Deed where
  | signed (doc : Doc)
  | installed (doc : Doc)

/-- What outlives a process: its database, and what was done with documents, the last deed
first. -/
structure Durable where
  store : Store
  history : List Deed

structure HeadsConfig where
  net : String
  multiaddrs : List String
  maxPutBlobs : Nat
  archiveID : Option ArchiveID
  signingKey : Bool
  publications : Bool
  generations : Bool
  manifests : Bool
  blocks : Bool
  generationArchive : Bool
  policies : List (String × HeadPolicy)
  replacements : String → Bool
  /-- neither a gate nor a root hook: nothing else holds on to an engine -/
  unobserved : Bool

/-- `published`: the document, with the generation of each of its lines. -/
structure Published where
  doc : Doc
  generations : List (String × Nat)

structure Memory (idx : Index) (Source : Type) where
  cfg : HeadsConfig
  revisioned : Bool
  reg : Registry idx Source
  pub : Option Published
  /-- the next lineage -/
  lineages : Nat

structure Node (idx : Index) (Source : Type) where
  durable : Durable
  memory : Memory idx Source

inductive Step where
  | revisionRead
  | revisionWrite
  | sign
  | rootsRead
  | rootsWrite
  | generationsRead
  | generationsWrite
  | manifestsRead
  | manifestsWrite
  | blocksWrite
  | engine
  | persist
  /-- not a failure: the process dies right before it swaps the registry -/
  | visible
  deriving DecidableEq

/-- What one operation meets: the clock, the steps that fail, and those of them whose write
takes effect all the same. -/
structure Env where
  now : String
  fails : Step → Bool
  late : Step → Bool

variable {idx : Index} {Source : Type}

abbrev Op (idx : Index) (Source α : Type) := Prog (Node idx Source) String α

def attempt (env : Env) (step : Step) (e : String) : Op idx Source Unit :=
  guard (!env.fails step) e

def Node.mapStore (f : Store → Store) (node : Node idx Source) : Node idx Source :=
  { node with durable := { node.durable with store := f node.durable.store } }

def write (env : Env) (step : Step) (e : String) (f : Store → Store) : Op idx Source Unit :=
  fun node =>
    if env.fails step then (.error e, if env.late step then node.mapStore f else node)
    else (.ok (), node.mapStore f)

def getStore : Op idx Source Store := do
  let node ← Fallible.get
  pure node.durable.store

def getMemory : Op idx Source (Memory idx Source) := do
  let node ← Fallible.get
  pure node.memory

def setMemory (f : Memory idx Source → Memory idx Source) : Op idx Source Unit :=
  Fallible.modify fun node => { node with memory := f node.memory }

def freshLineage : Op idx Source Lineage := fun node =>
  (.ok node.memory.lineages,
    { node with memory := { node.memory with lineages := node.memory.lineages + 1 } })

/-! ### Publication -/

/-- `currentLocked`. -/
def currentRevision (env : Env) : Op idx Source (Option Nat) := do
  attempt env .revisionRead "server: reading publication revision"
  let store ← getStore
  guard (store.revision != some 0) "server: publication revision floor is zero"
  pure store.revision

/-- `PublicationStore.Next`. -/
def nextRevision (env : Env) : Op idx Source Nat := do
  let current ← currentRevision env
  guard (current.getD 0 != maxUint64) "server: publication revision counter exhausted"
  let next := current.getD 0 + 1
  write env .revisionWrite s!"server: writing publication revision {next}"
    fun store => { store with revision := some next }
  pure next

def allocateRevision (env : Env) (revisioned : Bool) : Op idx Source (Option Nat) := do
  if revisioned then do
    let memory ← getMemory
    guard (memory.cfg.signingKey && memory.cfg.publications)
      "server: a durable mutable head requires a signing key and PublicationStore"
    let revision ← nextRevision env
    setMemory fun memory => { memory with revisioned := true }
    pure (some revision)
  else pure none

/-- The document is signed: from here on it exists. -/
def signDocument (keys : Keyring) (env : Env) (u : Unsigned) : Op idx Source Doc := do
  attempt env .sign "server: rendering publication document"
  let memory ← getMemory
  let doc := u.signed keys memory.cfg.signingKey
  Fallible.modify fun node =>
    if memory.cfg.signingKey then
      { node with durable := { node.durable with history := .signed doc :: node.durable.history } }
    else node
  pure doc

def render (cfg : HeadsConfig) (env : Env) (reg : Registry idx Source) (revision : Option Nat) :
    Unsigned :=
  { v := if revision.isSome then
      (if cfg.archiveID.isSome then logicalArchiveDocVersion else docVersion) else legacyDocVersion
    net := cfg.net, archiveID := cfg.archiveID, updatedAt := env.now, multiaddrs := cfg.multiaddrs
    heads := reg.lines, revision }

def refusing (reason : Except String Unit) : Op idx Source Unit :=
  ofExcept (reason.mapError fun e => "server: refusing to publish an invalid document: " ++ e)

def buildPublication (keys : Keyring) (env : Env) (reg : Registry idx Source) :
    Op idx Source Published := do
  let memory ← getMemory
  let revision ← allocateRevision env
    (memory.revisioned || memory.cfg.archiveID.isSome || reg.activates)
  let doc ← signDocument keys env (render memory.cfg env reg revision)
  refusing (validateContract doc)
  pure {
    doc := { doc with maxPutBlobs := memory.cfg.maxPutBlobs }
    generations := reg.entries.map fun e => (e.name idx, e.generation) }

/-- `installPublication`, after the registry that the document is of. -/
def install (env : Env) (reg : Registry idx Source) (pub : Published) : Op idx Source Unit := do
  attempt env .visible "the process died"
  Fallible.modify fun node =>
    { durable := { node.durable with history := .installed pub.doc :: node.durable.history }
      memory := { node.memory with reg, pub := some pub } }

def rebuild (keys : Keyring) (env : Env) : Op idx Source Unit := do
  let memory ← getMemory
  let pub ← buildPublication keys env memory.reg
  install env memory.reg pub

/-! ### `NewHeads` -/

def HeadsConfig.policy (cfg : HeadsConfig) (name : String) : HeadPolicy :=
  match cfg.policies.find? fun p => p.1 == name with
  | some p => p.2
  | none => { kind := .finalizedMonotonic, handoffHead := "", maxWindowSlots := 0 }

def policyChecks (cfg : HeadsConfig) (name : String) (policy : HeadPolicy) : List (Bool × String) :=
  (name != "", "server: HeadsConfig.Policies contains an empty head name") ::
  match policy.kind.effective with
  | .finalizedMonotonic =>
    [(policy.handoffHead == "" && policy.maxWindowSlots == 0,
      s!"server: finalized head policy \"{name}\" carries mutable handoff/window fields")]
  | .unfinalizedMutable =>
    [(cfg.signingKey, s!"server: mutable head \"{name}\" requires HeadsConfig.SigningKey"),
      (cfg.generations, s!"server: mutable head \"{name}\" requires HeadsConfig.Generations"),
      (cfg.publications, s!"server: mutable head \"{name}\" requires HeadsConfig.Publications"),
      (cfg.generationArchive, s!"server: mutable head \"{name}\" requires HeadsConfig.GenerationArchive"),
      (cfg.replacements name,
        s!"server: mutable head \"{name}\" requires a startup-bound HeadsConfig.Replacements callback"),
      (policy.handoffHead != "", s!"server: mutable head \"{name}\" requires a handoff head"),
      (policy.handoffHead != name, s!"server: mutable head \"{name}\" cannot hand off to itself"),
      (policy.maxWindowSlots != 0, s!"server: mutable head \"{name}\" requires a positive max window")]
  | kind =>
    let text := kind.text
    [(false, s!"server: head policy \"{name}\" has unknown kind \"{text}\"")]

def configChecks (cfg : HeadsConfig) : List (Bool × String) :=
  [(cfg.net != "", "server: HeadsConfig.Net must not be empty"),
    (cfg.archiveID != some 0, "server: HeadsConfig.ArchiveID must not be all zeroes"),
    (cfg.archiveID.isNone || cfg.signingKey,
      "server: HeadsConfig.ArchiveID requires HeadsConfig.SigningKey"),
    (cfg.archiveID.isNone || cfg.publications,
      "server: HeadsConfig.ArchiveID requires HeadsConfig.Publications")] ++
  cfg.policies.flatMap fun p => policyChecks cfg p.1 p.2

def getGeneration (env : Env) (name : String) : Op idx Source (Option GenerationState) := do
  guard (name != "") "server: head name must not be empty"
  attempt env .generationsRead s!"server: reading generation state of head \"{name}\""
  let store ← getStore
  match store.generations name with
  | none => pure none
  | some st => do
      ofExcept (validateGenerationState name st)
      pure (some st)

def anySelected (env : Env) : List (String × HeadPolicy) → Op idx Source Bool
  | [] => pure false
  | (name, policy) :: rest =>
    if policy.kind.effective = .unfinalizedMutable then do
      let st ← getGeneration env name
      if st.any fun st => decide (0 < st.generation) then pure true else anySelected env rest
    else anySelected env rest

def restoreLatch (env : Env) (cfg : HeadsConfig) : Op idx Source Unit :=
  if cfg.signingKey && cfg.publications then do
    let current ← currentRevision env
    setMemory fun memory => { memory with revisioned := current.isSome }
  else pure ()

def restoreGenerations (env : Env) (cfg : HeadsConfig) : Op idx Source Unit :=
  if cfg.generations then do
    let selected ← anySelected env cfg.policies
    setMemory fun memory => { memory with revisioned := memory.revisioned || selected }
  else pure ()

def newHeads (keys : Keyring) (env : Env) (cfg : HeadsConfig) : Op idx Source Unit := do
  ofExcept (requireAll (configChecks cfg))
  restoreLatch env cfg
  restoreGenerations env cfg
  rebuild keys env

def Memory.fresh (cfg : HeadsConfig) : Memory idx Source :=
  { cfg, revisioned := false, reg := .empty, pub := none, lineages := 0 }

/-! ### Written heads -/

def ensureKind (env : Env) (name : String) (kind : HeadKind) : Op idx Source GenerationState := do
  let found ← getGeneration env name
  match found with
  | some st => do
      let held := st.kind.text
      let want := kind.text
      guard (st.kind == kind) s!"server: head \"{name}\" is durably \"{held}\", cannot open it as \"{want}\""
      pure st
  | none => do
      attempt env .rootsRead s!"server: checking legacy root of head \"{name}\""
      let store ← getStore
      guard ((store.roots name).isNone || kind == .finalizedMonotonic)
        s!"server: head \"{name}\" is durably \"finalized-monotonic\", cannot open it as \"unfinalized-mutable\""
      write env .generationsWrite s!"server: writing kind baseline of head \"{name}\""
        fun store => { store with
          generations := Function.update store.generations name (some (.baseline kind)) }
      pure (.baseline kind)

def selectionChecks (idx : Index) (policy : HeadPolicy) (head : Cid) (st : GenerationState) :
    List (Bool × String) :=
  let name := (idx.params head).name
  let generation := st.generation
  let mutable := policy.kind.effective == .unfinalizedMutable
  [(!mutable || st.handoffHead == policy.handoffHead,
      s!"server: mutable head \"{name}\" generation {generation} was selected against another handoff"),
    (!mutable || decide (st.windowStart ≤ st.syncedTo ∧ st.syncedTo - st.windowStart < policy.maxWindowSlots),
      s!"server: mutable head \"{name}\" generation {generation} is above current max_window_slots"),
    (st.root.decode == some head,
      s!"server: mutable head \"{name}\" generation {generation} selects another root than the live one"),
    (!mutable || decide ((idx.params head).originSlot = st.windowStart ∧ idx.syncedTo head = some st.syncedTo),
      s!"server: mutable head \"{name}\" generation {generation} does not describe loaded root origin/coverage")]

def resumeGeneration (env : Env) (cfg : HeadsConfig) (head : Cid) :
    Op idx Source (Option GenerationState) := do
  let name := (idx.params head).name
  let policy := cfg.policy name
  if cfg.generations then do
    let st ← ensureKind env name policy.kind.effective
    if 0 < st.generation then do
      ofExcept (requireAll (selectionChecks idx policy head st))
      pure (some st)
    else pure none
  else do
    guard (policy.kind.effective != .unfinalizedMutable)
      s!"server: mutable head \"{name}\" requires a generation store"
    pure none

def readManifestTip (env : Env) (name : String) : Op idx Source Link := do
  let memory ← getMemory
  if memory.cfg.manifests then do
    attempt env .manifestsRead s!"server: reading manifest tip of head \"{name}\""
    let store ← getStore
    pure (store.manifests name)
  else pure none

def Entry.blank (head : Cid) (kind : HeadKind) : Entry Source :=
  { head, blobs := none, manifestTip := none, durable := none, followed := false, quarantine := ""
    republish := true, kind, generation := 0, lineage := none, proof := none, proofLineage := none
    handoffWitness := none, metadataHandoff := false, proofValid := false, bindRestartProof := false }

/-- The entry that `Add` registers; a legacy generation is opened as a recovery source only. -/
def addedEntry (idx : Index) (head : Cid) (tip : Link) (kind : HeadKind) (st : Option GenerationState)
    (lineage : Lineage) : Entry Source :=
  let e : Entry Source :=
    { Entry.blank head kind with manifestTip := tip, generation := (st.map (·.generation)).getD 0 }
  if kind = .finalizedMonotonic then
    { e with durable := some (headEntryKind idx head tip kind), lineage := some lineage }
  else
    match st.filter fun st => st.v == generationStateVersion with
    | some st =>
      { e with durable := some (headEntryGeneration idx head st), proof := some st
               bindRestartProof := true }
    | none => e

def checkNet (cfg : HeadsConfig) (head : Cid) : Op idx Source Unit :=
  let name := (idx.params head).name
  let net := (idx.params head).net
  let ours := cfg.net
  guard ((idx.params head).net == cfg.net)
    s!"server: head \"{name}\" is on net \"{net}\", this node publishes net \"{ours}\""

def add (keys : Keyring) (env : Env) (head : Cid) : Op idx Source Unit := do
  let memory ← getMemory
  let name := (idx.params head).name
  let kind := (memory.cfg.policy name).kind.effective
  checkNet memory.cfg head
  guard (memory.reg.find name).isNone s!"server: head \"{name}\" is already registered"
  attempt env .rootsRead s!"server: reading root of head \"{name}\""
  let store ← getStore
  guard (store.roots name == some head)
    s!"server: head \"{name}\" cannot be registered: its live root is not the persisted one"
  let st ← resumeGeneration env memory.cfg head
  let tip ← readManifestTip env name
  let lineage ← freshLineage
  let prospective := memory.reg.withEntry (addedEntry idx head tip kind st lineage)
  let pub ← buildPublication keys env prospective
  install env prospective pub

def writable (name : String) : Op idx Source (Entry Source) := do
  let memory ← getMemory
  match memory.reg.find name with
  | none => Fallible.fail s!"server: unknown head: \"{name}\""
  | some e => do
      guard (!e.followed) s!"server: head is followed, not written, by this node: \"{name}\""
      pure e

def mutableGenerationOnly : String :=
  "server: unfinalized-mutable head accepts only complete generation replacement"

def replacement (cfg : HeadsConfig) (name : String) : Op idx Source Unit :=
  guard (cfg.replacements name || cfg.unobserved)
    s!"server: writable head \"{name}\" has no infallible replacement callback"

def durableEntryRoot (e : Entry Source) : Op idx Source Cid :=
  match e.durable with
  | none => Fallible.fail "server: writable head has no durable publication root"
  | some line =>
    match line.root.decode with
    | none => Fallible.fail "server: decoding durable root"
    | some root => pure root

def bindingError : BindingError → String
  | .required => "server: expected_manifest is required for a head with a manifest chain"
  | .forbidden => "server: expected_manifest is forbidden for a head with no manifest chain"
  | .conflict => "server: the manifest chain advanced under this writer"

def commitCandidate (env : Env) (name : String) (candidate : Cid) (reg : Registry idx Source)
    (pub : Published) : Op idx Source Unit := do
  write env .rootsWrite s!"server: writing root of head \"{name}\""
    fun store => { store with roots := Function.update store.roots name (some candidate) }
  install env reg pub

def movedEntry (idx : Index) (e : Entry Source) (candidate : Cid) : Entry Source :=
  { e with head := candidate, durable := some (headEntryKind idx candidate e.manifestTip e.kind) }

def engineFailed (name : String) : String := s!"server: the engine of head \"{name}\" refused or failed"

def applyRefs (keys : Keyring) (env : Env) (name : String) (rows : List RefRow) (syncedTo : Nat)
    (expectedManifest : Link) : Op idx Source Cid := do
  let memory ← getMemory
  let e ← writable name
  guard (e.kind != .unfinalizedMutable) mutableGenerationOnly
  ofExcept ((checkManifestBinding e.manifestTip expectedManifest).mapError bindingError)
  replacement memory.cfg name
  let base ← durableEntryRoot e
  attempt env .engine (engineFailed name)
  match idx.applyRefs base rows syncedTo with
  | none => Fallible.fail (engineFailed name)
  | some .noOp => pure base
  | some (.root candidate) => do
      let prospective := memory.reg.withEntry (movedEntry idx e candidate)
      let pub ← buildPublication keys env prospective
      commitCandidate env name candidate prospective pub
      pure candidate

/-- `Truncate`: a rewrite takes a new lineage, a structural no-op does not. -/
def truncate (keys : Keyring) (env : Env) (name : String) (slot : Nat) : Op idx Source Cid := do
  let memory ← getMemory
  let e ← writable name
  guard (e.kind != .unfinalizedMutable) mutableGenerationOnly
  replacement memory.cfg name
  let base ← durableEntryRoot e
  attempt env .engine (engineFailed name)
  match idx.truncate base slot with
  | none => Fallible.fail (engineFailed name)
  | some root =>
    if root = base then pure root
    else do
      let lineage ← freshLineage
      let prospective := memory.reg.withEntry { movedEntry idx e root with lineage := some lineage }
      let pub ← buildPublication keys env prospective
      commitCandidate env name root prospective pub
      pure root

def Entry.underManifest (e : Entry Source) (manifestCID : Cid) : Entry Source :=
  { e with manifestTip := some manifestCID
           durable := e.durable.map fun line => { line with manifest := .cid manifestCID } }

def setHeadManifest (keys : Keyring) (env : Env) (name : String) (manifestCID : Cid) (prev : Link)
    (expectedHeadRoot : Cid) : Op idx Source Unit := do
  let memory ← getMemory
  guard (memory.cfg.manifests && memory.cfg.blocks)
    "server: this node has no manifest store or blockstore configured"
  let e ← writable name
  guard (e.kind != .unfinalizedMutable) mutableGenerationOnly
  guard (e.manifestTip == prev) "server: manifest prev does not match the head's current tip"
  guard (expectedHeadRoot == e.head)
    "server: the head advanced between the append-only preflight and this POST"
  let prospective := memory.reg.withEntry (e.underManifest manifestCID)
  let pub ← buildPublication keys env prospective
  attempt env .blocksWrite "server: storing manifest block"
  write env .manifestsWrite s!"server: writing manifest tip of head \"{name}\""
    fun store => { store with manifests := Function.update store.manifests name (some manifestCID) }
  install env prospective pub

/-- `Quarantine`: local serving stops even where the document cannot be rebuilt. -/
def quarantine (keys : Keyring) (env : Env) (name reason : String) : Op idx Source Unit := do
  let memory ← getMemory
  match memory.reg.find name with
  | none => Fallible.fail s!"server: unknown head: \"{name}\""
  | some old =>
    if old.quarantine ≠ "" then rebuild keys env
    else do
      guard (reason != "") "server: refusing to quarantine a head without a reason"
      setMemory fun memory =>
        { memory with reg := memory.reg.withEntry { old with quarantine := reason } }
      rebuild keys env

/-! ### Followed heads -/

structure Adoption (Source : Type) where
  head : Cid
  blobs : Option Source
  manifestTip : Link
  published : Option HeadEntry
  handoffWitness : Option HeadEntry

def describes (idx : Index) (head : Cid) (manifestTip : Link) (line : HeadEntry) : Bool :=
  let params := idx.params head
  line.name == params.name && line.root == .cid head && line.originSlot == params.originSlot &&
    line.syncedTo == idx.syncedTo head && line.segBits == params.segBits &&
    line.fanoutBits == params.fanoutBits && line.dirDepth == idx.dirDepth head &&
    line.manifest == .ofLink manifestTip

def publishedChecks (idx : Index) (head : Cid) (manifestTip : Link) (line : HeadEntry) :
    List (Bool × String) :=
  let name := (idx.params head).name
  (describes idx head manifestTip line,
    s!"server: publication entry does not exactly describe adopted head \"{name}\"") ::
  match line.effectiveKind with
  | .finalizedMonotonic =>
    [(line.windowStart.isNone && line.proofless,
      s!"server: finalized publication entry for \"{name}\" carries mutable proof fields")]
  | .unfinalizedMutable =>
    [(line.kind == .unfinalizedMutable && line.windowStart.isSome && line.syncedTo.isSome &&
        line.proofComplete,
        s!"server: mutable publication entry for \"{name}\" has incomplete proof fields"),
      (line.handoffHead != name,
        s!"server: mutable publication entry for \"{name}\" names itself as finalized handoff"),
      (line.windowStart == some (idx.params head).originSlot &&
          decide (line.windowStart.getD 0 ≤ line.syncedTo.getD 0) && line.manifest.isEmpty,
        s!"server: mutable publication entry for \"{name}\" has an incoherent window"),
      ((parseBeaconRoot line.sourceHeadRoot).isSome,
        s!"server: mutable publication entry for \"{name}\" has invalid source_head_root"),
      ((parseBeaconRoot line.sourceFinalizedRoot).isSome,
        s!"server: mutable publication entry for \"{name}\" has invalid source_finalized_root"),
      (line.handoffRoot.decode.isSome,
        s!"server: mutable publication entry for \"{name}\" has invalid handoff_root"),
      (decide (line.sourceFinalizedSlot.getD 0 ≤ line.syncedTo.getD 0) &&
          decide (line.handoffSyncedTo.getD 0 ≤ line.sourceFinalizedSlot.getD 0) && line.windowJoins,
        s!"server: mutable publication entry for \"{name}\" has an incoherent handoff proof")]
  | kind =>
    let text := kind.text
    [(false, s!"server: publication entry for \"{name}\" has unknown kind \"{text}\"")]

/-- `validateHandoffWitness`: both lines in a document of their own. -/
def validateHandoffWitness (line witness : HeadEntry) : Except String Unit := do
  let name := line.name
  requireAll [(line.effectiveKind == .unfinalizedMutable,
    s!"server: finalized publication entry \"{name}\" cannot carry a handoff witness")]
  validateContract {
    v := docVersion, net := "adoption", archiveID := none, updatedAt := "", multiaddrs := []
    heads := [line, witness], revision := some 1, pubkey := "authenticated-adoption"
    signature := "authenticated-adoption", maxPutBlobs := 0 }

/-- The parameters that an adoption must keep; a mutable head may move its origin. -/
def sameParams (kind : HeadKind) (a b : Params) : Bool :=
  if kind = .unfinalizedMutable then
    a.name == b.name && a.net == b.net && a.segBits == b.segBits && a.fanoutBits == b.fanoutBits
  else a == b

/-- `validateAdoptLocked`. -/
def adoptChecks (idx : Index) (memory : Memory idx Source) (head : Cid) (manifestTip : Link)
    (kind : HeadKind) : List (Bool × String) :=
  let name := (idx.params head).name
  [(kind == .finalizedMonotonic || kind == .unfinalizedMutable,
      "server: refusing to adopt unknown head kind"),
    ((idx.params head).net == memory.cfg.net, s!"server: head \"{name}\" is on another net"),
    ((memory.cfg.policies.find? fun p => p.1 == name).all fun p => p.2.kind.effective == kind,
      s!"server: head \"{name}\" is configured under another kind"),
    (kind != .unfinalizedMutable || manifestTip.isNone,
      s!"server: refusing mutable head \"{name}\" with finalized manifest tip")] ++
  (match memory.reg.find name with
  | none => []
  | some old =>
    let reason := old.quarantine
    [(old.followed, s!"server: head \"{name}\" is written by this node; it cannot also be followed"),
      (old.quarantine == "", s!"server: head is quarantined: {reason}"),
      (old.kind == kind, s!"server: head \"{name}\" is followed under another kind"),
      (sameParams kind (idx.params head) (idx.params old.head),
        s!"server: refusing to adopt \"{name}\": its parameters are immutable for the life of a head")]) ++
  [(manifestTip.isNone || memory.cfg.manifests,
      s!"server: refusing to adopt \"{name}\" with a manifest tip: this node has no manifest store configured")]

structure Prepared (Source : Type) where
  adoption : Adoption Source
  kind : HeadKind
  line : HeadEntry

def adoptedLine (idx : Index) (a : Adoption Source) : HeadEntry :=
  a.published.getD (headEntryKind idx a.head a.manifestTip .finalizedMonotonic)

def prepareOne (idx : Index) (memory : Memory idx Source) (changed : List String) (i : Nat)
    (a : Adoption Source) : Except String (Prepared Source) := do
  let name := (idx.params a.head).name
  let line := adoptedLine idx a
  let kind := line.effectiveKind
  requireAll [(name ∉ changed, s!"server: head \"{name}\" appears in both/duplicate adoption changes")]
  let about (e : String) : String := s!"server: adoption {i}: " ++ e
  requireAll ((a.published.elim [] (publishedChecks idx a.head a.manifestTip)).map fun c => (c.1, about c.2))
  (a.handoffWitness.elim (.ok ()) (validateHandoffWitness line)).mapError about
  requireAll ((adoptChecks idx memory a.head a.manifestTip kind).map fun c => (c.1, about c.2))
  pure { adoption := a, kind, line }

def prepare (idx : Index) (memory : Memory idx Source) :
    List String → Nat → List (Adoption Source) → Except String (List (Prepared Source))
  | _, _, [] => .ok []
  | changed, i, a :: rest => do
      let first ← prepareOne idx memory changed i a
      let others ← prepare idx memory ((idx.params a.head).name :: changed) (i + 1) rest
      pure (first :: others)

def withdrawalChecks (memory : Memory idx Source) :
    List String → Nat → List String → List (Bool × String)
  | _, _, [] => []
  | changed, i, name :: rest =>
    [(name != "", s!"server: withdrawal {i} has an empty head name"),
      (name ∉ changed, s!"server: head \"{name}\" appears in both/duplicate adoption changes"),
      ((memory.reg.find name).all Entry.followed,
        s!"server: head \"{name}\" is written by this node; it cannot be withdrawn by a follower document")] ++
    withdrawalChecks memory (name :: changed) (i + 1) rest

/-- A withdrawn entry goes; a quarantined one stays as a tombstone. -/
def withdraw (reg : Registry idx Source) (name : String) : Registry idx Source :=
  match reg.find name with
  | none => reg
  | some old =>
    if old.quarantine = "" then reg.erase name
    else reg.insert { old with durable := none, manifestTip := none, proofValid := false }

/-- The lineage of an adopted finalized entry: an exact replay keeps the one before. -/
def adoptedLineage (old : Option (Entry Source)) (head : Cid) (lineage : Lineage) : Lineage :=
  match old with
  | some old =>
    if old.kind = .finalizedMonotonic ∧ old.head = head then old.lineage.getD lineage else lineage
  | none => lineage

/-- The finalized upserts, which the mutable ones bind to; the number is the next lineage. -/
def adoptFinalized (before : Registry idx Source) (state : Registry idx Source × Lineage)
    (p : Prepared Source) : Registry idx Source × Lineage :=
  if p.kind = .finalizedMonotonic then
    let a := p.adoption
    (state.1.insert { (Entry.blank a.head .finalizedMonotonic : Entry Source) with
      blobs := a.blobs, manifestTip := a.manifestTip, followed := true, durable := some p.line
      lineage := some (adoptedLineage (before.find (idx.params a.head).name) a.head state.2) },
      state.2 + 1)
  else state

def adoptedProof (line : HeadEntry) : GenerationState :=
  { v := generationStateVersion, kind := .unfinalizedMutable, generation := 0, requestDigest := ""
    root := line.root, windowStart := line.windowStart.getD 0, syncedTo := line.syncedTo.getD 0
    sourceHeadRoot := line.sourceHeadRoot, sourceHeadSlot := line.syncedTo.getD 0
    sourceFinalizedSlot := line.sourceFinalizedSlot.getD 0
    sourceFinalizedRoot := line.sourceFinalizedRoot, observedHandoffRoot := line.handoffRoot
    observedHandoffSyncedTo := line.handoffSyncedTo.getD 0, handoffHead := line.handoffHead
    handoffRoot := line.handoffRoot, handoffSyncedTo := line.handoffSyncedTo.getD 0 }

/-- The lineage that an adopted mutable entry binds to: its handoff is exactly what it names. -/
def adoptedProofLineage (handoff : Option (Entry Source)) (proof : GenerationState) : Option Lineage :=
  match handoff with
  | none => none
  | some handoff =>
    match handoff.durable with
    | none => none
    | some line =>
      if handoff.kind = .finalizedMonotonic ∧ line.root = proof.handoffRoot ∧
          line.syncedTo = some proof.handoffSyncedTo then handoff.lineage
      else none

def adoptMutable (cfg : HeadsConfig) (reg : Registry idx Source) (p : Prepared Source) :
    Registry idx Source :=
  if p.kind = .unfinalizedMutable then
    let a := p.adoption
    let proof := adoptedProof p.line
    let handoff := reg.find proof.handoffHead
    let metadataHandoff := a.handoffWitness.isSome && handoff.isNone
    reg.insert { (Entry.blank a.head .unfinalizedMutable : Entry Source) with
      blobs := a.blobs, followed := true, durable := some p.line
      republish := cfg.signingKey && cfg.publications && !metadataHandoff
      proof := some proof, proofLineage := adoptedProofLineage handoff proof
      handoffWitness := a.handoffWitness, metadataHandoff }
  else reg

def compose (memory : Memory idx Source) (prepared : List (Prepared Source))
    (withdrawals : List String) : Registry idx Source × Lineage :=
  let withdrawn := withdrawals.foldl withdraw memory.reg
  let finalized := prepared.foldl (adoptFinalized memory.reg) (withdrawn, memory.lineages)
  ((prepared.foldl (adoptMutable memory.cfg) finalized.1).cohere, finalized.2)

def coherentChecks (idx : Index) (reg : Registry idx Source) (prepared : List (Prepared Source)) :
    List (Bool × String) :=
  (prepared.filter fun p => p.kind == .unfinalizedMutable).map fun p =>
    let name := (idx.params p.adoption.head).name
    ((reg.find name).any Entry.proofValid,
      s!"server: mutable adoption \"{name}\" does not form a coherent finalized handoff pair in this batch")

/-- `AdoptBatch`; `persist` is the caller's hook. -/
def adoptBatch (keys : Keyring) (env : Env) (upserts : List (Adoption Source))
    (withdrawals : List String) (persist : Op idx Source Unit) : Op idx Source Unit := do
  let memory ← getMemory
  guard (!(upserts.isEmpty && withdrawals.isEmpty)) "server: empty adoption batch"
  let prepared ← ofExcept (prepare idx memory [] 0 upserts)
  ofExcept (requireAll (withdrawalChecks memory
    (upserts.map fun a => (idx.params a.head).name) 0 withdrawals))
  let (prospective, lineages) := compose memory prepared withdrawals
  setMemory fun memory => { memory with lineages := lineages }
  ofExcept (requireAll (coherentChecks idx prospective prepared))
  let pub ← buildPublication keys env prospective
  persist
  install env prospective pub

def adoptRoots (idx : Index) (upserts : List (Adoption Source)) (adopted : String → Link) :
    String → Link :=
  upserts.foldl (fun adopted a => Function.update adopted (idx.params a.head).name (some a.head)) adopted

def persistBatch (env : Env) (upserts : List (Adoption Source)) : Op idx Source Unit :=
  write env .persist "the follower's batch failed" fun store =>
    { store with adopted := adoptRoots idx upserts store.adopted }

def persistManifest (env : Env) (a : Adoption Source) : Op idx Source Unit := do
  let memory ← getMemory
  let name := (idx.params a.head).name
  if memory.cfg.manifests then
    write env .manifestsWrite s!"server: writing manifest tip of head \"{name}\""
      fun store => { store with manifests := Function.update store.manifests name a.manifestTip }
  else
    guard a.manifestTip.isNone
      s!"server: head \"{name}\" has a manifest tip but this node has no ManifestStore configured"

def persistOne (env : Env) (a : Adoption Source) : Op idx Source Unit := do
  let name := (idx.params a.head).name
  persistManifest env a
  write env .rootsWrite s!"server: writing root of head \"{name}\""
    fun store => { store with roots := Function.update store.roots name (some a.head) }

def adoptOne (keys : Keyring) (env : Env) (a : Adoption Source) : Op idx Source Unit :=
  adoptBatch keys env [a] [] (persistOne env a)

end Bloar.Server
