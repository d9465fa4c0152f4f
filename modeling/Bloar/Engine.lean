import Bloar.Arith
import Bloar.Decode
import Bloar.Fallible

/-!
The head engine's state and its access to storage (`archive/archive.go`,
`archive/errors.go`, `core/core.go`, `core/pointer.go`). A head's machinery is a
`Config` of operations over a shared state of any type, so a faulty disk, a
moving catalog or another process working between two calls are all
configurations. `history` records the writes a head has made, newest first; no
modelled function reads it.
-/

namespace Bloar.Archive
open Ipld Schema Arith Fallible

structure Params where
  name : String
  net : String
  originSlot : Nat
  segBits : Nat
  fanoutBits : Nat
  deriving DecidableEq, Repr

structure State where
  params : Params
  syncedTo : Nat
  covered : Bool
  dirDepth : Nat
  dir : Link
  openCid : Link
  root : Link
  deriving DecidableEq, Repr

inductive SegmentState where
  | opened
  | sealed
  deriving DecidableEq, Repr

structure SegmentSample where
  state : SegmentState
  encodedBytes : Nat
  rows : Nat
  refs : Nat
  deriving DecidableEq, Repr

structure IndexApplyStats where
  encodedBytes : Nat
  segments : List SegmentSample
  deriving DecidableEq, Repr

inductive IndexNodeKind where
  | head
  | dir
  | segment
  deriving DecidableEq, Repr

inductive ReadError where
  | notFound
  | other (text : String)
  deriving DecidableEq, Repr

inductive Error where
  | conflict (reason : String)
  | missingBlobs (reason : String) (vhs : List VersionedHash)
  | indexNodeTooLarge (kind : IndexNodeKind) (encodedBytes limitBytes : Nat)
      (state : Option SegmentState) (rows refs : Nat)
  | schema (text : String)
  | reading (c : Cid) (cause : ReadError)
  | decoding (c : Cid) (text : String)
  | writing (c : Cid) (text : String)
  | resolving (vh : VersionedHash) (text : String)
  /-- `core.ErrEmpty`. -/
  | emptyPointer
  /-- Any other error the package makes itself. -/
  | plain (text : String)
  /-- The rounds given to a loop ran out, which `applyWindows_ends` excludes. -/
  | diverges
  /-- An error wrapped with the text of the caller that saw it. -/
  | within (text : String) (cause : Error)
  deriving DecidableEq, Repr

structure SegmentProof where
  slot0 : Nat
  firstRow : Nat
  lastRow : Nat
  rows : Nat
  deriving DecidableEq, Repr

structure CachedSegmentProof where
  proof : SegmentProof
  generation : Nat
  generationKnown : Bool
  deriving DecidableEq, Repr

abbrev StructureCache := Finmap fun _ : Cid => CachedSegmentProof

/-- The operations of a `StructureCache` that a process shares between its heads. -/
structure CacheAccess (σ : Type) where
  read : σ → StructureCache × σ
  update : (StructureCache → StructureCache) → σ → σ

/-- The machinery a head is built over. An optional part is `none` where the
source has nil. `newBase` gives a head without a structure cache one of its own,
which is then part of the shared state. -/
structure Config (σ : Type) where
  get : Cid → σ → Except ReadError Block × σ
  put : Cid → Block → σ → Except String Unit × σ
  resolver : Option (VersionedHash → σ → Except String (Link × Bool) × σ)
  structureCache : Option (CacheAccess σ)
  collectionGeneration : Option (σ → Nat × σ)

/-- One write of a head: a block handed to the store, or a new current state. -/
inductive Event where
  | put (c : Cid)
  | swap (root : Link)
  deriving DecidableEq, Repr

/-- A head together with the state it shares with everything around it. -/
structure World (σ : Type) where
  shared : σ
  cur : State
  applyStats : Option IndexApplyStats
  lastApplyStats : IndexApplyStats
  segmentEncodeState : Option SegmentState
  segmentEncodedBytes : Nat
  history : List Event

abbrev Engine (σ : Type) := Prog (World σ) Error

variable {σ α : Type}

def within (text : String) (x : Engine σ α) : Engine σ α := mapError (.within text) x

section Storage
variable (cfg : Config σ)

def getBlock (c : Cid) : Engine σ Block := fun w =>
  match cfg.get c w.shared with
  | (.ok block, s) => (.ok block, { w with shared := s })
  | (.error e, s) => (.error (.reading c e), { w with shared := s })

def putBlock (c : Cid) (block : Block) : Engine σ Unit := fun w =>
  match cfg.put c block w.shared with
  | (.ok (), s) => (.ok (), { w with shared := s, history := .put c :: w.history })
  | (.error e, s) => (.error (.writing c e), { w with shared := s })

/-- `h.cur.Store`. -/
def storeCur (st : State) : Engine σ Unit :=
  modify fun w => { w with cur := st, history := .swap st.root :: w.history }

end Storage

/-! ### Nodes as blocks -/

def maxIndexNodeBytes : Nat := 2 <<< 20

/-- `core.Codec`: the encoder may use and update the head's scratch fields. -/
structure NodeCodec (σ T : Type) where
  encode : T → Engine σ (Block × Cid)
  decode : Block → Checked T

section NodeStore
variable (cfg : Config σ) {T : Type} (codec : NodeCodec σ T)

def decodeBlock (c : Cid) : Engine σ (T × Nat) := do
  let block ← getBlock cfg c
  match codec.decode block with
  | .ok v => pure (v, size block)
  | .error text => fail (.decoding c text)

def getNode (c : Link) : Engine σ T :=
  match c with
  | none => fail (.plain "core: GetNode on an undefined CID")
  | some c => do
      let (v, _) ← decodeBlock cfg codec c
      pure v

def putNode (v : T) : Engine σ Cid := do
  let (block, c) ← codec.encode v
  putBlock cfg c block
  pure c

structure Pointer (T : Type) where
  cid : Link
  val : Option T
  dirty : Bool
  deriving DecidableEq, Repr

def pointer (c : Link) : Pointer T := { cid := c, val := none, dirty := false }

def newNode (v : T) : Pointer T := { cid := none, val := some v, dirty := true }

namespace Pointer

def load (p : Pointer T) : Engine σ (T × Pointer T) :=
  match p.val with
  | some v => pure (v, p)
  | none =>
    if p.cid.isSome then do
      let v ← getNode cfg codec p.cid
      pure (v, { p with val := some v })
    else fail .emptyPointer

/-- `Mutate` followed by the caller's edit of the node it returns. -/
def mutate (p : Pointer T) (edit : T → T) : Engine σ (Pointer T) :=
  if p.dirty then
    match p.val with
    | some v => pure { p with val := some (edit v) }
    | none => fail .emptyPointer
  else
    match p.cid with
    | none => fail .emptyPointer
    | some c => do
        let (v, _) ← decodeBlock cfg codec c
        pure { cid := none, val := some (edit v), dirty := true }

def commit (p : Pointer T) : Engine σ (Cid × Pointer T) :=
  if p.dirty then
    match p.val with
    | none => fail .emptyPointer
    | some v => do
        let c ← within "core: committing node" (putNode cfg codec v)
        pure (c, { p with cid := some c, dirty := false })
  else
    match p.cid with
    | none => fail .emptyPointer
    | some c => pure (c, p)

end Pointer

end NodeStore

/-! ### The three node types -/

section Codecs
variable (ipld : Codec)

def encoded (result : Checked (Block × Cid)) : Engine σ (Block × Cid) :=
  match result with
  | .ok r => pure r
  | .error text => fail (.schema text)

def admitEncodedIndex (kind : IndexNodeKind) (encodedBytes rows refs : Nat) : Engine σ Unit :=
  fun w =>
    if encodedBytes > maxIndexNodeBytes then
      (.error (.indexNodeTooLarge kind encodedBytes maxIndexNodeBytes w.segmentEncodeState rows refs),
        w)
    else
      (.ok (), { w with applyStats := w.applyStats.map fun stats =>
        { stats with encodedBytes := u64 (stats.encodedBytes + encodedBytes) } })

def countRefs (rows : List Row) : Nat := (rows.map fun r => r.entries.length).sum

def encodeSegmentBlock (segment : Segment) : Engine σ (Block × Cid) := do
  let (data, id) ← encoded (encodeSegment ipld segment)
  modify fun w => { w with segmentEncodedBytes := size data }
  admitEncodedIndex .segment (size data) segment.rows.length (countRefs segment.rows)
  pure (data, id)

def encodeDirNodeBlock (node : DirNode) : Engine σ (Block × Cid) := do
  let (data, id) ← encoded (encodeDirNode ipld node)
  admitEncodedIndex .dir (size data) 0 0
  pure (data, id)

def encodeHeadBlock (head : Schema.Head) : Engine σ (Block × Cid) := do
  let (data, id) ← encoded (encodeHead ipld head)
  admitEncodedIndex .head (size data) 0 0
  pure (data, id)

def segs : NodeCodec σ Segment := { encode := encodeSegmentBlock ipld, decode := decodeSegment ipld }

def dirs : NodeCodec σ DirNode := { encode := encodeDirNodeBlock ipld, decode := decodeDirNode ipld }

def heads : NodeCodec σ Schema.Head := { encode := encodeHeadBlock ipld, decode := decodeHead ipld }

end Codecs

/-! ### Publication -/

namespace State

def headObject (st : State) : Schema.Head :=
  { name := st.params.name
    net := st.params.net
    originSlot := st.params.originSlot
    syncedTo := if st.covered then some st.syncedTo else none
    segBits := st.params.segBits
    fanoutBits := st.params.fanoutBits
    dirDepth := st.dirDepth
    dir := st.dir
    openCid := st.openCid }

def dirBase (st : State) : Nat := ord st.params.originSlot st.params.segBits

def empty (params : Params) : State :=
  { params, syncedTo := 0, covered := false, dirDepth := 0, dir := none, openCid := none,
    root := none }

end State

section Publish
variable (ipld : Codec) (cfg : Config σ)

def publish (st : State) : Engine σ State := do
  let (root, _) ← within "archive: writing head"
    ((newNode st.headObject).commit cfg (heads ipld))
  let st := { st with root := some root }
  storeCur st
  pure st

def openOrd (st : State) : Engine σ Nat := do
  let seg ← within "archive: reading open segment" (getNode cfg (segs ipld) st.openCid)
  pure (ord seg.slot0 st.params.segBits)

def newHead (shared : σ) (params : Params) : World σ :=
  { shared, cur := .empty params, applyStats := none, lastApplyStats := ⟨0, []⟩,
    segmentEncodeState := none, segmentEncodedBytes := 0, history := [] }

/-- `New`, run in the world `newHead` makes. -/
def new (params : Params) : Engine σ Unit := do
  let segBits := params.segBits
  guard (params.segBits ≤ 63) (.plain s!"archive: seg_bits {segBits} is out of range")
  let fanoutBits := params.fanoutBits
  guard (params.fanoutBits ≠ 0 ∧ params.fanoutBits ≤ 32)
    (.plain s!"archive: fanout_bits {fanoutBits} is out of range, must be in [1, 32]")
  let _ ← publish ipld cfg (.empty params)

end Publish

end Bloar.Archive
