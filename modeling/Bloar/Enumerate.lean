import Bloar.Load

/-!
The walk over a head's complete index (`Enumerate` in `archive/enumerate.go`) and
the cache of segment proofs it shares with other walks
(`archive/structure_cache.go`). A walk carries its budgets, what it has reported,
and the tables that let it skip a subtree. Contexts and the time budget are not
modelled.
-/

namespace Bloar.Archive
open Ipld Schema Arith Fallible

variable {σ α : Type}

structure SealedSegment where
  cid : Cid
  ord : Nat
  firstSlot : Nat
  lastSlot : Nat
  deriving DecidableEq, Repr

structure Enumeration where
  params : Params
  root : Link
  syncedTo : Nat
  covered : Bool
  dirPages : List Cid
  sealed : List SealedSegment
  openCid : Link
  openOrd : Nat
  deriving DecidableEq, Repr

/-! ### Budgets -/

structure EnumerationBudget where
  unique : Finset Cid
  paths : Nat
  decodedByte : Nat
  outputs : Nat

namespace EnumerationBudget

def addUnique (b : EnumerationBudget) (c : Cid) : Except Error (Bool × EnumerationBudget) :=
  if c ∈ b.unique then .ok (false, b)
  else if b.unique.card ≥ maxEnumerationUniqueNodes then
    .error (.plain (s!"archive: directory enumeration exceeds the " ++
      s!"{maxEnumerationUniqueNodes}-unique-node budget"))
  else .ok (true, { b with unique := insert c b.unique })

def addPaths (b : EnumerationBudget) (n : Nat) : Except Error (Unit × EnumerationBudget) :=
  if n > maxEnumerationPaths - b.paths then
    .error (.plain (s!"archive: directory enumeration exceeds the " ++
      s!"{maxEnumerationPaths}-logical-path budget"))
  else .ok ((), { b with paths := b.paths + n })

def addOutput (b : EnumerationBudget) : Except Error (Unit × EnumerationBudget) :=
  if b.outputs ≥ maxEnumerationOutputs then
    .error (.plain (s!"archive: directory enumeration exceeds the " ++
      s!"{maxEnumerationOutputs}-output budget"))
  else .ok ((), { b with outputs := b.outputs + 1 })

def admitBytes (b : EnumerationBudget) (kind : String) (bytes : Nat) : Except Error Unit :=
  if bytes > maxEnumerationNodeBytes then
    .error (.plain (s!"archive: {kind} is {bytes} encoded bytes, outside the " ++
      s!"[0,{maxEnumerationNodeBytes}] per-node admission budget"))
  else if bytes > maxEnumerationDecodedBytes - b.decodedByte then
    let already := b.decodedByte
    .error (.plain (s!"archive: decoding {kind} would exceed the " ++
      s!"{maxEnumerationDecodedBytes}-byte enumeration budget (already {already})"))
  else .ok ()

end EnumerationBudget

/-! ### The walker -/

structure DirMemoKey where
  cid : Cid
  depth : Nat
  entries : Nat
  deriving DecidableEq, Repr

structure DirSummary where
  paths : Nat
  segments : Nat
  deriving DecidableEq, Repr

structure EnumerationWalker where
  st : State
  out : Enumeration
  budget : EnumerationBudget
  dirNodes : Finmap fun _ : Cid => DirNode
  dirActive : Finset Cid
  dirMemo : Finmap fun _ : DirMemoKey => DirSummary
  dirContains : Finmap fun _ : Cid => Bool
  segments : Finmap fun _ : Cid => Nat
  newProofs : StructureCache
  generation : Nat
  generationKnown : Bool

structure Walking (σ : Type) where
  world : World σ
  walker : EnumerationWalker

abbrev Walk (σ : Type) := Prog (Walking σ) Error

def onHead (x : Engine σ α) : Walk σ α := fun s =>
  let (result, world) := x s.world
  (result, { s with world })

def onWalker (f : EnumerationWalker → EnumerationWalker) : Walk σ Unit :=
  modify fun s => { s with walker := f s.walker }

def charge (f : EnumerationBudget → Except Error (α × EnumerationBudget)) : Walk σ α := fun s =>
  match f s.walker.budget with
  | .ok (value, budget) => (.ok value, { s with walker := { s.walker with budget } })
  | .error e => (.error e, s)

/-- Whether a proof is also one of presence: it has the walk's generation. -/
def EnumerationWalker.current (w : EnumerationWalker) (p : CachedSegmentProof) : Bool :=
  w.generationKnown && p.generationKnown && p.generation == w.generation

/-! ### The structure cache -/

def maxStructureCacheSegments : Nat := maxEnumerationOutputs + 1

/-- The loop of `rememberSegments` over the new proofs is a union of the maps. -/
def StructureCache.remember (proofs segments : StructureCache) : StructureCache :=
  if proofs.keys.card = 0 then segments
  else if segments.keys.card + proofs.keys.card > maxStructureCacheSegments then proofs
  else proofs ∪ segments

section Cache
variable (cfg : Config σ)

def cachedSegment (c : Cid) : Engine σ (Option CachedSegmentProof) := fun w =>
  match cfg.structureCache with
  | none => (.ok none, w)
  | some cache =>
    let (segments, s) := cache.read w.shared
    (.ok (segments.lookup c), { w with shared := s })

def rememberSegments (proofs : StructureCache) : Engine σ Unit :=
  match cfg.structureCache with
  | none => pure ()
  | some cache => modify fun w =>
    { w with shared := cache.update (StructureCache.remember proofs) w.shared }

def collectionGeneration : Engine σ (Nat × Bool) := fun w =>
  match cfg.collectionGeneration with
  | none => (.ok (0, false), w)
  | some generation =>
    let (current, s) := generation w.shared
    (.ok (current, true), { w with shared := s })

end Cache

/-! ### Segments -/

def badBlob (entries : List RefEntry) (index : Nat) : Option (Nat × Error) :=
  match entries with
  | [] => none
  | e :: rest =>
    match validateBlobCID e.blob with
    | .ok () => badBlob rest (index + 1)
    | .error cause => some (index, cause)

def checkBlobs : Nat → List Row → Except Error Unit
  | _, [] => .ok ()
  | rowIndex, r :: rest =>
    match badBlob r.entries 0 with
    | some (entryIndex, cause) => .error (.within s!"row {rowIndex} entry {entryIndex}" cause)
    | none => checkBlobs (rowIndex + 1) rest

def proofOf (segment : Segment) : SegmentProof :=
  { slot0 := segment.slot0
    firstRow := (segment.rows.head?.map Row.slot).getD 0
    lastRow := (segment.rows.getLast?.map Row.slot).getD 0
    rows := segment.rows.length }

def segmentShape (segment : Segment) : Except Error SegmentProof := do
  checkBlobs 0 segment.rows
  .ok (proofOf segment)

def checkPosition (params : Params) (proof : SegmentProof) (expectedWindow upper : Nat)
    (opened : Bool) : Except Error Unit :=
  let wantSlot0 := windowStart expectedWindow params.segBits
  let lower := max wantSlot0 params.originSlot
  let slot0 := proof.slot0
  let firstRow := proof.firstRow
  let lastRow := proof.lastRow
  if proof.slot0 ≠ wantSlot0 then
    .error (.plain s!"segment has slot0={slot0}, path position requires {wantSlot0}")
  else if opened = false ∧ proof.rows = 0 then
    .error (.plain "sealed Segment is empty; an empty window must be a null directory entry")
  else if proof.rows > 0 ∧ (proof.firstRow < lower ∨ proof.lastRow > upper) then
    .error (.plain (s!"segment rows span [{firstRow},{lastRow}], " ++
      s!"path window permits [{lower},{upper}]"))
  else .ok ()

section Walk
variable (ipld : Codec) (cfg : Config σ)

def readNode (c : Cid) (kind : String) : Walk σ Block := do
  let fresh ← charge (·.addUnique c)
  guard fresh (.plain s!"archive: internal: attempted to decode {kind} twice")
  let data ← onHead (within s!"archive: reading {kind}" (getBlock cfg c))
  let s ← Fallible.get
  ofExcept (s.walker.budget.admitBytes kind (size data))
  ofExcept ((verifyBlockCID ipld c data).mapError (.within s!"archive: reading {kind}"))
  onWalker fun w =>
    { w with budget := { w.budget with decodedByte := w.budget.decodedByte + size data } }
  pure data

def stageProof (c : Cid) (proof : SegmentProof) : Walk σ Unit :=
  onWalker fun w =>
    let stamped : CachedSegmentProof :=
      { proof, generation := w.generation, generationKnown := w.generationKnown }
    { w with newProofs := w.newProofs.insert c stamped }

def proveSegment (c : Cid) : Walk σ SegmentProof := do
  let s ← Fallible.get
  let cached ← (match s.walker.newProofs.lookup c with
    | some proof => pure (some proof)
    | none => onHead (cachedSegment cfg c))
  match cached with
  | some cachedProof =>
    if s.walker.current cachedProof then do
      let _ ← charge (·.addUnique c)
      pure cachedProof.proof
    else do
      let _ ← readNode ipld cfg c "Segment"
      stageProof c cachedProof.proof
      pure cachedProof.proof
  | none => do
      let data ← readNode ipld cfg c "Segment"
      let segment ← (match decodeSegment ipld data with
        | .ok segment => pure segment
        | .error text => fail (.within "decoding Segment" (.schema text)))
      let proof ← ofExcept ((segmentShape segment).mapError (.within "validating Segment links"))
      stageProof c proof
      pure proof

def validateSegment (c : Link) (expectedWindow upper : Nat) (opened : Bool) : Walk σ Unit :=
  match c with
  | none => ofExcept (validateIndexCID none "Segment")
  | some c => do
      ofExcept (validateIndexCID (some c) "Segment")
      let s ← Fallible.get
      match s.walker.segments.lookup c with
      | some prior =>
        fail (.plain s!"segment is referenced at windows {prior} and {expectedWindow}")
      | none => do
          onWalker fun w => { w with segments := w.segments.insert c expectedWindow }
          let proof ← proveSegment ipld cfg c
          ofExcept (checkPosition s.walker.st.params proof expectedWindow upper opened)

def readDir (c : Cid) : Walk σ DirNode := do
  let s ← Fallible.get
  match s.walker.dirNodes.lookup c with
  | some page => pure page
  | none => do
      let data ← readNode ipld cfg c "DirNode"
      let page ← (match decodeDirNode ipld data with
        | .ok page => pure page
        | .error text => fail (.within "archive: decoding DirNode" (.schema text)))
      onWalker fun w =>
        { w with dirNodes := w.dirNodes.insert c page
                 out := { w.out with dirPages := w.out.dirPages ++ [c] } }
      pure page

/-! ### Directory pages -/

def walkLeaf (offset : Nat) : Nat → List Link → Walk σ Nat
  | _, [] => pure 0
  | digit, none :: rest => walkLeaf offset (digit + 1) rest
  | digit, some kid :: rest => do
      let st := (← Fallible.get).walker.st
      let index := u64 (offset + digit)
      let window := u64 (st.dirBase + index)
      let last := windowEnd window st.params.segBits
      mapError (.within s!"archive: directory leaf kid {digit}")
        (validateSegment ipld cfg (some kid) window last false)
      charge (·.addOutput)
      onWalker fun w => { w with out := { w.out with sealed := w.out.sealed ++
        [{ cid := kid, ord := window, firstSlot := windowStart window st.params.segBits
           lastSlot := last }] } }
      let count ← walkLeaf offset (digit + 1) rest
      pure (count + 1)

/-- The loop over the kids of an internal page, with the walk of the level below:
the number of segments. A kid starts within `entries`, so the difference is exact. -/
def walkKids (walk : Link → Nat → Nat → Walk σ DirSummary) (childCap offset entries : Nat) :
    Nat → List Link → Walk σ Nat
  | _, [] => pure 0
  | digit, kid :: rest => do
      guard kid.isSome (.plain (s!"archive: internal directory page kid {digit} is null; " ++
        "every appended range requires a page"))
      let childOffset := u64 (offset + digit * childCap)
      let childEntries := min (entries - digit * childCap) childCap
      let summary ← walk kid childOffset childEntries
      let count ← walkKids walk childCap offset entries (digit + 1) rest
      pure (summary.segments + count)

def expectedKids (childCap entries : Nat) : Nat :=
  if childCap < entries then 1 + (entries - 1) / childCap else 1

def walkLeafPage (offset entries : Nat) (page : DirNode) : Walk σ Nat := do
  let params := (← Fallible.get).walker.st.params
  let kids := page.kids.length
  let maxKids := min entries (u64 (1 <<< params.fanoutBits))
  guard (page.kids.length ≤ maxKids)
    (.plain s!"archive: leaf directory page has {kids} kids, canonical position allows {maxKids}")
  walkLeaf ipld cfg offset 0 page.kids

def walkInnerPage (walk : Link → Nat → Nat → Walk σ DirSummary) (level offset entries : Nat)
    (page : DirNode) : Walk σ Nat := do
  let params := (← Fallible.get).walker.st.params
  let kids := page.kids.length
  let childCap := capacity level params.fanoutBits
  let expected := expectedKids childCap entries
  guard (page.kids.length = expected)
    (.plain (s!"archive: internal directory page has {kids} kids, " ++
      s!"canonical position requires {expected}"))
  walkKids walk childCap offset entries 0 page.kids

def enterDir (walkPage : DirNode → Walk σ Nat) (node : Cid) (level entries : Nat) :
    Walk σ DirSummary := do
  let startPaths := (← Fallible.get).walker.budget.paths
  charge (·.addPaths 1)
  let page ← readDir ipld cfg node
  onWalker fun w => { w with dirActive := insert node w.dirActive }
  let count ← ensuring (fun s => { s with walker :=
    { s.walker with dirActive := s.walker.dirActive.erase node } }) (walkPage page)
  let paths := (← Fallible.get).walker.budget.paths - startPaths
  let summary : DirSummary := { paths, segments := count }
  onWalker fun w =>
    { w with dirMemo := w.dirMemo.insert ⟨node, level + 1, entries⟩ summary
             dirContains := w.dirContains.insert node (decide (count ≠ 0)) }
  pure summary

def visitDir (walkPage : DirNode → Walk σ Nat) (node : Link) (level offset entries : Nat) :
    Walk σ DirSummary :=
  match node with
  | none =>
    let depth := level + 1
    fail (.plain s!"archive: canonical directory page at depth {depth} offset {offset} is null")
  | some node => do
      ofExcept (validateIndexCID (some node) "directory page")
      let w := (← Fallible.get).walker
      match w.dirMemo.lookup ⟨node, level + 1, entries⟩ with
      | some summary => do
          guard (summary.segments = 0)
            (.plain "archive: non-empty directory subtree is shared at multiple positions")
          charge (·.addPaths summary.paths)
          pure summary
      | none => do
          guard (node ∉ w.dirActive) (.plain "archive: directory subtree is cyclic")
          guard (w.dirContains.lookup node ≠ some true)
            (.plain "archive: non-empty directory subtree is shared at multiple positions")
          enterDir ipld cfg walkPage node level entries

def walkDir : Nat → Link → Nat → Nat → Walk σ DirSummary
  | 0, node, offset, entries =>
    visitDir ipld cfg (walkLeafPage ipld cfg offset entries) node 0 offset entries
  | level + 1, node, offset, entries =>
    visitDir ipld cfg (walkInnerPage (walkDir level) (level + 1) offset entries) node (level + 1)
      offset entries

def walkHead (openOrd sealedCount : Nat) : Walk σ Unit := do
  let st := (← Fallible.get).walker.st
  mapError (.within "archive: validating open segment")
    (validateSegment ipld cfg st.openCid openOrd st.syncedTo true)
  (match st.dirDepth with
    | 0 => pure ()
    | level + 1 => do
        let _ ← walkDir ipld cfg level st.dir 0 sealedCount)
  let expectedPaths := canonicalDirectoryPages sealedCount st.params.fanoutBits
  let paths := (← Fallible.get).walker.budget.paths
  guard (paths = expectedPaths)
    (.plain (s!"archive: directory walk accounted {paths} logical pages, " ++
      s!"canonical geometry requires {expectedPaths}"))

def startWalker (st : State) (openOrd generation : Nat) (generationKnown : Bool) :
    EnumerationWalker :=
  { st
    out := { params := st.params, root := st.root, syncedTo := st.syncedTo, covered := st.covered
             dirPages := [], sealed := [], openCid := st.openCid, openOrd }
    budget := { unique := ∅, paths := 0, decodedByte := 0, outputs := 0 }
    dirNodes := ∅, dirActive := ∅, dirMemo := ∅, dirContains := ∅, segments := ∅, newProofs := ∅
    generation, generationKnown }

def startWalk (walker : EnumerationWalker) (x : Walk σ Unit) : Engine σ EnumerationWalker := fun w =>
  match x { world := w, walker } with
  | (.ok (), s) => (.ok s.walker, s.world)
  | (.error e, s) => (.error e, s.world)

def checkGeneration (generation : Nat) (generationKnown : Bool) : Engine σ Unit :=
  if generationKnown then do
    let (current, _) ← collectionGeneration cfg
    guard (current = generation)
      (.plain (s!"archive: collection generation changed from {generation} to {current} " ++
        "during directory admission"))
  else pure ()

/-- `Head.enumerate`. The open window is reported for a covered head only. -/
def enumerate : Engine σ Enumeration := do
  let (generation, generationKnown) ← collectionGeneration cfg
  let st := (← Fallible.get).cur
  let (openOrd, sealedCount) ← ofExcept ((validateDirectoryGeometry st).mapError
    (.within "archive: validating head directory geometry"))
  match st.root with
  | none => fail (.within "archive: reading Head" (.plain "ipld: could not find node"))
  | some root => do
      let walker ← startWalk (startWalker st openOrd generation generationKnown) (do
        let _ ← readNode ipld cfg root "Head"
        if st.covered then walkHead ipld cfg openOrd sealedCount else pure ())
      if st.covered then do
        checkGeneration cfg generation generationKnown
        rememberSegments cfg walker.newProofs
        pure walker.out
      else pure walker.out

end Walk

end Bloar.Archive
