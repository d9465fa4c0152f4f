import Bloar.Truncate

/-!
Opening a head at a root (`Load` in `archive/archive.go`) and the checks of
`archive/enumerate.go` it shares with the walk: the CID prefixes, the hash of a
block and the directory geometry that coverage implies.
-/

namespace Bloar.Archive
open Ipld Schema Arith Fallible
variable {σ : Type}

def maxEnumerationOutputs : Nat := 1 <<< 20
def maxEnumerationPaths : Nat := 1 <<< 21
def maxEnumerationUniqueNodes : Nat := 1 <<< 22
def maxEnumerationNodeBytes : Nat := maxIndexNodeBytes
def maxEnumerationDecodedBytes : Nat := 4 <<< 30

def HasPrefix (codec : Nat) (c : Cid) : Prop :=
  c.version = 1 ∧ c.codec = codec ∧ c.hash.code = sha2_256 ∧ c.hash.length = 32

instance (codec : Nat) (c : Cid) : Decidable (HasPrefix codec c) :=
  inferInstanceAs (Decidable (_ ∧ _))

def prefixText (c : Cid) : String :=
  let version := c.version
  let codec := hex c.codec
  let code := hex c.hash.code
  let length := c.hash.length
  s!"CID prefix v{version}/codec=0x{codec}/multihash=0x{code}/{length} bytes"

def validateIndexCID (c : Link) (what : String) : Except Error Unit :=
  match c with
  | none => .error (.plain s!"archive: {what} CID is undefined")
  | some c =>
    if HasPrefix dagCBOR c then .ok ()
    else
      let found := prefixText c
      .error (.plain s!"archive: {what} has {found}, want CIDv1 dag-cbor sha2-256/32")

def validateBlobCID (c : Link) : Except Error Unit :=
  match c with
  | none => .error (.plain "blob CID is undefined")
  | some c =>
    if HasPrefix raw c then .ok ()
    else
      let found := prefixText c
      .error (.plain s!"blob has {found}, want CIDv1 raw sha2-256/32")

def verifyBlockCID (ipld : Codec) (want : Cid) (data : Block) : Except Error Unit :=
  let got : Cid := { want with hash := { want.hash with digest := ipld.sha256 data } }
  if got = want then .ok ()
  else .error (.plain "the block stored for a CID hashes to another; it is corrupt")

/-- The open window and the number of sealed windows that coverage implies, if the
state has the one directory shape they allow and is within the budgets. -/
def validateDirectoryGeometry (st : State) : Except Error (Nat × Nat) :=
  if st.covered = false then
    if st.dirDepth ≠ 0 ∨ st.dir.isSome ∨ st.openCid.isSome then
      .error (.plain "an uncovered head must have no directory or open Segment")
    else .ok (0, 0)
  else if st.syncedTo = maxUint64 then
    .error (.plain "synced_to is MaxUint64, so its required next open window is not representable")
  else
    let openOrd := ord (st.syncedTo + 1) st.params.segBits
    let base := st.dirBase
    if openOrd < base then
      .error (.plain s!"open window {openOrd} precedes directory base {base}")
    else
      let sealedCount := openOrd - base
      let fanoutBits := st.params.fanoutBits
      let dirDepth := st.dirDepth
      let wantDepth := canonicalDepth sealedCount fanoutBits
      let paths := canonicalDirectoryPages sealedCount fanoutBits
      if sealedCount > maxEnumerationOutputs then
        .error (.plain (s!"sealed-window count {sealedCount} exceeds the " ++
          s!"{maxEnumerationOutputs}-output admission budget"))
      else if st.dirDepth ≠ wantDepth then
        .error (.plain (s!"dir_depth {dirDepth} is not canonical depth {wantDepth} for " ++
          s!"{sealedCount} sealed windows at fanout_bits={fanoutBits}"))
      else if paths > maxEnumerationPaths then
        .error (.plain (s!"canonical directory requires {paths} logical pages, above the " ++
          s!"{maxEnumerationPaths}-path admission budget"))
      else if paths > maxEnumerationUniqueNodes - 2 ∨
          sealedCount > maxEnumerationUniqueNodes - paths - 2 then
        let nodes := u64 (sealedCount + paths + 2)
        .error (.plain (s!"canonical directory can name {nodes} unique nodes, above the " ++
          s!"{maxEnumerationUniqueNodes}-node admission budget"))
      else .ok (openOrd, sealedCount)

def State.ofHead (obj : Schema.Head) (root : Link) : State :=
  { params :=
      { name := obj.name, net := obj.net, originSlot := obj.originSlot, segBits := obj.segBits
        fanoutBits := obj.fanoutBits }
    syncedTo := obj.syncedTo.getD 0
    covered := obj.syncedTo.isSome
    dirDepth := obj.dirDepth
    dir := obj.dir
    openCid := obj.openCid
    root }

def checkLoaded (st : State) : Except Error Unit := do
  let covered := st.covered
  let opened := st.openCid.isSome
  let segBits := st.params.segBits
  let fanoutBits := st.params.fanoutBits
  if st.covered ≠ st.openCid.isSome then
    .error (.plain (s!"archive: head has synced_to set={covered} but open set={opened}; " ++
      "a covered head always has an open segment"))
  else if st.params.fanoutBits = 0 ∨ st.params.fanoutBits > 32 ∨ st.params.segBits > 63 then
    .error (.plain (s!"archive: head has unusable parameters seg_bits={segBits} " ++
      s!"fanout_bits={fanoutBits}"))
  else do
    let _ ← (validateDirectoryGeometry st).mapError
      (.within "archive: head has invalid directory geometry")
    if st.dir.isSome then
      (validateIndexCID st.dir "directory root").mapError (.within "archive: head")
    if st.openCid.isSome then
      (validateIndexCID st.openCid "open segment").mapError (.within "archive: head")

section Engine
variable (ipld : Codec) (cfg : Config σ)

def loadState (root : Link) : Engine σ State :=
  match root with
  | none => fail (.plain "archive: Load with an undefined root CID")
  | some c => do
      ofExcept (validateIndexCID root "head root")
      let data ← within "archive: reading head" (getBlock cfg c)
      let bytes := size data
      guard (size data ≤ maxEnumerationNodeBytes)
        (.plain (s!"archive: Head is {bytes} encoded bytes, above the " ++
          s!"{maxEnumerationNodeBytes}-byte per-node admission budget"))
      within "archive: reading head" (ofExcept (verifyBlockCID ipld c data))
      let obj ← (match decodeHead ipld data with
        | .ok obj => pure obj
        | .error text => fail (.within "archive: decoding head" (.schema text)))
      let st := State.ofHead obj root
      ofExcept (checkLoaded st)
      pure st

/-- `Load`, run in the world of a head that has no state yet. -/
def load (root : Link) : Engine σ Unit := do
  let st ← loadState ipld cfg root
  modify fun w => { w with cur := st }

end Engine

/-! ### Prefixes and hashes -/

theorem validateIndexCID_ok_iff {c : Link} {what : String} {u : Unit} :
    validateIndexCID c what = .ok u ↔ ∃ id, c = some id ∧ HasPrefix dagCBOR id := by
  cases c with
  | none => simp [validateIndexCID]
  | some id =>
    simp only [validateIndexCID, Option.some.injEq, exists_eq_left']
    split <;> simp_all

theorem validateBlobCID_ok_iff {c : Link} {u : Unit} :
    validateBlobCID c = .ok u ↔ ∃ id, c = some id ∧ HasPrefix raw id := by
  cases c with
  | none => simp [validateBlobCID]
  | some id =>
    simp only [validateBlobCID, Option.some.injEq, exists_eq_left']
    split <;> simp_all

theorem nodeCID_hasPrefix (ipld : Codec) (block : Block) :
    HasPrefix dagCBOR (ipld.nodeCID block) :=
  ⟨rfl, rfl, rfl, rfl⟩

theorem cidOf_hasPrefix (ipld : Codec) (n : Node) : HasPrefix dagCBOR (cidOf ipld n) :=
  nodeCID_hasPrefix ipld _

theorem verifyBlockCID_ok_iff {ipld : Codec} {want : Cid} {data : Block} {u : Unit}
    (index : HasPrefix dagCBOR want) :
    verifyBlockCID ipld want data = .ok u ↔ want = ipld.nodeCID data := by
  obtain ⟨version, codec, ⟨code, length, digest⟩⟩ := want
  obtain ⟨rfl, rfl, rfl, rfl⟩ := index
  simp [verifyBlockCID, Codec.nodeCID, Codec.sum, eq_comm]

/-! ### Reopening a represented head -/

section Reopen
variable {ipld : Codec} {cfg : Config σ} {holds : World σ → Cid → Prop} {unread flaky : Prop}
variable {params : Params} {m : Contents} {w : World σ}

theorem Upholds.loadState_keeps (up : Upholds ipld cfg holds unread flaky) (root : Link) :
    Keeps (Grows holds) (loadState ipld cfg root) := by
  cases root with
  | none => exact keeps_fail _
  | some c =>
    refine keeps_bind (keeps_ofExcept _) fun _ => ?_
    refine keeps_bind (keeps_within (up.get_keeps c)) fun data => ?_
    refine keeps_bind (keeps_guard _ _) fun _ => ?_
    refine keeps_bind (keeps_within (keeps_ofExcept _)) fun _ => ?_
    refine keeps_bind ?_ fun _ => keeps_bind (keeps_ofExcept _) fun _ => keeps_pure _
    split
    · exact keeps_pure _
    · exact keeps_fail _

theorem ofHead_canonicalState :
    State.ofHead (canonicalState ipld params m).headObject (canonicalState ipld params m).root =
      canonicalState ipld params m := by
  cases coverage : m.coverage <;>
    simp [State.ofHead, canonicalState, bareState, coverage, State.headObject, State.empty]

/-- Loading the root of stored contents gives their state, unless the directory
geometry is out of the budgets. -/
theorem Upholds.loadState_spec (up : Upholds ipld cfg holds unread flaky) (usable : params.Usable)
    (valid : m.Valid params) (stored : Stored ipld holds w (rootNode ipld params m)) :
    Post (loadState ipld cfg (some (cidOf ipld (rootNode ipld params m)))) w
      (fun st _ => st = canonicalState ipld params m)
      (fun _ => unread ∨ ∃ e, checkLoaded (canonicalState ipld params m) = .error e) := by
  have decodes := stored.decodes_root valid usable
  refine post_ofExcept_bind (fun _ error => ?_) fun _ _ => ?_
  · rw [validateIndexCID, if_pos (cidOf_hasPrefix ipld _)] at error
    cases error
  refine post_then (post_raised (post_within (up.getBlock_spec stored))
    fun _ failed => .inl failed) ?_
  rintro _ read rfl
  refine post_guard_bind (fun large => ?_) fun _ => ?_
  · exact absurd stored.fits (of_decide_eq_false large)
  refine post_then (P := fun _ _ => True)
    (post_within (post_ofExcept (fun _ _ => trivial) fun _ error => ?_)) fun _ _ _ => ?_
  · have ok : verifyBlockCID ipld (cidOf ipld (rootNode ipld params m))
        (ipld.encode (rootNode ipld params m)) = .ok () :=
      (verifyBlockCID_ok_iff (cidOf_hasPrefix ipld _)).mpr rfl
    rw [ok] at error
    cases error
  rw [decodes]
  refine post_pure_bind ?_
  have same : State.ofHead (bareState ipld params m).headObject
      (some (cidOf ipld (rootNode ipld params m))) = canonicalState ipld params m :=
    ofHead_canonicalState
  rw [same]
  exact post_ofExcept_bind (fun e error => .inr ⟨e, error⟩) fun _ _ => post_pure rfl

end Reopen

end Bloar.Archive
