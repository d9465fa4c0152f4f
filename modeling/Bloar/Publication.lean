import Bloar.Schema

/-!
The publication document: one line for each served head, signed as a whole. A line of an
unfinalized head carries the proof that joins it to a finalized one, and the contract of the
document is that this finalized line is in the same document.
-/

namespace Bloar.Server
open Ipld Schema

/-! ### Texts -/

def requireAll : List (Bool × String) → Except String Unit
  | [] => .ok ()
  | (true, _) :: rest => requireAll rest
  | (false, e) :: _ => .error e

/-- A root in a document: what `cid.String` renders, or some other text, which `cid.Decode` may
take as another spelling. -/
inductive RootText where
  | cid (c : Cid)
  | other (text : String) (decoded : Option Cid)
  deriving DecidableEq, Repr

namespace RootText

def empty : RootText := .other "" none

def isEmpty : RootText → Bool
  | .cid _ => false
  | .other text _ => text == ""

def decode : RootText → Option Cid
  | .cid c => some c
  | .other _ decoded => decoded

def ofLink : Link → RootText
  | none => .empty
  | some c => .cid c

end RootText

structure BeaconRoot where
  digits : List (Fin 16)
  width : digits.length = 64
  deriving DecidableEq

def hexDigit (d : Fin 16) : Char := "0123456789abcdef".toList.getD d.val '0'

/-- `hex.DecodeString` takes both cases. -/
def hexValue (c : Char) : Option (Fin 16) :=
  ("0123456789abcdef".toList.idxOf? c.toLower).bind fun i => if h : i < 16 then some ⟨i, h⟩ else none

def renderBeaconRoot (root : BeaconRoot) : String :=
  String.ofList ('0' :: 'x' :: root.digits.map hexDigit)

def parseBeaconRoot (raw : String) : Option BeaconRoot :=
  match raw.toList with
  | '0' :: 'x' :: rest =>
    (rest.mapM hexValue).bind fun digits =>
      if width : digits.length = 64 then some ⟨digits, width⟩ else none
  | _ => none

/-! ### Lines and documents -/

/-- `HeadKind`; an omitted kind is the finalized contract. -/
inductive HeadKind where
  | omitted
  | finalizedMonotonic
  | unfinalizedMutable
  | other (name : String)
  deriving DecidableEq, Repr

def HeadKind.effective : HeadKind → HeadKind
  | .omitted => .finalizedMonotonic
  | kind => kind

def HeadKind.text : HeadKind → String
  | .omitted => ""
  | .finalizedMonotonic => "finalized-monotonic"
  | .unfinalizedMutable => "unfinalized-mutable"
  | .other name => name

structure HeadEntry where
  name : String
  root : RootText
  originSlot : Nat
  syncedTo : Option Nat
  segBits : Nat
  fanoutBits : Nat
  dirDepth : Nat
  manifest : RootText
  kind : HeadKind
  windowStart : Option Nat
  sourceHeadRoot : String
  sourceFinalizedSlot : Option Nat
  sourceFinalizedRoot : String
  handoffHead : String
  handoffRoot : RootText
  handoffSyncedTo : Option Nat
  deriving DecidableEq, Repr

def HeadEntry.effectiveKind (e : HeadEntry) : HeadKind := e.kind.effective

abbrev ArchiveID := BitVec 256

structure Unsigned where
  v : Nat
  net : String
  archiveID : Option ArchiveID
  updatedAt : String
  multiaddrs : List String
  heads : List HeadEntry
  revision : Option Nat
  deriving DecidableEq, Repr

structure Doc extends Unsigned where
  pubkey : String
  signature : String
  maxPutBlobs : Nat
  deriving DecidableEq, Repr

def legacyDocVersion : Nat := 1
def docVersion : Nat := 2
def logicalArchiveDocVersion : Nat := 3

def supportedDocVersion (v : Nat) : Bool :=
  v == legacyDocVersion || v == docVersion || v == logicalArchiveDocVersion

def maxUint64 : Nat := 2 ^ 64 - 1

namespace HeadEntry

def proofless (e : HeadEntry) : Bool :=
  e.sourceHeadRoot == "" && e.sourceFinalizedSlot.isNone && e.sourceFinalizedRoot == "" &&
    e.handoffHead == "" && e.handoffRoot.isEmpty && e.handoffSyncedTo.isNone

def proofComplete (e : HeadEntry) : Bool :=
  e.sourceHeadRoot != "" && e.sourceFinalizedSlot.isSome && e.sourceFinalizedRoot != "" &&
    e.handoffHead != "" && !e.handoffRoot.isEmpty && e.handoffSyncedTo.isSome

def windowJoins (e : HeadEntry) : Bool :=
  e.handoffSyncedTo == some maxUint64 ||
    decide (e.windowStart.getD 0 ≤ e.handoffSyncedTo.getD 0 + 1)

end HeadEntry

def finalizedChecks (d : Doc) (e : HeadEntry) : List (Bool × String) :=
  let name := e.name
  [(e.windowStart.isNone, s!"server: finalized-monotonic head \"{name}\" carries window_start"),
    (e.kind == .omitted || d.revision.isSome,
      s!"server: head \"{name}\" declares kind without a document revision"),
    (e.proofless, s!"server: finalized-monotonic head \"{name}\" carries mutable proof fields")]

def mutableChecks (d : Doc) (e : HeadEntry) : List (Bool × String) :=
  let name := e.name
  let v := d.v
  let start := e.windowStart.getD 0
  let origin := e.originSlot
  let synced := e.syncedTo.getD 0
  let finalized := e.sourceFinalizedSlot.getD 0
  let handoff := e.handoffSyncedTo.getD 0
  [(d.v == docVersion || d.v == logicalArchiveDocVersion,
      s!"server: version {v} document cannot carry unfinalized-mutable head \"{name}\"; version 2 or 3 proof fields are required"),
    (d.revision.isSome, s!"server: unfinalized-mutable head \"{name}\" requires a document revision"),
    (e.windowStart.isSome, s!"server: unfinalized-mutable head \"{name}\" requires window_start"),
    (e.windowStart == some e.originSlot,
      s!"server: unfinalized-mutable head \"{name}\" window_start {start} differs from root origin_slot {origin}"),
    (e.syncedTo.isSome, s!"server: unfinalized-mutable head \"{name}\" must publish a covered snapshot"),
    (decide (start ≤ synced),
      s!"server: unfinalized-mutable head \"{name}\" ends at {synced} before window_start {start}"),
    (e.manifest.isEmpty,
      s!"server: unfinalized-mutable head \"{name}\" cannot carry a finalized filter manifest"),
    (e.proofComplete,
      s!"server: unfinalized-mutable head \"{name}\" requires complete source and handoff proof fields"),
    ((parseBeaconRoot e.sourceHeadRoot).isSome,
      s!"server: unfinalized-mutable head \"{name}\" has invalid source_head_root"),
    ((parseBeaconRoot e.sourceFinalizedRoot).isSome,
      s!"server: unfinalized-mutable head \"{name}\" has invalid source_finalized_root"),
    (e.handoffRoot.decode.isSome,
      s!"server: unfinalized-mutable head \"{name}\" has invalid handoff_root"),
    (decide (finalized ≤ synced),
      s!"server: unfinalized-mutable head \"{name}\" source finalized slot {finalized} is above synced_to {synced}"),
    (decide (handoff ≤ finalized),
      s!"server: unfinalized-mutable head \"{name}\" handoff synced_to {handoff} is above source finalized slot {finalized}"),
    (e.windowJoins,
      s!"server: unfinalized-mutable head \"{name}\" window starts at {start} beyond handoff synced_to {handoff}")]

def validateEntry (d : Doc) (e : HeadEntry) : Except String Unit :=
  match e.effectiveKind with
  | .finalizedMonotonic => requireAll (finalizedChecks d e)
  | .unfinalizedMutable => requireAll (mutableChecks d e)
  | kind =>
    let name := e.name
    let text := kind.text
    .error s!"server: head \"{name}\" declares unknown kind \"{text}\""

def validateEntries (d : Doc) : Nat → List String → List HeadEntry → Except String Unit
  | _, _, [] => .ok ()
  | i, seen, e :: rest =>
    let name := e.name
    if name = "" then .error s!"server: publication head {i} has an empty name"
    else if name ∈ seen then
      .error s!"server: publication document contains duplicate head name \"{name}\""
    else
      match validateEntry d e with
      | .error reason => .error reason
      | .ok _ => validateEntries d (i + 1) (name :: seen) rest

/-- The finalized line that a mutable one names is in the same document, as it names it. -/
def handsOff (heads : List HeadEntry) (e : HeadEntry) : Bool :=
  match heads.find? fun h => h.name == e.handoffHead with
  | none => false
  | some handoff =>
    handoff.effectiveKind == .finalizedMonotonic && handoff.syncedTo.isSome &&
      handoff.root == e.handoffRoot && handoff.syncedTo == e.handoffSyncedTo

def documentChecks (d : Doc) : List (Bool × String) :=
  let v := d.v
  let signed := d.pubkey != "" && d.signature != ""
  (supportedDocVersion d.v,
    s!"server: publication document version is {v}, want 3, 2, or legacy 1") ::
  (if d.v = logicalArchiveDocVersion then
    [(d.archiveID.any (· != 0), "server: version 3 publication document requires a nonzero archive_id"),
      (d.revision.isSome, "server: version 3 publication document requires a revision"),
      (signed, "server: version 3 publication document must be signed")]
  else
    [(d.archiveID.isNone, s!"server: version {v} publication document carries version 3 archive_id")]) ++
  (if d.revision.isSome then
    [(d.revision != some 0,
        "server: revisioned publication document has revision 0; revisions start at 1"),
      (signed, "server: revisioned publication document must be signed")]
  else [])

def validateContract (d : Doc) : Except String Unit := do
  requireAll (documentChecks d)
  validateEntries d 0 [] d.heads
  requireAll ((d.heads.filter fun e => e.effectiveKind == .unfinalizedMutable).map fun e =>
    let name := e.name
    let handoff := e.handoffHead
    (handsOff d.heads e,
      s!"server: unfinalized-mutable head \"{name}\" handoff proof does not match finalized head \"{handoff}\" in the same document"))

/-! ### Signatures -/

/-- A signing key with the scheme it belongs to. The signature is over the canonical rendering,
which the unsigned part determines. -/
structure Keyring where
  pubkey : String
  sign : Unsigned → String
  verify : String → Unsigned → String → Bool
  pubkey_ne : pubkey ≠ ""
  sign_ne : ∀ u, sign u ≠ ""
  verify_sign : ∀ u, verify pubkey u (sign u) = true

/-- `sign`: without a key the document stays unsigned. -/
def Unsigned.signed (u : Unsigned) (keys : Keyring) (signingKey : Bool) : Doc :=
  { u with
    pubkey := if signingKey then keys.pubkey else ""
    signature := if signingKey then keys.sign u else ""
    maxPutBlobs := 0 }

end Bloar.Server
