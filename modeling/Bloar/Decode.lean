import Bloar.Schema

/-!
Decoding of the DAG objects (`schema/decode.go`). The decoders accept exactly
the objects the encoders produce up to trailing nulls of a page: what was
encoded decodes back, and whatever decodes satisfies the object's validation and
carries only IPLD integers.
-/

namespace Bloar.Schema
open Ipld

def kind : Node → String
  | .null => "null"
  | .bool _ => "bool"
  | .int _ => "int"
  | .float _ => "float"
  | .string _ => "string"
  | .bytes _ => "bytes"
  | .list _ => "list"
  | .map _ => "map"
  | .link _ => "link"

/-- `Node.AsInt`: an integer outside the signed 64-bit range is an error. -/
def asInt : Node → Option Int
  | .int i => if InInt64 i then some i else none
  | _ => none

def asString : Node → Option String
  | .string s => some s
  | _ => none

def asBytes : Node → Option Bytes
  | .bytes b => some b
  | _ => none

def asLink : Node → Option Cid
  | .link c => some c
  | _ => none

/-- The value a Go map built from the fields holds: the last one of each key. -/
def fieldOf (fields : List (String × Node)) (key : String) : Node :=
  ((fields.reverse.find? fun field => field.1 == key).map Prod.snd).getD .null

def checkKnown (obj : String) (want : List String) : List (String × Node) → Checked Unit
  | [] => .ok ()
  | (key, _) :: rest => do
      check (key ∈ want) s!"schema: {obj} has unknown field \"{key}\""
      checkKnown obj want rest

def checkPresent (obj : String) (fields : List (String × Node)) : List String → Checked Unit
  | [] => .ok ()
  | key :: rest => do
      check (key ∈ fields.map Prod.fst) s!"schema: {obj} is missing field \"{key}\""
      checkPresent obj fields rest

def mapFields (obj : String) (n : Node) (want : List String) :
    Checked (List (String × Node)) :=
  match n with
  | .map fields => do
      checkKnown obj want fields
      checkPresent obj fields want
      return fields
  | other =>
    let found := kind other
    .error s!"schema: {obj} must be a map, got {found}"

def checkVersion (obj : String) (n : Node) : Checked Unit :=
  match asInt n with
  | none => .error s!"schema: {obj} field \"v\" must be an integer"
  | some v => check (v = schemaVersion)
      s!"schema: {obj} has unknown version {v}, this build supports v{schemaVersion}"

def fieldString (obj key : String) (n : Node) : Checked String :=
  match asString n with
  | none => .error s!"schema: {obj} field \"{key}\" must be a string"
  | some s => .ok s

def fieldUint (obj key : String) (n : Node) : Checked Nat :=
  match asInt n with
  | none => .error s!"schema: {obj} field \"{key}\" must be an integer"
  | some i =>
    if i < 0 then .error s!"schema: {obj} field \"{key}\" must not be negative, got {i}"
    else .ok i.toNat

def fieldNullableUint (obj key : String) (n : Node) : Checked (Option Nat) :=
  match n with
  | .null => .ok none
  | other => do return some (← fieldUint obj key other)

def fieldLink (obj key : String) (n : Node) : Checked Link :=
  match asLink n with
  | none => .error s!"schema: {obj} field \"{key}\" must be a link"
  | some c => .ok (some c)

def fieldNullableLink (obj key : String) (n : Node) : Checked Link :=
  match n with
  | .null => .ok none
  | other => fieldLink obj key other

def headKeys : List String :=
  ["v", "name", "net", "origin_slot", "synced_to", "seg_bits", "fanout_bits", "dir_depth", "dir",
    "open"]

def segmentKeys : List String := ["v", "slot0", "rows"]

def dirNodeKeys : List String := ["v", "kids"]

/-- `DecodeHead` past the codec. -/
def headOfNode (n : Node) : Checked Head := do
  let fields ← mapFields "head" n headKeys
  checkVersion "head" (fieldOf fields "v")
  let name ← fieldString "head" "name" (fieldOf fields "name")
  let net ← fieldString "head" "net" (fieldOf fields "net")
  let originSlot ← fieldUint "head" "origin_slot" (fieldOf fields "origin_slot")
  let syncedTo ← fieldNullableUint "head" "synced_to" (fieldOf fields "synced_to")
  let segBits ← fieldUint "head" "seg_bits" (fieldOf fields "seg_bits")
  let fanoutBits ← fieldUint "head" "fanout_bits" (fieldOf fields "fanout_bits")
  let dirDepth ← fieldUint "head" "dir_depth" (fieldOf fields "dir_depth")
  let dir ← fieldNullableLink "head" "dir" (fieldOf fields "dir")
  let openCid ← fieldNullableLink "head" "open" (fieldOf fields "open")
  let h : Head := { name, net, originSlot, syncedTo, segBits, fanoutBits, dirDepth, dir, openCid }
  h.validate
  return h

def decodeRefEntry (rowIdx entryIdx : Nat) (n : Node) : Checked RefEntry :=
  let place := s!"rows[{rowIdx}] entries[{entryIdx}]"
  match n with
  | .list [vhNode, blobNode] =>
    match asBytes vhNode with
    | none => .error s!"schema: segment {place} vh must be a byte string"
    | some bytes => do
        let count := bytes.length
        if sized : bytes.length = versionedHashSize then
          let blob ← fieldLink "segment" (place ++ " blob") blobNode
          return { vh := ⟨bytes, sized⟩, blob }
        else
          .error s!"schema: segment {place} vh must be {versionedHashSize} bytes, got {count}"
  | .list items =>
    let count := items.length
    .error s!"schema: segment {place} must have exactly 2 elements, got {count}"
  | other =>
    let found := kind other
    .error s!"schema: segment {place} must be a list, got {found}"

def decodeRefEntries (rowIdx : Nat) : Nat → List Node → Checked (List RefEntry)
  | _, [] => .ok []
  | idx, n :: rest => do
      let entry ← decodeRefEntry rowIdx idx n
      let entries ← decodeRefEntries rowIdx (idx + 1) rest
      return entry :: entries

def decodeRow (idx : Nat) (n : Node) : Checked Row :=
  match n with
  | .list [slotNode, entriesNode] => do
      let slot ← fieldUint "segment" s!"rows[{idx}] slot" slotNode
      match entriesNode with
      | .list items => return { slot, entries := ← decodeRefEntries idx 0 items }
      | other =>
        let found := kind other
        .error s!"schema: segment rows[{idx}] entries must be a list, got {found}"
  | .list items =>
    let count := items.length
    .error s!"schema: segment rows[{idx}] must have exactly 2 elements, got {count}"
  | other =>
    let found := kind other
    .error s!"schema: segment rows[{idx}] must be a list, got {found}"

def decodeRows : Nat → List Node → Checked (List Row)
  | _, [] => .ok []
  | idx, n :: rest => do
      let row ← decodeRow idx n
      let rows ← decodeRows (idx + 1) rest
      return row :: rows

def segmentOfNode (n : Node) : Checked Segment := do
  let fields ← mapFields "segment" n segmentKeys
  checkVersion "segment" (fieldOf fields "v")
  let slot0 ← fieldUint "segment" "slot0" (fieldOf fields "slot0")
  match fieldOf fields "rows" with
  | .list items => do
      let s : Segment := { slot0, rows := ← decodeRows 0 items }
      s.validate
      return s
  | other =>
    let found := kind other
    .error s!"schema: segment field \"rows\" must be a list, got {found}"

def decodeKids : Nat → List Node → Checked (List Link)
  | _, [] => .ok []
  | idx, n :: rest => do
      let kid ← fieldNullableLink "dirnode" s!"kids[{idx}]" n
      let kids ← decodeKids (idx + 1) rest
      return kid :: kids

def dirNodeOfNode (n : Node) : Checked DirNode := do
  let fields ← mapFields "dirnode" n dirNodeKeys
  checkVersion "dirnode" (fieldOf fields "v")
  match fieldOf fields "kids" with
  | .list items => return { kids := trimTrailingNulls (← decodeKids 0 items) }
  | other =>
    let found := kind other
    .error s!"schema: dirnode field \"kids\" must be a list, got {found}"

section Decode
variable (ipld : Codec)

def decodeNode (block : Block) : Checked Node :=
  match ipld.decode block with
  | none => .error "schema: decoding dag-cbor"
  | some n => .ok n

def decodeHead (block : Block) : Checked Head := decodeNode ipld block >>= headOfNode

def decodeSegment (block : Block) : Checked Segment := decodeNode ipld block >>= segmentOfNode

def decodeDirNode (block : Block) : Checked DirNode := decodeNode ipld block >>= dirNodeOfNode

end Decode

/-! ### What was encoded decodes back -/

variable {v : Nat} {obj key : String} {i : Nat}

theorem inInt64_natCast (small : v ≤ maxInt64) : InInt64 v := by
  rw [maxInt64_eq] at small
  exact ⟨by omega, by omega⟩

theorem asInt_natCast (small : v ≤ maxInt64) : asInt (.int v) = some (v : Int) := by
  simp only [asInt, if_pos (inInt64_natCast small)]

theorem fieldUint_of_asInt {n : Node} (read : asInt n = some ↑v) : fieldUint obj key n = .ok v := by
  simp [fieldUint, read]

theorem fieldUint_int (small : v ≤ maxInt64) : fieldUint obj key (.int v) = .ok v :=
  fieldUint_of_asInt (asInt_natCast small)

theorem fieldNullableUint_nullableInt {v : Option Nat} (small : ∀ s, v = some s → s ≤ maxInt64) :
    fieldNullableUint obj key (nullableInt v) = .ok v := by
  cases v with
  | none => rfl
  | some s => simp [nullableInt, fieldNullableUint, fieldUint_int (small s rfl)]

theorem fieldNullableLink_nullableLink (obj key : String) (l : Link) :
    fieldNullableLink obj key (nullableLink l) = .ok l := by
  cases l <;> rfl

theorem checkVersion_schemaVersion (obj : String) :
    checkVersion obj (.int schemaVersion) = .ok () := by
  have range : InInt64 schemaVersion := ⟨by decide, by decide⟩
  simp [checkVersion, asInt, range]

variable {h : Head}

theorem headOfNode_headNode (encodable : h.Encodable) : headOfNode (headNode h) = .ok h := by
  simp only [headOfNode, headNode, checked_bind_ok_iff]
  exact ⟨_, rfl, (), checkVersion_schemaVersion _, h.name, rfl, h.net, rfl, h.originSlot,
    fieldUint_int encodable.origin, h.syncedTo, fieldNullableUint_nullableInt encodable.syncedInt,
    h.segBits, fieldUint_int encodable.seg, h.fanoutBits, fieldUint_int encodable.fanout,
    h.dirDepth, fieldUint_int encodable.depth, h.dir, fieldNullableLink_nullableLink _ _ _,
    h.openCid, fieldNullableLink_nullableLink _ _ _, (),
    Head.validate_ok_iff.mpr encodable.toValid, rfl⟩

theorem decodeRefEntry_refEntryNode {j : Nat} {e : RefEntry} (defined : e.blob.isSome) :
    decodeRefEntry i j (refEntryNode e) = .ok e := by
  obtain ⟨c, same⟩ := Option.isSome_iff_exists.mp defined
  obtain ⟨⟨bytes, sized⟩, blob⟩ := e
  subst same
  simp [decodeRefEntry, refEntryNode, asBytes, sized, nullableLink, fieldLink, asLink]

theorem decodeRefEntries_refEntryNode {j : Nat} {entries : List RefEntry}
    (defined : ∀ e ∈ entries, e.blob.isSome) :
    decodeRefEntries i j (entries.map refEntryNode) = .ok entries := by
  induction entries generalizing j with
  | nil => rfl
  | cons e rest ih =>
    rw [List.forall_mem_cons] at defined
    simp [decodeRefEntries, decodeRefEntry_refEntryNode defined.1, ih defined.2]

theorem decodeRow_rowNode {r : Row} (slot : r.slot ≤ maxInt64)
    (defined : ∀ e ∈ r.entries, e.blob.isSome) : decodeRow i (rowNode r) = .ok r := by
  simp [decodeRow, rowNode, fieldUint_int slot, decodeRefEntries_refEntryNode defined]

theorem decodeRows_rowNode {rows : List Row} (slots : ∀ r ∈ rows, r.slot ≤ maxInt64)
    (defined : ∀ r ∈ rows, ∀ e ∈ r.entries, e.blob.isSome) :
    decodeRows i (rows.map rowNode) = .ok rows := by
  induction rows generalizing i with
  | nil => rfl
  | cons r rest ih =>
    rw [List.forall_mem_cons] at slots defined
    simp [decodeRows, decodeRow_rowNode slots.1 defined.1, ih slots.2 defined.2]

variable {s : Segment}

theorem segmentOfNode_segmentNode (encodable : s.Encodable) :
    segmentOfNode (segmentNode s) = .ok s := by
  have rows : decodeRows 0 (s.rows.map rowNode) = .ok s.rows :=
    decodeRows_rowNode encodable.slots fun r member => (encodable.each r member).defined
  simp only [segmentOfNode, segmentNode]
  rw [checked_bind_ok_iff]
  refine ⟨_, rfl, ?_⟩
  simp only [checked_bind_ok_iff]
  refine ⟨(), checkVersion_schemaVersion _, s.slot0, fieldUint_int encodable.slot0, ?_⟩
  change (decodeRows 0 (s.rows.map rowNode) >>= fun rows => do
    Segment.validate { slot0 := s.slot0, rows }
    return { slot0 := s.slot0, rows }) = .ok s
  rw [rows, checked_bind_ok_iff]
  exact ⟨s.rows, rfl, checked_bind_ok_iff.mpr
    ⟨(), Segment.validate_ok_iff.mpr encodable.toValid, rfl⟩⟩

theorem decodeKids_nullableLink (kids : List Link) :
    decodeKids i (kids.map nullableLink) = .ok kids := by
  induction kids generalizing i with
  | nil => rfl
  | cons kid rest ih => simp [decodeKids, fieldNullableLink_nullableLink, ih]

theorem trimTrailingNulls_idempotent (kids : List Link) :
    trimTrailingNulls (trimTrailingNulls kids) = trimTrailingNulls kids :=
  List.rdropWhile_idempotent _ _

theorem dirNodeOfNode_dirNodeNode (d : DirNode) :
    dirNodeOfNode (dirNodeNode d) = .ok { kids := trimTrailingNulls d.kids } := by
  simp only [dirNodeOfNode, dirNodeNode]
  rw [checked_bind_ok_iff]
  refine ⟨_, rfl, checked_bind_ok_iff.mpr ⟨(), checkVersion_schemaVersion _, ?_⟩⟩
  change (decodeKids 0 ((trimTrailingNulls d.kids).map nullableLink) >>= fun kids =>
    return { kids := trimTrailingNulls kids : DirNode }) = .ok _
  rw [decodeKids_nullableLink, checked_bind_ok_iff]
  refine ⟨_, rfl, ?_⟩
  rw [trimTrailingNulls_idempotent]
  rfl

theorem int_plain (small : v ≤ maxInt64) : Node.Plain (.int v) :=
  .int (inInt64_natCast small)

theorem schemaVersion_plain : Node.Plain (.int schemaVersion) :=
  .int ⟨by decide, by decide⟩

theorem nullableLink_plain (l : Link) : (nullableLink l).Plain := by
  cases l with
  | none => exact .null
  | some c => exact .link c

theorem headNode_plain (encodable : h.Encodable) : (headNode h).Plain := by
  refine .map (by simp) fun field member => ?_
  simp only [List.mem_cons, List.not_mem_nil, or_false] at member
  rcases member with rfl | rfl | rfl | rfl | rfl | rfl | rfl | rfl | rfl | rfl
  · exact schemaVersion_plain
  · exact nullableLink_plain _
  · exact .string _
  · exact .string _
  · exact nullableLink_plain _
  · exact int_plain encodable.seg
  · exact int_plain encodable.depth
  · cases same : h.syncedTo with
    | none => exact .null
    | some s => exact int_plain (encodable.syncedInt s same)
  · exact int_plain encodable.fanout
  · exact int_plain encodable.origin

theorem rowNode_plain {r : Row} (slot : r.slot ≤ maxInt64) : (rowNode r).Plain := by
  refine .list fun item member => ?_
  simp only [List.mem_cons, List.not_mem_nil, or_false] at member
  rcases member with rfl | rfl
  · exact int_plain slot
  · refine .list fun entry member => ?_
    obtain ⟨e, -, rfl⟩ := List.mem_map.mp member
    refine .list fun part member => ?_
    simp only [List.mem_cons, List.not_mem_nil, or_false] at member
    rcases member with rfl | rfl
    · exact .bytes _
    · exact nullableLink_plain _

theorem segmentNode_plain (encodable : s.Encodable) : (segmentNode s).Plain := by
  refine .map (by simp) fun field member => ?_
  simp only [List.mem_cons, List.not_mem_nil, or_false] at member
  rcases member with rfl | rfl | rfl
  · exact schemaVersion_plain
  · refine .list fun item member => ?_
    obtain ⟨r, inside, rfl⟩ := List.mem_map.mp member
    exact rowNode_plain (encodable.slots r inside)
  · exact int_plain encodable.slot0

theorem dirNodeNode_plain (d : DirNode) : (dirNodeNode d).Plain := by
  refine .map (by simp) fun field member => ?_
  simp only [List.mem_cons, List.not_mem_nil, or_false] at member
  rcases member with rfl | rfl
  · exact schemaVersion_plain
  · refine .list fun item member => ?_
    obtain ⟨kid, -, rfl⟩ := List.mem_map.mp member
    exact nullableLink_plain kid

section RoundTrip
variable {ipld : Codec}

theorem decodeNode_encode {n : Node} (plain : n.Plain) (fits : size (ipld.encode n) ≤ decodable) :
    decodeNode ipld (ipld.encode n) = .ok n := by
  simp [decodeNode, ipld.decode_encode n plain fits]

theorem decodeHead_encode (encodable : h.Encodable)
    (fits : size (ipld.encode (headNode h)) ≤ decodable) :
    decodeHead ipld (ipld.encode (headNode h)) = .ok h := by
  simp [decodeHead, decodeNode_encode (headNode_plain encodable) fits,
    headOfNode_headNode encodable]

theorem decodeSegment_encode (encodable : s.Encodable)
    (fits : size (ipld.encode (segmentNode s)) ≤ decodable) :
    decodeSegment ipld (ipld.encode (segmentNode s)) = .ok s := by
  simp [decodeSegment, decodeNode_encode (segmentNode_plain encodable) fits,
    segmentOfNode_segmentNode encodable]

theorem decodeDirNode_encode {d : DirNode}
    (fits : size (ipld.encode (dirNodeNode d)) ≤ decodable) :
    decodeDirNode ipld (ipld.encode (dirNodeNode d)) = .ok { kids := trimTrailingNulls d.kids } := by
  simp [decodeDirNode, decodeNode_encode (dirNodeNode_plain d) fits, dirNodeOfNode_dirNodeNode]

end RoundTrip

/-! ### Whatever decodes is valid -/

variable {n : Node} {idx : Nat}

theorem asInt_range {i : Int} (found : asInt n = some i) : InInt64 i := by
  cases n with
  | int v =>
    simp only [asInt, Option.ite_none_right_eq_some, Option.some.injEq] at found
    obtain ⟨range, rfl⟩ := found
    exact range
  | _ => simp [asInt] at found

theorem fieldUint_le {obj key : String} {v : Nat} (read : fieldUint obj key n = .ok v) :
    v ≤ maxInt64 := by
  unfold fieldUint at read
  split at read
  · contradiction
  · rename_i i found
    have small := (asInt_range found).2
    split at read
    · contradiction
    · cases read
      rw [maxInt64_eq]
      omega

theorem fieldNullableUint_le {obj key : String} {v : Option Nat}
    (read : fieldNullableUint obj key n = .ok v) : ∀ s, v = some s → s ≤ maxInt64 := by
  rintro s rfl
  unfold fieldNullableUint at read
  split at read
  · simp at read
  · simp only [checked_bind_ok_iff, checked_pure_ok_iff, Option.some.injEq] at read
    obtain ⟨s, inner, rfl⟩ := read
    exact fieldUint_le inner

theorem headOfNode_encodable (read : headOfNode n = .ok h) : h.Encodable := by
  simp only [headOfNode, checked_bind_ok_iff, checked_pure_ok_iff, Head.validate_ok_iff] at read
  obtain ⟨_, -, _, -, name, -, net, -, origin, readOrigin, synced, readSynced, seg, readSeg, fanout,
    readFanout, depth, readDepth, dir, -, openCid, -, _, valid, rfl⟩ := read
  exact ⟨valid, fieldUint_le readOrigin, fieldUint_le readSeg, fieldUint_le readFanout,
    fieldUint_le readDepth, fieldNullableUint_le readSynced⟩

theorem decodeRow_slot {r : Row} (read : decodeRow idx n = .ok r) : r.slot ≤ maxInt64 := by
  unfold decodeRow at read
  split at read
  · rw [checked_bind_ok_iff] at read
    obtain ⟨slot, small, rest⟩ := read
    split at rest
    · simp only [checked_bind_ok_iff, checked_pure_ok_iff] at rest
      obtain ⟨entries, -, rfl⟩ := rest
      exact fieldUint_le small
    · contradiction
  · contradiction
  · contradiction

theorem decodeRows_slots {items : List Node} {rows : List Row}
    (read : decodeRows idx items = .ok rows) : ∀ r ∈ rows, r.slot ≤ maxInt64 := by
  induction items generalizing idx rows with
  | nil =>
    cases read
    simp
  | cons n rest ih =>
    simp only [decodeRows, checked_bind_ok_iff, checked_pure_ok_iff] at read
    obtain ⟨r, readRow, others, readRest, rfl⟩ := read
    rw [List.forall_mem_cons]
    exact ⟨decodeRow_slot readRow, ih readRest⟩

theorem segmentOfNode_encodable (read : segmentOfNode n = .ok s) : s.Encodable := by
  simp only [segmentOfNode, checked_bind_ok_iff] at read
  obtain ⟨fields, -, _, -, slot0, readSlot0, rest⟩ := read
  split at rest
  · simp only [checked_bind_ok_iff, checked_pure_ok_iff, Segment.validate_ok_iff] at rest
    obtain ⟨rows, readRows, _, valid, rfl⟩ := rest
    exact ⟨valid, fieldUint_le readSlot0, decodeRows_slots readRows⟩
  · contradiction

theorem dirNodeOfNode_trimmed {d : DirNode} (read : dirNodeOfNode n = .ok d) :
    trimTrailingNulls d.kids = d.kids := by
  simp only [dirNodeOfNode, checked_bind_ok_iff] at read
  obtain ⟨fields, -, _, -, rest⟩ := read
  split at rest
  · simp only [checked_bind_ok_iff, checked_pure_ok_iff] at rest
    obtain ⟨kids, -, rfl⟩ := rest
    exact trimTrailingNulls_idempotent kids
  · contradiction

section Decoded
variable {ipld : Codec} {block : Block}

theorem decodeHead_encodable (read : decodeHead ipld block = .ok h) : h.Encodable := by
  simp only [decodeHead, checked_bind_ok_iff] at read
  obtain ⟨n, -, read⟩ := read
  exact headOfNode_encodable read

theorem decodeSegment_encodable (read : decodeSegment ipld block = .ok s) : s.Encodable := by
  simp only [decodeSegment, checked_bind_ok_iff] at read
  obtain ⟨n, -, read⟩ := read
  exact segmentOfNode_encodable read

theorem decodeDirNode_trimmed {d : DirNode} (read : decodeDirNode ipld block = .ok d) :
    trimTrailingNulls d.kids = d.kids := by
  simp only [decodeDirNode, checked_bind_ok_iff] at read
  obtain ⟨n, -, read⟩ := read
  exact dirNodeOfNode_trimmed read

end Decoded

end Bloar.Schema
