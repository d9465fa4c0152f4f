import Bloar.Ipld

/-!
The DAG objects of the archive (`schema/schema.go`, `encode.go`, `decode.go`):
Head, Segment and DirNode, their validation, and their translation to and from
IPLD nodes. The texts of wrapped codec errors are left out; every check the
package makes itself keeps its text. `uint64` fields are natural numbers, and
the encoders refuse what exceeds an IPLD integer.
-/

namespace Bloar.Schema
open Ipld

abbrev Checked := Except String

/-- One check of the source: the text is what its failure returns. -/
def check (holds : Prop) [Decidable holds] (text : String) : Checked Unit :=
  if holds then .ok () else .error text

variable {u : Unit} {α : Type} {slot0 i : Nat}

@[simp] theorem check_ok_iff {holds : Prop} [Decidable holds] {text : String} :
    check holds text = .ok u ↔ holds := by
  unfold check
  split <;> simp [*]

@[simp] theorem checked_bind_ok_iff {β : Type} {x : Checked α} {f : α → Checked β} {b : β} :
    (x >>= f) = .ok b ↔ ∃ a, x = .ok a ∧ f a = .ok b := by
  cases x <;> simp [bind, Except.bind]

@[simp] theorem checked_pure_ok_iff {a b : α} : (pure a : Checked α) = .ok b ↔ a = b := by
  simp [pure, Except.pure]

def schemaVersion : Int := 1
def versionedHashSize : Nat := 32
def maxBlobsPerSlotCeiling : Nat := 128
def maxInt64 : Nat := 2 ^ 63 - 1

theorem maxInt64_eq : maxInt64 = 9223372036854775807 := rfl

structure VersionedHash where
  bytes : Bytes
  size_eq : bytes.length = versionedHashSize
  deriving DecidableEq, Repr

structure RefEntry where
  vh : VersionedHash
  blob : Link
  deriving DecidableEq, Repr

structure Row where
  slot : Nat
  entries : List RefEntry
  deriving DecidableEq, Repr

structure Segment where
  slot0 : Nat
  rows : List Row
  deriving DecidableEq, Repr

structure DirNode where
  kids : List Link
  deriving DecidableEq, Repr

structure Head where
  name : String
  net : String
  originSlot : Nat
  syncedTo : Option Nat
  segBits : Nat
  fanoutBits : Nat
  dirDepth : Nat
  dir : Link
  openCid : Link
  deriving DecidableEq, Repr

/-! ### Validation -/

def isNameStart (c : Char) : Bool :=
  ('a' ≤ c && c ≤ 'z') || ('0' ≤ c && c ≤ '9')

/-- `headNameRE`, the expression `^[a-z0-9][a-z0-9-]*$`. -/
def headNameRE : List Char → Bool
  | [] => false
  | first :: rest => isNameStart first && rest.all fun c => isNameStart c || c == '-'

def validateHeadName (name : String) : Checked Unit :=
  check (headNameRE name.toList = true)
    s!"schema: head name \"{name}\" does not match [a-z0-9][a-z0-9-]*"

def Head.validate (h : Head) : Checked Unit := do
  validateHeadName h.name
  let name := h.name
  let depth := h.dirDepth
  let defined := h.dir.isSome
  check (¬ ((h.dirDepth == 0) = h.dir.isSome))
    (s!"schema: head \"{name}\" has dir_depth {depth} but dir defined={defined}, " ++
      "dir must be null iff dir_depth is 0")
  let origin := h.originSlot
  let synced := h.syncedTo.getD 0
  check (∀ s ∈ h.syncedTo, ¬ s < h.originSlot)
    s!"schema: head \"{name}\" synced_to {synced} precedes origin_slot {origin}"

def validateEntries (slot0 i slot : Nat) : Nat → List RefEntry → Checked Unit
  | _, [] => .ok ()
  | j, e :: rest => do
      check (e.blob.isSome = true)
        s!"schema: segment slot0={slot0} row {i} (slot {slot}) entry {j} has an undefined blob link"
      validateEntries slot0 i slot (j + 1) rest

/-- The loop of `Segment.Validate` at row `i`, after a row at slot `previous`. -/
def validateRows (slot0 : Nat) : Nat → Option Nat → List Row → Checked Unit
  | _, _, [] => .ok ()
  | i, previous, r :: rest => do
      let slot := r.slot
      let last := previous.getD 0
      check (∀ p ∈ previous, ¬ r.slot ≤ p)
        (s!"schema: segment slot0={slot0} rows not strictly ascending: " ++
          s!"row {i} slot {slot} follows slot {last}")
      check (¬ r.slot < slot0)
        s!"schema: segment slot0={slot0} has row {i} with slot {slot} before the window start"
      check (¬ r.entries.length = 0)
        s!"schema: segment slot0={slot0} row {i} (slot {slot}) has no entries"
      let count := r.entries.length
      check (¬ r.entries.length > maxBlobsPerSlotCeiling)
        (s!"schema: segment slot0={slot0} row {i} (slot {slot}) has {count} entries, " ++
          s!"more than the {maxBlobsPerSlotCeiling}-blob ceiling per slot")
      validateEntries slot0 i r.slot 0 r.entries
      validateRows slot0 (i + 1) (some r.slot) rest

def Segment.validate (s : Segment) : Checked Unit := validateRows s.slot0 0 none s.rows

/-- What `Head.Validate` accepts. -/
structure Head.Valid (h : Head) : Prop where
  name : headNameRE h.name.toList = true
  dir_iff : h.dirDepth = 0 ↔ h.dir = none
  synced : ∀ s, h.syncedTo = some s → h.originSlot ≤ s

structure Row.Valid (slot0 : Nat) (r : Row) : Prop where
  after : slot0 ≤ r.slot
  filled : 0 < r.entries.length
  ceiling : r.entries.length ≤ maxBlobsPerSlotCeiling
  defined : ∀ e ∈ r.entries, e.blob.isSome

structure Segment.Valid (s : Segment) : Prop where
  ascending : s.rows.Pairwise fun a b => a.slot < b.slot
  each : ∀ r ∈ s.rows, r.Valid s.slot0

theorem Head.validate_ok_iff {h : Head} : h.validate = .ok u ↔ h.Valid := by
  unfold Head.validate validateHeadName
  simp only [checked_bind_ok_iff, check_ok_iff]
  constructor
  · rintro ⟨_, name, _, dir, synced⟩
    refine ⟨name, ?_, fun s same => Nat.not_lt.mp (synced s same)⟩
    cases present : h.dir <;> simp_all
  · rintro ⟨name, dir, synced⟩
    refine ⟨(), name, (), ?_, fun s same => Nat.not_lt.mpr (synced s same)⟩
    cases present : h.dir <;> simp_all

theorem validateEntries_ok_iff {slot j : Nat} {entries : List RefEntry} :
    validateEntries slot0 i slot j entries = .ok u ↔ ∀ e ∈ entries, e.blob.isSome := by
  induction entries generalizing j with
  | nil => simp [validateEntries]
  | cons e rest ih => simp [validateEntries, ih]

theorem validateRows_ok_iff {previous : Option Nat} {rows : List Row} :
    validateRows slot0 i previous rows = .ok u ↔
      (∀ p ∈ previous, ∀ r ∈ rows, p < r.slot) ∧
      (rows.Pairwise fun a b => a.slot < b.slot) ∧ ∀ r ∈ rows, r.Valid slot0 := by
  induction rows generalizing i previous with
  | nil => simp [validateRows]
  | cons r rest ih =>
    simp only [validateRows, checked_bind_ok_iff, check_ok_iff, validateEntries_ok_iff, ih,
      List.pairwise_cons, List.forall_mem_cons]
    constructor
    · rintro ⟨_, later, _, after, _, filled, _, ceiling, _, defined, above, ascending, each⟩
      refine ⟨fun p same => ?_, ⟨above r.slot rfl, ascending⟩,
        ⟨by omega, by omega, by omega, defined⟩, each⟩
      have first := later p same
      exact ⟨by omega, fun r' member => Nat.lt_trans (by omega) (above r.slot rfl r' member)⟩
    · rintro ⟨later, ⟨above, ascending⟩, valid, each⟩
      refine ⟨(), fun p same => ?_, (), ?_, (), ?_, (), ?_, (), valid.defined, ?_, ascending, each⟩
      · have first := (later p same).1
        omega
      · have := valid.after
        omega
      · have := valid.filled
        omega
      · have := valid.ceiling
        omega
      · rintro p ⟨⟩
        exact above

theorem Segment.validate_ok_iff {s : Segment} : s.validate = .ok u ↔ s.Valid := by
  unfold Segment.validate
  rw [validateRows_ok_iff]
  constructor
  · rintro ⟨-, ascending, each⟩
    exact ⟨ascending, each⟩
  · rintro ⟨ascending, each⟩
    exact ⟨by simp, ascending, each⟩

/-! ### Encoding -/

def checkCBORInt (obj field : String) (v : Nat) : Checked Unit :=
  check (¬ v > maxInt64)
    s!"schema: {obj} field \"{field}\" value {v} exceeds the maximum DAG-CBOR integer"

/-- The loop of `EncodeHead` and `EncodeSegment` over their integer fields. -/
def checkCBORInts (obj : String) : List (String × Nat) → Checked Unit
  | [] => .ok ()
  | (field, v) :: rest => do
      checkCBORInt obj field v
      checkCBORInts obj rest

theorem checkCBORInts_ok_iff {obj : String} {fields : List (String × Nat)} :
    checkCBORInts obj fields = .ok u ↔ ∀ field ∈ fields, field.2 ≤ maxInt64 := by
  induction fields with
  | nil => simp [checkCBORInts]
  | cons field rest ih => simp [checkCBORInts, checkCBORInt, ih]

def nullableInt : Option Nat → Node
  | none => .null
  | some v => .int v

def nullableLink : Link → Node
  | none => .null
  | some c => .link c

def trimTrailingNulls (kids : List Link) : List Link :=
  kids.rdropWhile fun kid => !kid.isSome

/-- The node `EncodeHead` builds, with its keys in the codec's sorted order. -/
def headNode (h : Head) : Node :=
  .map [("v", .int schemaVersion), ("dir", nullableLink h.dir), ("net", .string h.net),
    ("name", .string h.name), ("open", nullableLink h.openCid), ("seg_bits", .int h.segBits),
    ("dir_depth", .int h.dirDepth), ("synced_to", nullableInt h.syncedTo),
    ("fanout_bits", .int h.fanoutBits), ("origin_slot", .int h.originSlot)]

def refEntryNode (e : RefEntry) : Node := .list [.bytes e.vh.bytes, nullableLink e.blob]

def rowNode (r : Row) : Node := .list [.int r.slot, .list (r.entries.map refEntryNode)]

def segmentNode (s : Segment) : Node :=
  .map [("v", .int schemaVersion), ("rows", .list (s.rows.map rowNode)), ("slot0", .int s.slot0)]

def dirNodeNode (d : DirNode) : Node :=
  .map [("v", .int schemaVersion), ("kids", .list ((trimTrailingNulls d.kids).map nullableLink))]

def headInts (h : Head) : List (String × Nat) :=
  [("origin_slot", h.originSlot), ("seg_bits", h.segBits), ("fanout_bits", h.fanoutBits),
    ("dir_depth", h.dirDepth)] ++ h.syncedTo.toList.map fun s => ("synced_to", s)

def segmentInts (s : Segment) : List (String × Nat) :=
  ("slot0", s.slot0) :: s.rows.mapIdx fun i r => (s!"rows[{i}] slot", r.slot)

section Encode
variable (ipld : Codec)

def encodeNode (n : Node) : Block × Cid :=
  (ipld.encode n, ipld.nodeCID (ipld.encode n))

def encodeHead (h : Head) : Checked (Block × Cid) := do
  h.validate
  checkCBORInts "head" (headInts h)
  return encodeNode ipld (headNode h)

def encodeSegment (s : Segment) : Checked (Block × Cid) := do
  s.validate
  checkCBORInts "segment" (segmentInts s)
  return encodeNode ipld (segmentNode s)

def encodeDirNode (d : DirNode) : Checked (Block × Cid) :=
  return encodeNode ipld (dirNodeNode d)

end Encode

/-- What `EncodeHead` accepts. -/
structure Head.Encodable (h : Head) : Prop extends h.Valid where
  origin : h.originSlot ≤ maxInt64
  seg : h.segBits ≤ maxInt64
  fanout : h.fanoutBits ≤ maxInt64
  depth : h.dirDepth ≤ maxInt64
  syncedInt : ∀ s, h.syncedTo = some s → s ≤ maxInt64

structure Segment.Encodable (s : Segment) : Prop extends s.Valid where
  slot0 : s.slot0 ≤ maxInt64
  slots : ∀ r ∈ s.rows, r.slot ≤ maxInt64

theorem encodeHead_ok_iff {ipld : Codec} {h : Head} {r : Block × Cid} :
    encodeHead ipld h = .ok r ↔ h.Encodable ∧ r = encodeNode ipld (headNode h) := by
  simp only [encodeHead, checked_bind_ok_iff, Head.validate_ok_iff, checkCBORInts_ok_iff,
    checked_pure_ok_iff]
  constructor
  · rintro ⟨_, valid, _, ints, rfl⟩
    have each : ∀ field v, (field, v) ∈ headInts h → v ≤ maxInt64 := fun field v member =>
      ints (field, v) member
    exact ⟨⟨valid, each "origin_slot" _ (by simp [headInts]), each "seg_bits" _ (by simp [headInts]),
      each "fanout_bits" _ (by simp [headInts]), each "dir_depth" _ (by simp [headInts]),
      fun s same => each "synced_to" _ (by simp [headInts, same])⟩, rfl⟩
  · rintro ⟨valid, rfl⟩
    refine ⟨(), valid.toValid, (), ?_, rfl⟩
    simp only [headInts, List.mem_append, List.mem_cons, List.not_mem_nil, or_false,
      List.mem_map, Option.mem_toList]
    rintro field ((rfl | rfl | rfl | rfl) | ⟨s, same, rfl⟩)
    · exact valid.origin
    · exact valid.seg
    · exact valid.fanout
    · exact valid.depth
    · exact valid.syncedInt s same

theorem encodeSegment_ok_iff {ipld : Codec} {s : Segment} {r : Block × Cid} :
    encodeSegment ipld s = .ok r ↔ s.Encodable ∧ r = encodeNode ipld (segmentNode s) := by
  simp only [encodeSegment, checked_bind_ok_iff, Segment.validate_ok_iff, checkCBORInts_ok_iff,
    checked_pure_ok_iff, segmentInts, List.forall_mem_cons]
  constructor
  · rintro ⟨_, valid, _, ⟨slot0, slots⟩, rfl⟩
    refine ⟨{ toValid := valid, slot0, slots := fun r member => ?_ }, rfl⟩
    obtain ⟨i, bound, rfl⟩ := List.getElem_of_mem member
    exact slots _ (List.mem_mapIdx.mpr ⟨i, bound, rfl⟩)
  · rintro ⟨valid, rfl⟩
    refine ⟨(), valid.toValid, (), ⟨valid.slot0, fun field member => ?_⟩, rfl⟩
    obtain ⟨i, bound, rfl⟩ := List.mem_mapIdx.mp member
    exact valid.slots _ (List.getElem_mem bound)

@[simp] theorem encodeDirNode_eq {ipld : Codec} {d : DirNode} :
    encodeDirNode ipld d = .ok (encodeNode ipld (dirNodeNode d)) := rfl

end Bloar.Schema
