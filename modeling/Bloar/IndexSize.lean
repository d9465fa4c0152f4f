import Bloar.Canonical
import Bloar.DagCbor

/-!
The sizes of index blocks under DAG-CBOR. A link to a sha2-256 block takes 41
bytes and an entry of a row 76; everything else of a block is heads of at most
nine bytes and its fixed keys.
-/

namespace Bloar.Archive
open Ipld Schema
def headSize (argument : Nat) : Nat :=
  if argument < 24 then 1
  else if argument < 2 ^ 8 then 2
  else if argument < 2 ^ 16 then 3
  else if argument < 2 ^ 32 then 5
  else 9

theorem size_head (major argument : Nat) : size (DagCbor.head major argument) = headSize argument :=
  DagCbor.size_head major argument

theorem headSize_le (argument : Nat) : headSize argument ≤ 9 := by
  unfold headSize
  repeat' split
  all_goals omega

structure ShortCid (c : Cid) : Prop where
  version : c.version < 128
  codec : c.codec < 128
  code : c.hash.code < 128
  length : c.hash.length = 32

theorem sum_shortCid (ipld : Codec) {codec : Nat} (small : codec < 128) (block : Block) :
    ShortCid (ipld.sum codec block) :=
  ⟨show 1 < 128 by omega, small, show sha2_256 < 128 by decide, rfl⟩

theorem size_uvarint {n : Nat} (small : n < 128) : size (DagCbor.uvarint n) = 1 := by
  have one : DagCbor.uvarint n = [DagCbor.byte n] := by
    unfold DagCbor.uvarint
    cases n with
    | zero => rfl
    | succ n => rw [DagCbor.uvarint.go, if_pos small]
  rw [one]
  rfl

section Nodes
open DagCbor (encode)

theorem size_encode_nat (n : Nat) : size (encode (.int n)) = headSize n := size_head 0 n

theorem size_encode_link {c : Cid} (short : ShortCid c) : size (encode (.link c)) = 41 := by
  have body : size (DagCbor.cidBytes c) = 37 := by
    simp [DagCbor.cidBytes, DagCbor.byte, Octet.width, size_uvarint short.version,
      size_uvarint short.codec, size_uvarint short.code, short.length,
      size_uvarint (show 32 < 128 by omega)]
  simp only [encode, size_append, size_head, body]
  rfl

theorem size_encode_nullableLink {l : Link} (short : ∀ c ∈ l, ShortCid c) :
    size (encode (nullableLink l)) ≤ 41 := by
  cases l with
  | none => exact (by decide : 1 ≤ 41)
  | some c => exact Nat.le_of_eq (size_encode_link (short c rfl))

theorem size_encode_list (items : List Node) :
    size (encode (.list items)) = headSize items.length + (items.map fun n => size (encode n)).sum := by
  rw [encode, size_append, size_head, DagCbor.encodeItems_eq]
  congr 1
  induction items with
  | nil => rfl
  | cons n rest ih => simp [ih]

theorem size_encode_map (fields : List (String × Node)) :
    size (encode (.map fields)) = headSize fields.length +
      (fields.map fun field => size (DagCbor.text field.1) + size (encode field.2)).sum := by
  rw [encode, size_append, size_head, DagCbor.encodeFields_eq]
  congr 1
  induction fields with
  | nil => rfl
  | cons field rest ih =>
    simp only [List.flatMap_cons, size_append, ih, List.map_cons, List.sum_cons]

theorem size_refEntryNode {e : RefEntry} {c : Cid} (blob : e.blob = some c) (short : ShortCid c) :
    size (encode (refEntryNode e)) = 76 := by
  have hash : size (encode (.bytes e.vh.bytes)) = 34 := by
    rw [encode, size_append, size_head, DagCbor.size_bytes, e.vh.size_eq]
    rfl
  rw [refEntryNode, size_encode_list]
  simp only [List.map_cons, List.map_nil, List.sum_cons, List.sum_nil, hash, blob, nullableLink,
    size_encode_link short]
  rfl

def ShortBlobs (r : Row) : Prop := ∀ e ∈ r.entries, ∃ c, e.blob = some c ∧ ShortCid c

theorem size_rowNode {r : Row} (short : ShortBlobs r) :
    size (encode (rowNode r)) =
      1 + headSize r.slot + headSize r.entries.length + 76 * r.entries.length := by
  have entries : ((r.entries.map refEntryNode).map fun n => size (encode n)).sum =
      76 * r.entries.length := by
    have each : ∀ e ∈ r.entries, size (encode (refEntryNode e)) = 76 := by
      intro e member
      obtain ⟨c, blob, short⟩ := short e member
      exact size_refEntryNode blob short
    generalize r.entries = entries at each
    induction entries with
    | nil => rfl
    | cons e rest ih =>
      rw [List.forall_mem_cons] at each
      simp only [List.map_cons, List.sum_cons, each.1, ih each.2, List.length_cons]
      omega
  rw [rowNode, size_encode_list]
  simp only [List.map_cons, List.map_nil, List.sum_cons, List.sum_nil, size_encode_nat,
    size_encode_list, entries, List.length_cons, List.length_nil, List.length_map]
  have two : headSize (0 + 1 + 1) = 1 := rfl
  omega

theorem size_segmentNode (s : Segment) :
    size (encode (segmentNode s)) =
      15 + headSize s.rows.length + headSize s.slot0 +
        (s.rows.map fun r => size (encode (rowNode r))).sum := by
  rw [segmentNode, size_encode_map]
  simp only [List.map_cons, List.map_nil, List.sum_cons, List.sum_nil, size_encode_nat,
    size_encode_list, List.map_map, List.length_cons, List.length_nil, List.length_map]
  have three : headSize (0 + 1 + 1 + 1) = 1 := rfl
  have version : size (encode (.int schemaVersion)) = 1 := rfl
  have keys : size (DagCbor.text "v") = 2 ∧ size (DagCbor.text "rows") = 5 ∧
      size (DagCbor.text "slot0") = 6 := by decide
  simp only [Function.comp_def]
  omega

end Nodes

/-! ### Bounds -/

theorem sum_map_le {α : Type} {items : List α} {f : α → Nat} {bound : Nat}
    (each : ∀ item ∈ items, f item ≤ bound) : (items.map f).sum ≤ bound * items.length := by
  induction items with
  | nil => simp
  | cons item rest ih =>
    rw [List.forall_mem_cons] at each
    have first := each.1
    have later := ih each.2
    simp only [List.map_cons, List.sum_cons, List.length_cons, Nat.mul_add, Nat.mul_one]
    omega

theorem size_text_le (s : String) : size (DagCbor.text s) ≤ 9 + s.toByteArray.size := by
  rw [DagCbor.size_text, size_head]
  have := headSize_le s.toByteArray.size
  omega

theorem size_headNode_le {h : Schema.Head} (dir : ∀ c ∈ h.dir, ShortCid c)
    (opened : ∀ c ∈ h.openCid, ShortCid c) :
    size (DagCbor.encode (headNode h)) ≤ 220 + h.net.toByteArray.size + h.name.toByteArray.size := by
  have synced : size (DagCbor.encode (nullableInt h.syncedTo)) ≤ 9 := by
    cases h.syncedTo with
    | none => exact (by decide : 1 ≤ 9)
    | some s =>
      rw [nullableInt, size_encode_nat]
      exact headSize_le s
  have dirLink := size_encode_nullableLink dir
  have openLink := size_encode_nullableLink opened
  have net := size_text_le h.net
  have name := size_text_le h.name
  have segBits := headSize_le h.segBits
  have depth := headSize_le h.dirDepth
  have fanout := headSize_le h.fanoutBits
  have origin := headSize_le h.originSlot
  have keys : size (DagCbor.text "v") = 2 ∧ size (DagCbor.text "dir") = 4 ∧
      size (DagCbor.text "net") = 4 ∧ size (DagCbor.text "name") = 5 ∧
      size (DagCbor.text "open") = 5 ∧ size (DagCbor.text "seg_bits") = 9 ∧
      size (DagCbor.text "dir_depth") = 10 ∧ size (DagCbor.text "synced_to") = 10 ∧
      size (DagCbor.text "fanout_bits") = 12 ∧ size (DagCbor.text "origin_slot") = 12 := by
    decide
  have version : size (DagCbor.encode (.int schemaVersion)) = 1 := rfl
  have string (t : String) : size (DagCbor.encode (.string t)) = size (DagCbor.text t) := rfl
  have ten : headSize 10 = 1 := rfl
  rw [headNode, size_encode_map]
  simp only [List.map_cons, List.map_nil, List.sum_cons, List.sum_nil, size_encode_nat,
    List.length_cons, List.length_nil, Nat.zero_add, Nat.reduceAdd, string]
  omega

theorem size_dirNodeNode_le {kids : List Link} (short : ∀ kid ∈ kids, ∀ c ∈ kid, ShortCid c) :
    size (DagCbor.encode (dirNodeNode ⟨kids⟩)) ≤ 18 + 41 * kids.length := by
  have trimmed : (trimTrailingNulls kids).length ≤ kids.length :=
    (List.rdropWhile_prefix _ _).length_le
  have links : ((trimTrailingNulls kids).map fun kid =>
      size (DagCbor.encode (nullableLink kid))).sum ≤ 41 * (trimTrailingNulls kids).length :=
    sum_map_le fun kid member => size_encode_nullableLink (short kid
      ((List.rdropWhile_prefix _ _).subset member))
  have count := headSize_le (trimTrailingNulls kids).length
  have keys : size (DagCbor.text "v") = 2 ∧ size (DagCbor.text "kids") = 5 := by decide
  have version : size (DagCbor.encode (.int schemaVersion)) = 1 := rfl
  have two : headSize 2 = 1 := rfl
  rw [dirNodeNode, size_encode_map]
  simp only [List.map_cons, List.map_nil, List.sum_cons, List.sum_nil, size_encode_list,
    List.map_map, List.length_cons, List.length_nil, List.length_map, Nat.zero_add, Nat.reduceAdd,
    Function.comp_def]
  omega

theorem size_segmentNode_le {s : Segment} (short : ∀ r ∈ s.rows, ShortBlobs r) :
    size (DagCbor.encode (segmentNode s)) ≤
      33 + (s.rows.map fun r => 19 + 76 * r.entries.length).sum := by
  have each : (s.rows.map fun r => size (DagCbor.encode (rowNode r))).sum ≤
      (s.rows.map fun r => 19 + 76 * r.entries.length).sum := by
    apply List.sum_le_sum
    intro r member
    rw [size_rowNode (short r member)]
    have slot := headSize_le r.slot
    have count := headSize_le r.entries.length
    omega
  have count := headSize_le s.rows.length
  have start := headSize_le s.slot0
  rw [size_segmentNode]
  omega

theorem size_rootNode_le (params : Params) (m : Contents) :
    size (DagCbor.encode (rootNode DagCbor.codec params m)) ≤
      220 + params.net.toByteArray.size + params.name.toByteArray.size := by
  have same : (bareState DagCbor.codec params m).params = params := bareState_params
  have short : ∀ n, ShortCid (cidOf DagCbor.codec n) := fun n => sum_shortCid _ (by decide) _
  have bound := size_headNode_le (h := (bareState DagCbor.codec params m).headObject) ?_ ?_
  · have net : (bareState DagCbor.codec params m).headObject.net = params.net :=
      congrArg Params.net same
    have name : (bareState DagCbor.codec params m).headObject.name = params.name :=
      congrArg Params.name same
    rw [net, name] at bound
    exact bound
  · intro c link
    unfold bareState at link
    split at link
    · cases link
    · rename_i s _
      simp only [State.headObject, dirLink] at link
      split at link
      · cases link
      · cases link
        exact short _
  · intro c link
    unfold bareState at link
    split at link
    · cases link
    · cases link
      exact short _

def rowBytes (rows : List Row) : Nat := (rows.map fun r => 19 + 76 * r.entries.length).sum

theorem size_segOf_le {segBits : Nat} {rows : List Row} (short : ∀ r ∈ rows, ShortBlobs r)
    (win : Nat) :
    size (DagCbor.encode (segmentNode (segOf segBits rows win))) ≤ 33 + rowBytes rows := by
  refine Nat.le_trans (size_segmentNode_le fun r member => short r (mem_windowRows.mp member).1) ?_
  apply Nat.add_le_add_left
  exact (List.filter_sublist.map _).sum_le_sum fun _ _ => Nat.zero_le _

theorem not_bigPage {fanoutBits : Nat} (narrow : fanoutBits ≤ 15) :
    ¬ BigPage DagCbor.codec (2 ^ fanoutBits) := by
  rintro ⟨kids, few, links, large⟩
  have bound : size (DagCbor.encode (dirNodeNode ⟨kids⟩)) ≤ 18 + 41 * kids.length := by
    refine size_dirNodeNode_le fun kid member c same => ?_
    obtain ⟨block, rfl⟩ := links c (same ▸ member)
    exact sum_shortCid _ (by decide) _
  have width : 2 ^ fanoutBits ≤ 2 ^ 15 := Nat.pow_le_pow_right (by omega) narrow
  have limit : maxIndexNodeBytes = 2097152 := rfl
  change maxIndexNodeBytes < size (DagCbor.encode (dirNodeNode ⟨kids⟩)) at large
  omega

end Bloar.Archive
