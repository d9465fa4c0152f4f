import Bloar.Pins

/-!
What a policy retains (`Desired` in `pinning/policy.go`). Every mode retains the whole
index, so every covered slot stays answerable. The modes differ in the blobs: all of
them, those of the windows that meet the retention range, or none.
-/

namespace Bloar.Schema
open Ipld

def Segment.blobs (s : Segment) : List Cid :=
  s.rows.flatMap fun r => r.entries.filterMap RefEntry.blob

theorem Segment.mem_blobs {s : Segment} {c : Cid} :
    c ∈ s.blobs ↔ ∃ r ∈ s.rows, ∃ e ∈ r.entries, e.blob = some c := by
  simp [Segment.blobs]

section Links

variable {n : Node} {obj : String} {i : Nat} {fields : List (String × Node)}

theorem links_of_asInt {i : Int} (read : asInt n = some i) : n.links = [] := by
  cases n with
  | int => rfl
  | _ => cases read

theorem links_of_fieldUint {key : String} {v : Nat} (read : fieldUint obj key n = .ok v) :
    n.links = [] := by
  unfold fieldUint at read
  split at read
  · cases read
  · rename_i i number
    exact links_of_asInt number

theorem links_of_checkVersion {u : Unit} (read : checkVersion obj n = .ok u) : n.links = [] := by
  unfold checkVersion at read
  split at read
  · cases read
  · rename_i i number
    exact links_of_asInt number

theorem links_of_decodeRefEntry {j : Nat} {e : RefEntry} (read : decodeRefEntry i j n = .ok e) :
    n.links = e.blob.toList := by
  unfold decodeRefEntry at read
  split at read
  · rename_i vhNode blobNode
    cases bytes : asBytes vhNode with
    | none => simp [bytes] at read
    | some bs =>
      have plain : vhNode.links = [] := by
        cases vhNode with
        | bytes => rfl
        | _ => cases bytes
      rw [bytes] at read
      dsimp only at read
      split at read
      · simp only [checked_bind_ok_iff, checked_pure_ok_iff] at read
        obtain ⟨blob, link, rfl⟩ := read
        unfold fieldLink at link
        split at link
        · cases link
        · rename_i c named
          cases link
          cases blobNode with
          | link d =>
            cases named
            simp [Node.links, linksOfItems, plain]
          | _ => cases named
      · cases read
  · cases read
  · cases read

theorem links_of_decodeRefEntries {j : Nat} {items : List Node} {entries : List RefEntry}
    (read : decodeRefEntries i j items = .ok entries) :
    linksOfItems items = entries.filterMap RefEntry.blob := by
  induction items generalizing j entries with
  | nil =>
    cases read
    rfl
  | cons item rest ih =>
    simp only [decodeRefEntries, checked_bind_ok_iff, checked_pure_ok_iff] at read
    obtain ⟨e, first, others, later, rfl⟩ := read
    rw [linksOfItems, links_of_decodeRefEntry first, ih later]
    cases named : e.blob with
    | none | some => simp [named]

theorem links_of_decodeRow {r : Row} (read : decodeRow i n = .ok r) :
    n.links = r.entries.filterMap RefEntry.blob := by
  unfold decodeRow at read
  split at read
  · rename_i slotNode entriesNode
    simp only [checked_bind_ok_iff] at read
    obtain ⟨slot, number, read⟩ := read
    split at read
    · simp only [checked_bind_ok_iff, checked_pure_ok_iff] at read
      obtain ⟨entries, found, rfl⟩ := read
      simp [Node.links, linksOfItems, links_of_fieldUint number, links_of_decodeRefEntries found]
    · cases read
  · cases read
  · cases read

theorem links_of_decodeRows {items : List Node} {rows : List Row}
    (read : decodeRows i items = .ok rows) :
    linksOfItems items = rows.flatMap fun r => r.entries.filterMap RefEntry.blob := by
  induction items generalizing i rows with
  | nil =>
    cases read
    rfl
  | cons item rest ih =>
    simp only [decodeRows, checked_bind_ok_iff, checked_pure_ok_iff] at read
    obtain ⟨r, first, others, later, rfl⟩ := read
    rw [linksOfItems, links_of_decodeRow first, ih later, List.flatMap_cons]

theorem links_of_map {d : Cid} (distinct : (fields.map Prod.fst).Nodup)
    (inside : d ∈ (Node.map fields).links) :
    ∃ key ∈ fields.map Prod.fst, d ∈ (fieldOf fields key).links := by
  have member : ∃ field ∈ fields, d ∈ field.2.links := by
    rw [Node.links] at inside
    clear distinct
    induction fields with
    | nil => cases inside
    | cons field rest ih =>
      rw [linksOfFields, List.mem_append] at inside
      rcases inside with here | later
      · exact ⟨field, List.mem_cons_self .., here⟩
      · obtain ⟨other, among, at_other⟩ := ih later
        exact ⟨other, List.mem_cons_of_mem _ among, at_other⟩
  obtain ⟨field, among, at_field⟩ := member
  refine ⟨field.1, List.mem_map_of_mem among, ?_⟩
  -- No other field has the key, so the last one of the key is this one.
  have found : fieldOf fields field.1 = field.2 := by
    unfold fieldOf
    cases at_key : fields.reverse.find? fun other => other.1 == field.1 with
    | none =>
      have none := List.find?_eq_none.mp at_key field (List.mem_reverse.mpr among)
      simp at none
    | some other =>
      have same : other.1 = field.1 := by simpa using List.find?_some at_key
      have inside := List.mem_reverse.mp (List.mem_of_find?_eq_some at_key)
      rw [List.inj_on_of_nodup_map distinct inside among same]
      rfl
  rw [found]
  exact at_field

theorem checkKnown_ok {keys : List String} {u : Unit} (known : checkKnown obj keys fields = .ok u) :
    ∀ key ∈ fields.map Prod.fst, key ∈ keys := by
  induction fields with
  | nil => simp
  | cons field rest ih =>
    simp only [checkKnown, checked_bind_ok_iff, check_ok_iff] at known
    obtain ⟨_, first, later⟩ := known
    rw [List.map_cons, List.forall_mem_cons]
    exact ⟨first, ih later⟩

theorem links_of_segmentOfNode {s : Segment} {d : Cid} (distinct : (fields.map Prod.fst).Nodup)
    (read : segmentOfNode (.map fields) = .ok s) : d ∈ (Node.map fields).links ↔ d ∈ s.blobs := by
  simp only [segmentOfNode, checked_bind_ok_iff] at read
  obtain ⟨found, isMap, _, version, slot0, number, read⟩ := read
  simp only [mapFields, checked_bind_ok_iff, checked_pure_ok_iff] at isMap
  obtain ⟨_, known, _, -, rfl⟩ := isMap
  split at read
  · rename_i items rowsNode
    simp only [checked_bind_ok_iff, checked_pure_ok_iff] at read
    obtain ⟨rows, decoded, _, -, rfl⟩ := read
    have blobs : (fieldOf fields "rows").links = Segment.blobs ⟨slot0, rows⟩ := by
      rw [rowsNode, Node.links, links_of_decodeRows decoded]
      rfl
    constructor
    · intro inside
      obtain ⟨key, among, at_key⟩ := links_of_map distinct inside
      have named := checkKnown_ok known key among
      simp only [segmentKeys, List.mem_cons, List.not_mem_nil, or_false] at named
      rcases named with rfl | rfl | rfl
      · simp [links_of_checkVersion version] at at_key
      · simp [links_of_fieldUint number] at at_key
      · rwa [blobs] at at_key
    · intro inside
      rw [← blobs] at inside
      exact Pinning.links_of_fieldOf "rows" inside
  · cases read

end Links

end Bloar.Schema

namespace Bloar.Archive
open Ipld Schema Arith

section Listed
variable {ipld : Codec} {segBits : Nat}

theorem exists_sealedFrom {window : Nat} {es : List Link} {c : Cid} (member : some c ∈ es) :
    ∃ x ∈ sealedFrom segBits window es, x.cid = c := by
  induction es generalizing window with
  | nil => cases member
  | cons entry rest ih =>
    rcases List.mem_cons.mp member with rfl | later
    · exact ⟨_, List.mem_cons_self .., rfl⟩
    · obtain ⟨x, inside, same⟩ := ih later
      cases entry with
      | none => exact ⟨x, inside, same⟩
      | some d => exact ⟨x, List.mem_cons_of_mem _ inside, same⟩

theorem sealedFrom_slots {window : Nat} {es : List Link} {x : SealedSegment}
    (member : x ∈ sealedFrom segBits window es) :
    x.firstSlot = windowStart x.ord segBits ∧ x.lastSlot = windowEnd x.ord segBits := by
  induction es generalizing window with
  | nil => simp [sealedFrom] at member
  | cons entry rest ih =>
    cases entry with
    | none => exact ih member
    | some c =>
      rcases List.mem_cons.mp member with rfl | later
      · exact ⟨rfl, rfl⟩
      · exact ih later

end Listed

section Blocks
variable {ipld : Codec} {root c : Cid} {h : Schema.Head} {es : List Link}

variable (admissible : Admissible ipld h es)
include admissible

theorem Admissible.reaches_iff (isHead : IsHead ipld root h) :
    (∃ kind, Reaches ipld root kind c) ↔ c = root ∨ c ∈ (enumerationOf ipld root h es).dirPages ∨
      (∃ x ∈ (enumerationOf ipld root h es).sealed, c = x.cid) ∨
      (enumerationOf ipld root h es).openCid = some c := by
  have pages : c ∈ (enumerationOf ipld root h es).dirPages ↔ c ∈ headPages ipld h :=
    mem_firstVisits.trans (by simp)
  rw [pages]
  cases admissible with
  | uncovered bare depth dir openCid =>
    simp only [enumerationOf, headPages_zero depth, sealedFrom, openCid, List.not_mem_nil,
      false_and, exists_false, or_false, reduceCtorEq]
    constructor
    · rintro ⟨kind, reached⟩
      exact (reaches_bare isHead dir openCid reached).2
    · rintro rfl
      exact ⟨_, .root⟩
  | @covered opened _ covered few depth formed =>
    constructor
    · rintro ⟨kind, reached⟩
      cases formed.stands isHead reached with
      | head => exact .inl rfl
      | opened => exact .inr (.inr (.inr formed.openCid))
      | sealed member =>
        obtain ⟨x, inside, same⟩ := exists_sealedFrom member
        exact .inr (.inr (.inl ⟨x, inside, same.symm⟩))
      | page _ _ under => exact .inr (.inl (under c (mem_pagesUnder_self ..)))
    · rintro (rfl | page | ⟨x, inside, rfl⟩ | opened)
      · exact ⟨_, .root⟩
      · obtain ⟨depth, reached⟩ := (formed.mem_headPages_iff isHead).mp page
        exact ⟨_, reached⟩
      · have least : h.dirDepth = 0 → es = [] := fun zero =>
          List.length_eq_zero_iff.mp (depth.zero_iff.mp zero)
        obtain ⟨-, -, entry⟩ := mem_sealedFrom inside
        exact ⟨_, formed.reaches_entry isHead least (List.mem_of_getElem? entry)⟩
      · obtain ⟨block, rfl, -, decoded⟩ := isHead
        exact ⟨_, .step .root (.opened decoded opened)⟩

theorem Admissible.isSegment
    (listed : (∃ x ∈ (enumerationOf ipld root h es).sealed, c = x.cid) ∨
      (enumerationOf ipld root h es).openCid = some c) : ∃ sg, IsSegment ipld c sg := by
  cases admissible with
  | uncovered bare depth dir openCid =>
    rcases listed with ⟨x, inside, -⟩ | opened
    · simp [enumerationOf, sealedFrom] at inside
    · rw [show (enumerationOf ipld root h []).openCid = h.openCid from rfl, openCid] at opened
      cases opened
  | covered _ _ _ formed =>
    rcases listed with ⟨x, inside, rfl⟩ | opened
    · obtain ⟨-, -, entry⟩ := mem_sealedFrom inside
      exact formed.sealed.segments _ (List.mem_of_getElem? entry)
    · rw [show (enumerationOf ipld root h es).openCid = h.openCid from rfl, formed.openCid]
        at opened
      cases opened
      obtain ⟨sg, placed⟩ := formed.segment
      exact ⟨sg, placed.segment⟩

theorem Admissible.sealed_starts (isHead : IsHead ipld root h) {x : SealedSegment}
    (inside : x ∈ (enumerationOf ipld root h es).sealed) :
    x.firstSlot ≤ x.lastSlot ∧ x.firstSlot ≤ (enumerationOf ipld root h es).syncedTo := by
  cases admissible with
  | uncovered => simp [enumerationOf, sealedFrom] at inside
  | covered covered _ _ formed =>
    obtain ⟨s, synced⟩ := Option.isSome_iff_exists.mp covered
    obtain ⟨block, -, -, decoded⟩ := isHead
    have small := (decodeHead_encodable decoded).syncedInt s synced
    have total := formed.total
    obtain ⟨-, high, -⟩ := mem_sealedFrom inside
    obtain ⟨first, last⟩ := sealedFrom_slots inside
    have last_eq : (enumerationOf ipld root h es).syncedTo = s := by simp [enumerationOf, synced]
    rw [synced, Option.getD_some] at total
    have start := le_ord_iff.mp (show x.ord + 1 ≤ ord (s + 1) h.segBits by omega)
    have width := Nat.two_pow_pos h.segBits
    have wide : (x.ord + 1) * 2 ^ h.segBits = x.ord * 2 ^ h.segBits + 2 ^ h.segBits := by ring
    rw [maxInt64_eq] at small
    rw [first, last, last_eq, windowStart_eq (by omega), windowEnd_eq (by omega)]
    omega

end Blocks

end Bloar.Archive

namespace Bloar.Pinning
open Ipld Archive Arith Fallible

section Segments
variable {ipld : Codec} {c d : Cid} {sg : Schema.Segment}

theorem raw_links (leaf : c.codec = raw) : ¬ ipld.LinksTo c d := by
  rintro ⟨inner, -⟩
  rw [leaf] at inner
  cases inner

theorem segment_linksTo_iff (distinct : ipld.Distinct) (segment : IsSegment ipld c sg) :
    ipld.LinksTo c d ↔ d ∈ sg.blobs := by
  obtain ⟨block, rfl, -, decoded, -⟩ := segment
  simp only [Schema.decodeSegment, Schema.checked_bind_ok_iff] at decoded
  obtain ⟨node, read, decoded⟩ := decoded
  have isMap : ∃ fields, node = .map fields := by
    simp only [Schema.segmentOfNode, Schema.checked_bind_ok_iff] at decoded
    obtain ⟨fields, isMap, -⟩ := decoded
    exact ⟨fields, mapFields_ok isMap⟩
  obtain ⟨fields, rfl⟩ := isMap
  have found : ipld.decode block = some (.map fields) := by
    unfold Schema.decodeNode at read
    split at read
    · cases read
    · rename_i other named
      cases read
      exact named
  rw [← Schema.links_of_segmentOfNode (distinct _ _ found) decoded]
  constructor
  · rintro ⟨-, data, node, verifies, at_data, inside⟩
    have same : data = block := verifies.unique rfl
    rw [same, found] at at_data
    cases at_data
    exact inside
  · intro inside
    exact linksTo_of_node read inside

theorem segment_blob_raw (segment : IsSegment ipld c sg) (blob : d ∈ sg.blobs) :
    HasPrefix raw d := by
  obtain ⟨_, _, _, _, raws⟩ := segment
  obtain ⟨r, row, e, entry, named⟩ := Schema.Segment.mem_blobs.mp blob
  obtain ⟨d', named', isRaw⟩ := raws r row e entry
  rw [named] at named'
  cases named'
  exact isRaw

theorem segment_dag_iff (distinct : ipld.Distinct) (segment : IsSegment ipld c sg) :
    ipld.Dag c d ↔ d = c ∨ d ∈ sg.blobs := by
  constructor
  · intro under
    rcases under.cases_head with same | ⟨blob, link, rest⟩
    · exact .inl same.symm
    · rw [segment_linksTo_iff distinct segment] at link
      have leaf := (segment_blob_raw segment link).2.1
      rcases rest.cases_head with rfl | ⟨_, further, -⟩
      · exact .inr link
      · exact absurd further (raw_links leaf)
  · rintro (rfl | blob)
    · exact .refl
    · exact .single ((segment_linksTo_iff distinct segment).mpr blob)

end Segments

/-! ### The pins of a policy -/

section Pins
variable {ipld : Codec} {policy : Policy} {e : Enumeration} {pins : List Pin} {root c : Cid}

@[simp] theorem covers_direct {purpose : Purpose} {d : Cid} :
    Pin.Covers ipld ⟨purpose, c, false⟩ d ↔ d = c := by
  simp [Pin.Covers]

@[simp] theorem covers_recursive {purpose : Purpose} {d : Cid} :
    Pin.Covers ipld ⟨purpose, c, true⟩ d ↔ ipld.Dag c d := by
  simp [Pin.Covers]

theorem retained_map {α : Type} {xs : List α} {f : α → Pin} :
    Retained ipld (xs.map f) c ↔ ∃ x ∈ xs, (f x).Covers ipld c := by
  simp [Retained]

theorem desired_full (full : policy.mode = .full) (at_root : e.root = some root)
    (made : desired policy e = .ok pins) : pins = [⟨.root, root, true⟩] := by
  simp only [desired, Policy.validate, full, at_root, if_true, bind, Except.bind, pure, Except.pure,
    Except.ok.injEq] at made
  exact made.symm

theorem desired_index (notFull : policy.mode ≠ .full) (at_root : e.root = some root)
    (made : desired policy e = .ok pins) :
    pins = ⟨.root, root, false⟩ :: e.dirPages.map (fun page => ⟨.index, page, false⟩) ++
      e.sealed.map (sealedPin policy (policy.windowLow e.syncedTo)) ++
      e.openCid.toList.map fun c => ⟨.openWindow, c, policy.mode = .window⟩ := by
  unfold desired at made
  cases valid : policy.validate with
  | error => simp [valid, bind, Except.bind] at made
  | ok =>
    simp only [valid, at_root, notFull, if_false, bind, Except.bind, pure, Except.pure,
      Except.ok.injEq] at made
    exact made.symm

theorem retained_index (notFull : policy.mode ≠ .full) (at_root : e.root = some root)
    (made : desired policy e = .ok pins) :
    Retained ipld pins c ↔ c = root ∨ c ∈ e.dirPages ∨
      (∃ x ∈ e.sealed, (sealedPin policy (policy.windowLow e.syncedTo) x).Covers ipld c) ∨
      ∃ seg, e.openCid = some seg ∧ Pin.Covers ipld ⟨.openWindow, seg, policy.mode = .window⟩ c := by
  rw [desired_index notFull at_root made, retained_append, retained_append, retained_cons,
    retained_map, retained_map, retained_map]
  simp [or_assoc]

theorem windowLow_eq (policy : Policy) (syncedTo : Nat) :
    policy.windowLow syncedTo = syncedTo - policy.windowSlots := by
  unfold Policy.windowLow
  split <;> omega

end Pins

def Policy.Meets (policy : Policy) (e : Enumeration) (x : SealedSegment) : Prop :=
  ∃ slot, (x.firstSlot ≤ slot ∧ slot ≤ x.lastSlot) ∧
    e.syncedTo - policy.windowSlots ≤ slot ∧ slot ≤ e.syncedTo

def RefersTo (ipld : Codec) (segment blob : Cid) : Prop :=
  ∃ sg, IsSegment ipld segment sg ∧ blob ∈ sg.blobs

section Closure
variable {ipld : Codec} {policy : Policy} {pins : List Pin} {root c : Cid} {h : Schema.Head}
variable {es : List Link}

theorem meets_iff (admissible : Admissible ipld h es) (isHead : IsHead ipld root h)
    {x : SealedSegment} (inside : x ∈ (enumerationOf ipld root h es).sealed) :
    policy.Meets (enumerationOf ipld root h es) x ↔
      policy.windowLow (enumerationOf ipld root h es).syncedTo ≤ x.lastSlot := by
  obtain ⟨nonempty, starts⟩ := admissible.sealed_starts isHead inside
  rw [windowLow_eq]
  constructor
  · rintro ⟨slot, ⟨-, last⟩, low, -⟩
    omega
  · intro low
    refine ⟨max x.firstSlot ((enumerationOf ipld root h es).syncedTo - policy.windowSlots), ?_, ?_⟩
    · omega
    · omega

theorem sealedPin_covers (distinct : ipld.Distinct) (admissible : Admissible ipld h es)
    (isHead : IsHead ipld root h) (windowed : policy.mode = .window) {x : SealedSegment}
    (inside : x ∈ (enumerationOf ipld root h es).sealed) :
    (sealedPin policy (policy.windowLow (enumerationOf ipld root h es).syncedTo) x).Covers ipld c ↔
      c = x.cid ∨ policy.Meets (enumerationOf ipld root h es) x ∧ RefersTo ipld x.cid c := by
  obtain ⟨sg, segment⟩ := admissible.isSegment (.inl ⟨x, inside, rfl⟩)
  have refers : RefersTo ipld x.cid c ↔ c ∈ sg.blobs := by
    constructor
    · rintro ⟨other, again, blob⟩
      rwa [segment.unique again]
    · intro blob
      exact ⟨sg, segment, blob⟩
  rw [meets_iff admissible isHead inside, refers, sealedPin, windowed]
  by_cases low : policy.windowLow (enumerationOf ipld root h es).syncedTo ≤ x.lastSlot
  · rw [if_pos ⟨rfl, low⟩, covers_recursive, segment_dag_iff distinct segment]
    simp [low]
  · rw [if_neg (fun both => low both.2), covers_direct]
    simp [low]

theorem window_closure (distinct : ipld.Distinct) (admissible : Admissible ipld h es)
    (isHead : IsHead ipld root h) (windowed : policy.mode = .window)
    (made : desired policy (enumerationOf ipld root h es) = .ok pins) :
    Retained ipld pins c ↔ (∃ kind, Reaches ipld root kind c) ∨
      (∃ seg, (enumerationOf ipld root h es).openCid = some seg ∧ RefersTo ipld seg c) ∨
      ∃ x ∈ (enumerationOf ipld root h es).sealed,
        policy.Meets (enumerationOf ipld root h es) x ∧ RefersTo ipld x.cid c := by
  have notFull : policy.mode ≠ .full := by simp [windowed]
  have opened : (∃ seg, (enumerationOf ipld root h es).openCid = some seg ∧ ipld.Dag seg c) ↔
      (enumerationOf ipld root h es).openCid = some c ∨
        ∃ seg, (enumerationOf ipld root h es).openCid = some seg ∧ RefersTo ipld seg c := by
    constructor
    · rintro ⟨seg, named, under⟩
      obtain ⟨sg, segment⟩ := admissible.isSegment (.inr named)
      rcases (segment_dag_iff distinct segment).mp under with rfl | blob
      · exact .inl named
      · exact .inr ⟨seg, named, sg, segment, blob⟩
    · rintro (named | ⟨seg, named, sg, segment, blob⟩)
      · exact ⟨c, named, .refl⟩
      · exact ⟨seg, named, (segment_dag_iff distinct segment).mpr (.inr blob)⟩
  rw [retained_index notFull rfl made, admissible.reaches_iff isHead]
  simp only [windowed, decide_true, covers_recursive, opened]
  constructor
  · rintro (head | page | ⟨x, inside, covers⟩ | at_open | blob)
    · exact .inl (.inl head)
    · exact .inl (.inr (.inl page))
    · rcases (sealedPin_covers distinct admissible isHead windowed inside).mp covers with same | kept
      · exact .inl (.inr (.inr (.inl ⟨x, inside, same⟩)))
      · exact .inr (.inr ⟨x, inside, kept⟩)
    · exact .inl (.inr (.inr (.inr at_open)))
    · exact .inr (.inl blob)
  · rintro ((head | page | ⟨x, inside, same⟩ | at_open) | blob | ⟨x, inside, kept⟩)
    · exact .inl head
    · exact .inr (.inl page)
    · exact .inr (.inr (.inl ⟨x, inside,
        (sealedPin_covers distinct admissible isHead windowed inside).mpr (.inl same)⟩))
    · exact .inr (.inr (.inr (.inl at_open)))
    · exact .inr (.inr (.inr (.inr blob)))
    · exact .inr (.inr (.inl ⟨x, inside,
        (sealedPin_covers distinct admissible isHead windowed inside).mpr (.inr kept)⟩))

theorem none_closure (admissible : Admissible ipld h es) (isHead : IsHead ipld root h)
    (bare : policy.mode = .none) (made : desired policy (enumerationOf ipld root h es) = .ok pins) :
    Retained ipld pins c ↔ ∃ kind, Reaches ipld root kind c := by
  have notFull : policy.mode ≠ .full := by simp [bare]
  rw [retained_index notFull rfl made, admissible.reaches_iff isHead]
  simp [bare, sealedPin]

theorem closure_index (admissible : Admissible ipld h es) (isHead : IsHead ipld root h)
    (distinct : ipld.Distinct) (made : desired policy (enumerationOf ipld root h es) = .ok pins)
    (reached : ∃ kind, Reaches ipld root kind c) : Retained ipld pins c := by
  cases mode : policy.mode with
  | full =>
    obtain ⟨kind, reached⟩ := reached
    rw [desired_full mode rfl made, retained_cons, covers_recursive]
    exact .inl (reaches_dag reached)
  | window => exact (window_closure distinct admissible isHead mode made).mpr (.inl reached)
  | none => exact (none_closure admissible isHead mode made).mpr reached
  | other value => simp [desired, Policy.validate, mode, bind, Except.bind] at made

end Closure

def Survives (ipld : Codec) (pins : List Pin) (content content' : Cid → Except ReadError Block) :
    Prop :=
  ∀ c d, Retained ipld pins d → d.hash = c.hash → content' c = content c

structure Exact (ipld : Codec) (content : Cid → Except ReadError Block) (generation : Option Nat)
    (policy : Policy) (root : Cid) (found : Enumeration) (w : World (Unit × StructureCache))
    (pins : List Pin) : Prop where
  full : policy.mode = .full → ∀ c, Retained ipld pins c ↔ ipld.Dag root c
  /-- The index, and the blobs of the open window and of those that meet the range. -/
  window : policy.mode = .window → ∀ c, Retained ipld pins c ↔
    (∃ kind, Reaches ipld root kind c) ∨
      (∃ seg, found.openCid = some seg ∧ RefersTo ipld seg c) ∨
      ∃ x ∈ found.sealed, policy.Meets found x ∧ RefersTo ipld x.cid c
  bare : policy.mode = .none → ∀ c, Retained ipld pins c ↔ ∃ kind, Reaches ipld root kind c
  /-- A blob is then kept only where an index block has its multihash. -/
  blobs : policy.mode = .none → ∀ seg c, RefersTo ipld seg c → ¬ Retained ipld pins c ∧
    ((∃ d, Retained ipld pins d ∧ d.hash = c.hash) ↔
      ∃ kind d, Reaches ipld root kind d ∧ d.hash = c.hash)
  /-- A covered slot has the answer it had before anything was collected. -/
  lookup : ∀ content', Survives ipld pins content content' → found.covered = true →
    ∀ slot, found.params.originSlot ≤ slot → slot ≤ found.syncedTo →
      ∃ row, lookupRow ipld (withCache (fixed content generation)) w.cur slot w =
          (.ok (.of .found slot, row), w) ∧
        lookupRow ipld (withCache (fixed content' generation)) w.cur slot w =
          (.ok (.of .found slot, row), w)

section Main
variable {ipld : Codec} {content content' : Cid → Except ReadError Block} {generation : Option Nat}
variable {cache : StructureCache} {policy : Policy} {pins : List Pin} {root : Cid} {params : Params}
variable {found : Enumeration} {w : World (Unit × StructureCache)}

/-- A root is answered alike from any content that has its index. -/
theorem lookup_of_serves {cfg cfg' : Config (Unit × StructureCache)} {h : Schema.Head}
    {es : List Link} (isHead : IsHead ipld root h) (usable : UsableHead h)
    (admissible : Admissible ipld h es) (serves : Serves ipld cfg root w.shared)
    (serves' : Serves ipld cfg' root w.shared) (covered : h.syncedTo.isSome) {slot : Nat}
    (origin : h.originSlot ≤ slot) (reached : slot ≤ h.syncedTo.getD 0) :
    ∃ row, lookupRow ipld cfg (State.ofHead h (some root)) slot w = (.ok (.of .found slot, row), w) ∧
      lookupRow ipld cfg' (State.ofHead h (some root)) slot w = (.ok (.of .found slot, row), w) := by
  cases admissible with
  | uncovered bare =>
    rw [bare] at covered
    cases covered
  | covered _ few depth formed =>
    obtain ⟨s, synced⟩ := Option.isSome_iff_exists.mp covered
    rw [synced, Option.getD_some] at reached
    obtain ⟨_, _, -, -, means⟩ := formed.means isHead usable synced
    exact ⟨_, serves.lookupRow_covered (m := ⟨some s, _⟩) isHead usable formed few depth synced
      means origin reached, serves'.lookupRow_covered (m := ⟨some s, _⟩) isHead usable formed few
      depth synced means origin reached⟩

/-- The pins a policy asks for over an enumerated root retain exactly what the mode
says, and every covered slot stays answerable. -/
theorem desired_exact (distinct : ipld.Distinct) (warm : Warm ipld content cache)
    (ran : reopen ipld (fixed content generation) (some root) (newHead ((), cache) params) =
      (.ok found, w))
    (made : desired policy found = .ok pins) :
    Exact ipld content generation policy root found w pins := by
  obtain ⟨h, es, isHead, usable, accepted⟩ := post_ok (warm.reopen_spec rfl) ran
  have admissible := accepted.admissible
  obtain rfl := accepted.found_eq
  refine ⟨fun mode c => ?_, fun mode c => window_closure distinct admissible isHead mode made,
    fun mode c => none_closure admissible isHead mode made, fun mode seg c refers => ⟨?_, ?_⟩,
    fun content' survives covered slot origin reached => ?_⟩
  · rw [desired_full mode rfl made]
    simp [Retained]
  · -- Index blocks are nodes and blobs are leaves.
    rw [none_closure admissible isHead mode made]
    rintro ⟨kind, reached⟩
    obtain ⟨sg, segment, blob⟩ := refers
    obtain ⟨block, node, rfl, -⟩ := index_decodes isHead admissible reached
    have leaf := (segment_blob_raw segment blob).2.1
    cases leaf
  · simp only [none_closure admissible isHead mode made]
    constructor
    · rintro ⟨d, ⟨kind, reached⟩, same⟩
      exact ⟨kind, d, reached, same⟩
    · rintro ⟨kind, d, reached, same⟩
      exact ⟨d, ⟨kind, reached⟩, same⟩
  · have serves : Serves ipld (withCache (fixed content generation)) root w.shared :=
      serves_of_kept (fun kind c reached => accepted.shown reached) _
    have serves' : Serves ipld (withCache (fixed content' generation)) root w.shared := by
      refine serves_of_kept (fun kind c reached => ?_) _
      obtain ⟨block, named, there⟩ := accepted.shown reached
      have kept := closure_index admissible isHead distinct made ⟨kind, reached⟩
      exact ⟨block, named, (survives c c kept rfl).trans there⟩
    rw [accepted.cur]
    exact lookup_of_serves isHead usable admissible serves serves' covered origin reached

theorem desired_exact_sample : ∃ content root found w pins,
    reopen DagCbor.codec (fixed content none) (some root) (newHead ((), ∅) sampleParams) =
        (.ok found, w) ∧
      desired ⟨.window, 3600000000000, 12⟩ found = .ok pins ∧
      Exact DagCbor.codec content none ⟨.window, 3600000000000, 12⟩ root found w pins := by
  obtain ⟨found, -, -, ran, -, -, -, made⟩ := @openIn_admissible (made sampleParams 9 sampleRows)
    (madeRoot sampleParams 9 sampleRows) _
    (fun found => (desired ⟨.window, 3600000000000, 12⟩ found).toOption.isSome) true
    (by decide +kernel)
  obtain ⟨pins, made⟩ := Option.isSome_iff_exists.mp made
  have made := ok_of_toOption made
  exact ⟨_, _, found, _, pins, ran, made, desired_exact DagCbor.codec_distinct .empty ran made⟩

end Main

end Bloar.Pinning
