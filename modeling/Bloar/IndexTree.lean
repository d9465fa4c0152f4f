import Bloar.Geometry
import Bloar.Reach

/-!
What an index is, read from its CIDs alone. A CID names one block, so the page or
the segment behind it does not depend on a store. `PageAt` says that the pages
from a CID down are laid out as a list of directory entries requires, and
`SealedAt` that the entries lead to segments of their windows; neither asks how
the blocks are encoded. A page has one level and, at that level, one list of
entries up to nulls at the end.
-/

namespace Bloar.Archive
open Ipld Schema Arith RadixList
variable {σ : Type}

/-! ### Blocks by kind -/

def IsHead (ipld : Codec) (c : Cid) (h : Schema.Head) : Prop :=
  ∃ block, c = ipld.nodeCID block ∧ size block ≤ maxEnumerationNodeBytes ∧
    decodeHead ipld block = .ok h

def IsPage (ipld : Codec) (c : Cid) (page : DirNode) : Prop :=
  ∃ block, c = ipld.nodeCID block ∧ size block ≤ maxEnumerationNodeBytes ∧
    decodeDirNode ipld block = .ok page

def RawBlobs (rows : List Row) : Prop :=
  ∀ r ∈ rows, ∀ e ∈ r.entries, ∃ c, e.blob = some c ∧ HasPrefix raw c

def IsSegment (ipld : Codec) (c : Cid) (s : Segment) : Prop :=
  ∃ block, c = ipld.nodeCID block ∧ size block ≤ maxEnumerationNodeBytes ∧
    decodeSegment ipld block = .ok s ∧ RawBlobs s.rows

section Kinds
variable {ipld : Codec} {c : Cid}

variable {h : Schema.Head} {s : Segment} {page : DirNode} {obj : String} {want : List String}
  {fields : List (String × Node)}

theorem IsHead.unique {g : Schema.Head} (first : IsHead ipld c g) (second : IsHead ipld c h) :
    g = h := by
  obtain ⟨block, rfl, -, decoded⟩ := first
  obtain ⟨block', same, -, decoded'⟩ := second
  rw [← ipld.nodeCID_injective same, decoded] at decoded'
  exact Except.ok.inj decoded'

theorem IsPage.unique {p q : DirNode} (first : IsPage ipld c p) (second : IsPage ipld c q) :
    p = q := by
  obtain ⟨block, rfl, -, decoded⟩ := first
  obtain ⟨block', same, -, decoded'⟩ := second
  rw [← ipld.nodeCID_injective same, decoded] at decoded'
  exact Except.ok.inj decoded'

theorem IsSegment.unique {t : Segment} (first : IsSegment ipld c s) (second : IsSegment ipld c t) :
    s = t := by
  obtain ⟨block, rfl, -, decoded, -⟩ := first
  obtain ⟨block', same, -, decoded', -⟩ := second
  rw [← ipld.nodeCID_injective same, decoded] at decoded'
  exact Except.ok.inj decoded'

theorem IsPage.trimmed (isPage : IsPage ipld c page) : trimTrailingNulls page.kids = page.kids := by
  obtain ⟨block, -, -, decoded⟩ := isPage
  exact decodeDirNode_trimmed decoded

theorem checkKnown_mem {u : Unit} (known : checkKnown obj want fields = .ok u) :
    ∀ key ∈ fields.map Prod.fst, key ∈ want := by
  induction fields with
  | nil => simp
  | cons field rest ih =>
    obtain ⟨key, value⟩ := field
    simp only [checkKnown, checked_bind_ok_iff, check_ok_iff] at known
    obtain ⟨_, wanted, known⟩ := known
    rw [List.map_cons, List.forall_mem_cons]
    exact ⟨wanted, ih known⟩

theorem checkPresent_mem {u : Unit} (present : checkPresent obj fields want = .ok u) :
    ∀ key ∈ want, key ∈ fields.map Prod.fst := by
  induction want with
  | nil => simp
  | cons key rest ih =>
    simp only [checkPresent, checked_bind_ok_iff, check_ok_iff] at present
    obtain ⟨_, here, present⟩ := present
    rw [List.forall_mem_cons]
    exact ⟨here, ih present⟩

/-- A node is read as one kind of object only: each kind has its own keys. -/
theorem mapFields_keys {obj' : String} {n : Node} {want' : List String}
    {fields' : List (String × Node)} (read : mapFields obj n want = .ok fields)
    (read' : mapFields obj' n want' = .ok fields') : ∀ key ∈ want, key ∈ want' := by
  cases n with
  | map items =>
    simp only [mapFields, checked_bind_ok_iff] at read read'
    obtain ⟨_, -, _, present, -⟩ := read
    obtain ⟨_, known, -⟩ := read'
    intro key wanted
    exact checkKnown_mem known key (checkPresent_mem present key wanted)
  | _ => simp [mapFields] at read

theorem decode_keys {obj' : String} {want' : List String} {block : Block} {α β : Type}
    {f : List (String × Node) → Checked α} {g : List (String × Node) → Checked β} {a : α} {b : β}
    (first : (decodeNode ipld block >>= fun n => mapFields obj n want >>= f) = .ok a)
    (second : (decodeNode ipld block >>= fun n => mapFields obj' n want' >>= g) = .ok b) :
    ∀ key ∈ want, key ∈ want' := by
  simp only [checked_bind_ok_iff] at first second
  obtain ⟨n, decoded, fields, read, -⟩ := first
  obtain ⟨n', decoded', fields', read', -⟩ := second
  rw [decoded] at decoded'
  cases decoded'
  exact mapFields_keys read read'

theorem IsPage.not_segment (isPage : IsPage ipld c page) (segment : IsSegment ipld c s) :
    False := by
  obtain ⟨block, rfl, -, decoded⟩ := isPage
  obtain ⟨block', same, -, decoded', -⟩ := segment
  rw [← ipld.nodeCID_injective same] at decoded'
  exact absurd (decode_keys decoded decoded' "kids" (by decide)) (by decide)

theorem IsHead.not_page (isHead : IsHead ipld c h) (isPage : IsPage ipld c page) : False := by
  obtain ⟨block, rfl, -, decoded⟩ := isHead
  obtain ⟨block', same, -, decoded'⟩ := isPage
  rw [← ipld.nodeCID_injective same] at decoded'
  exact absurd (decode_keys decoded decoded' "name" (by decide)) (by decide)

theorem IsHead.not_segment (isHead : IsHead ipld c h) (segment : IsSegment ipld c s) : False := by
  obtain ⟨block, rfl, -, decoded⟩ := isHead
  obtain ⟨block', same, -, decoded', -⟩ := segment
  rw [← ipld.nodeCID_injective same] at decoded'
  exact absurd (decode_keys decoded decoded' "name" (by decide)) (by decide)

end Kinds

/-! ### Layout -/

def KidsAt (PageAt : Cid → List Link → Prop) (cap : Nat) : List Link → List Link → Prop
  | [], es => es = []
  | kid :: rest, es =>
    es ≠ [] ∧ (∃ c, kid = some c ∧ PageAt c (es.take cap)) ∧ KidsAt PageAt cap rest (es.drop cap)

/-- From `c` down, the pages at `level` are those of the entries `es`. -/
def PageAt (ipld : Codec) (radix : Nat) : Nat → Cid → List Link → Prop
  | 0, c, es => es.length ≤ radix ∧ IsPage ipld c ⟨trimTrailingNulls es⟩
  | level + 1, c, es =>
    ∃ page, IsPage ipld c page ∧ KidsAt (PageAt ipld radix level) (radix ^ (level + 1)) page.kids es

section Layout
variable {ipld : Codec} {radix : Nat} {P : Cid → List Link → Prop} {cap : Nat}

variable {kids es : List Link} {level : Nat} {es' : List Link}

theorem KidsAt.getElem (laid : KidsAt P cap kids es) {j : Nat} (inside : j * cap < es.length) :
    ∃ c, kids[j]? = some (some c) ∧ P c (chunk cap j es) := by
  induction kids generalizing es j with
  | nil =>
    rw [KidsAt] at laid
    subst laid
    simp at inside
  | cons kid rest ih =>
    obtain ⟨-, ⟨c, rfl, page⟩, laid⟩ := laid
    cases j with
    | zero => exact ⟨c, rfl, by simpa [chunk] using page⟩
    | succ j =>
      rw [Nat.add_mul, Nat.one_mul] at inside
      obtain ⟨d, at_j, page⟩ := ih laid (j := j) (by rw [List.length_drop]; omega)
      refine ⟨d, by simpa using at_j, ?_⟩
      rw [chunk, List.drop_drop] at page
      rwa [chunk, Nat.add_mul, Nat.one_mul, Nat.add_comm]

theorem KidsAt.length (positive : 0 < cap) (laid : KidsAt P cap kids es) :
    kids.length = chunkCount cap es.length := by
  induction kids generalizing es with
  | nil =>
    rw [KidsAt] at laid
    subst laid
    simp [chunkCount_zero positive]
  | cons kid rest ih =>
    obtain ⟨some, -, laid⟩ := laid
    rw [List.length_cons, ih laid, List.length_drop,
      chunkCount_sub positive (List.length_pos_of_ne_nil some)]

theorem KidsAt.of_getElem (positive : 0 < cap) (count : kids.length = chunkCount cap es.length)
    (each : ∀ j, j * cap < es.length → ∃ c, kids[j]? = some (some c) ∧ P c (chunk cap j es)) :
    KidsAt P cap kids es := by
  induction kids generalizing es with
  | nil =>
    by_contra some
    have filled := List.length_pos_of_ne_nil some
    have more := chunkCount_pos positive filled
    simp at count
    omega
  | cons kid rest ih =>
    have filled : 0 < es.length := by
      by_contra empty
      have none : es.length = 0 := by omega
      rw [none, chunkCount_zero positive] at count
      simp at count
    obtain ⟨c, first, page⟩ := each 0 (by omega)
    refine ⟨List.ne_nil_of_length_pos filled, ⟨c, by simpa using first, ?_⟩, ih ?_ ?_⟩
    · simpa [chunk] using page
    · rw [chunkCount_sub positive filled] at count
      rw [List.length_drop]
      simpa using count
    · intro j inside
      rw [List.length_drop] at inside
      obtain ⟨d, at_j, page⟩ := each (j + 1) (by rw [Nat.add_mul]; omega)
      refine ⟨d, by simpa using at_j, ?_⟩
      rw [chunk, Nat.add_mul, Nat.one_mul, Nat.add_comm, ← List.drop_drop] at page
      exact page

theorem KidsAt.defined (laid : KidsAt P cap kids es) : ∀ kid ∈ kids, ∃ c, kid = some c := by
  induction kids generalizing es with
  | nil => simp
  | cons kid rest ih =>
    obtain ⟨-, ⟨c, rfl, -⟩, laid⟩ := laid
    rw [List.forall_mem_cons]
    exact ⟨⟨c, rfl⟩, ih laid⟩

theorem PageAt.isPage {c : Cid} (at_c : PageAt ipld radix level c es) :
    ∃ page, IsPage ipld c page := by
  cases level with
  | zero => exact ⟨_, at_c.2⟩
  | succ level =>
    obtain ⟨page, isPage, -⟩ := at_c
    exact ⟨page, isPage⟩

theorem PageAt.agree (positive : 0 < radix) {c : Cid} (first : PageAt ipld radix level c es)
    (second : PageAt ipld radix level c es') {i : Nat} {link : Cid}
    (entry : es[i]? = some (some link)) : es'[i]? = some (some link) := by
  induction level generalizing c es es' i with
  | zero =>
    have same : trimTrailingNulls es = trimTrailingNulls es' :=
      congrArg DirNode.kids (first.2.unique second.2)
    have joined := trimTrailingNulls_getElem es i
    rw [same, trimTrailingNulls_getElem es' i, entry] at joined
    rcases found : es'[i]? with _ | _ | other
    · simp [found] at joined
    · simp [found] at joined
    · simpa [found] using joined
  | succ level ih =>
    obtain ⟨page, isPage, laid⟩ := first
    obtain ⟨page', isPage', laid'⟩ := second
    obtain rfl := isPage.unique isPage'
    have cap : 0 < radix ^ (level + 1) := Nat.pow_pos positive
    have chunked := getElem?_chunk cap es i
    have chunked' := getElem?_chunk cap es' i
    have bound : i < es.length := (List.getElem?_eq_some_iff.mp entry).1
    have inside : i / radix ^ (level + 1) * radix ^ (level + 1) < es.length :=
      Nat.lt_of_le_of_lt (Nat.div_mul_le_self _ _) bound
    obtain ⟨kid, at_kid, below⟩ := laid.getElem inside
    have inside' : i / radix ^ (level + 1) * radix ^ (level + 1) < es'.length := by
      have short := (List.getElem?_eq_some_iff.mp at_kid).1
      rw [laid'.length cap, lt_chunkCount_iff cap] at short
      exact short
    obtain ⟨kid', at_kid', below'⟩ := laid'.getElem inside'
    rw [at_kid] at at_kid'
    cases at_kid'
    rw [← chunked']
    exact ih below below' (by rw [chunked, entry])

theorem PageAt.unique (positive : 0 < radix) {c : Cid} (first : PageAt ipld radix level c es)
    (second : PageAt ipld radix level c es') (lengths : es.length = es'.length) : es = es' := by
  apply List.ext_getElem? fun i => ?_
  rcases Nat.lt_or_ge i es.length with inside | outside
  · have inside' : i < es'.length := lengths ▸ inside
    rw [List.getElem?_eq_getElem inside, List.getElem?_eq_getElem inside']
    cases entry : es[i] with
    | some link =>
      have same := first.agree positive second (i := i) (by
        rw [List.getElem?_eq_getElem inside, entry])
      rw [List.getElem?_eq_getElem inside'] at same
      exact same.symm
    | none =>
      cases entry' : es'[i] with
      | none => rfl
      | some link =>
        have same := second.agree positive first (i := i) (by
          rw [List.getElem?_eq_getElem inside', entry'])
        rw [List.getElem?_eq_getElem inside, entry] at same
        cases same
  · rw [List.getElem?_eq_none outside, List.getElem?_eq_none (lengths ▸ outside)]

/-- A page is at one level only: following first kids, the leaf of the lower
reading would list a page as a segment. -/
theorem PageAt.level_eq (positive : 0 < radix) {low high : Nat} {c : Cid}
    (first : PageAt ipld radix low c es) (second : PageAt ipld radix high c es') (some : es ≠ [])
    (some' : es' ≠ []) (segments : ∀ link, Option.some link ∈ es → ∃ s, IsSegment ipld link s) :
    ¬ low < high := by
  intro higher
  induction low generalizing c es es' high with
  | zero =>
    obtain ⟨high, rfl⟩ : ∃ below, high = below + 1 := ⟨high - 1, by omega⟩
    obtain ⟨page, isPage, laid⟩ := second
    obtain rfl := first.2.unique isPage
    obtain ⟨kid, at_kid, below⟩ := laid.getElem (j := 0) (by
      simpa using List.length_pos_of_ne_nil some')
    obtain ⟨page', isPage'⟩ := below.isPage
    obtain ⟨s, segment⟩ := segments kid (trimTrailingNulls_mem.mp (List.mem_of_getElem? at_kid))
    exact isPage'.not_segment segment
  | succ low ih =>
    obtain ⟨high, rfl⟩ : ∃ below, high = below + 1 := ⟨high - 1, by omega⟩
    obtain ⟨page, isPage, laid⟩ := first
    obtain ⟨page', isPage', laid'⟩ := second
    obtain rfl := isPage.unique isPage'
    obtain ⟨kid, at_kid, below⟩ := laid.getElem (j := 0) (by
      simpa using List.length_pos_of_ne_nil some)
    obtain ⟨kid', at_kid', below'⟩ := laid'.getElem (j := 0) (by
      simpa using List.length_pos_of_ne_nil some')
    rw [at_kid] at at_kid'
    cases at_kid'
    refine ih below below' ?_ ?_ (fun link member => segments link (mem_of_mem_chunk member))
      (by omega)
    · apply List.ne_nil_of_length_pos
      exact chunk_length_pos (Nat.pow_pos positive) (by
        simpa using List.length_pos_of_ne_nil some)
    · apply List.ne_nil_of_length_pos
      exact chunk_length_pos (Nat.pow_pos positive) (by
        simpa using List.length_pos_of_ne_nil some')

end Layout

/-! ### Segments in their windows -/

structure SegmentAt (ipld : Codec) (params : Params) (c : Cid) (window upper : Nat) (opened : Bool)
    (s : Segment) : Prop where
  segment : IsSegment ipld c s
  slot0 : s.slot0 = windowStart window params.segBits
  filled : opened = false → s.rows ≠ []
  rows : ∀ r ∈ s.rows, max s.slot0 params.originSlot ≤ r.slot ∧ r.slot ≤ upper

def SealedAt (ipld : Codec) (params : Params) (window : Nat) (es : List Link) : Prop :=
  ∀ i c, es[i]? = some (some c) →
    ∃ s, SegmentAt ipld params c (window + i) (windowEnd (window + i) params.segBits) false s

def sealedFrom (segBits : Nat) : Nat → List Link → List SealedSegment
  | _, [] => []
  | window, none :: rest => sealedFrom segBits (window + 1) rest
  | window, some c :: rest =>
    { cid := c, ord := window, firstSlot := windowStart window segBits
      lastSlot := windowEnd window segBits } :: sealedFrom segBits (window + 1) rest

section Positions
variable {ipld : Codec} {params : Params}

theorem badBlob_none_iff {entries : List RefEntry} (index : Nat) :
    badBlob entries index = none ↔ ∀ e ∈ entries, ∃ c, e.blob = some c ∧ HasPrefix raw c := by
  induction entries generalizing index with
  | nil => simp [badBlob]
  | cons e rest ih =>
    rw [badBlob, List.forall_mem_cons, ← validateBlobCID_ok_iff (u := ())]
    cases validateBlobCID e.blob with
    | ok u => simp [ih]
    | error cause => simp

theorem checkBlobs_ok_iff {rows : List Row} {index : Nat} {u : Unit} :
    checkBlobs index rows = .ok u ↔ RawBlobs rows := by
  induction rows generalizing index with
  | nil => simp [checkBlobs, RawBlobs]
  | cons r rest ih =>
    rw [RawBlobs, List.forall_mem_cons, ← badBlob_none_iff 0, checkBlobs]
    cases badBlob r.entries 0 with
    | none => simpa [RawBlobs] using ih
    | some bad => simp

variable {s : Segment} {window : Nat}

theorem segmentShape_ok_iff {proof : SegmentProof} :
    segmentShape s = .ok proof ↔ RawBlobs s.rows ∧ proof = proofOf s := by
  unfold segmentShape
  cases checked : checkBlobs 0 s.rows with
  | ok u =>
    have blobs := checkBlobs_ok_iff.mp checked
    simp only [bind, Except.bind, Except.ok.injEq]
    exact ⟨fun same => ⟨blobs, same.symm⟩, fun both => both.2.symm⟩
  | error e =>
    have blobs : ¬ RawBlobs s.rows := fun blobs => by
      rw [(checkBlobs_ok_iff (u := ())).mpr blobs] at checked
      cases checked
    simp [bind, Except.bind, blobs]

theorem rows_between_iff {rows : List Row} (ascending : rows.Pairwise fun a b => a.slot < b.slot)
    (lower upper : Nat) (some : rows ≠ []) :
    (∀ r ∈ rows, lower ≤ r.slot ∧ r.slot ≤ upper) ↔
      lower ≤ (rows.head?.map Row.slot).getD 0 ∧ (rows.getLast?.map Row.slot).getD 0 ≤ upper := by
  have first := List.head?_eq_some_head some
  have last := List.getLast?_eq_some_getLast some
  rw [first, last]
  simp only [Option.map_some, Option.getD_some]
  constructor
  · intro all
    exact ⟨(all _ (List.head_mem some)).1, (all _ (List.getLast_mem some)).2⟩
  · rintro ⟨low, high⟩ r member
    obtain ⟨i, bound, rfl⟩ := List.getElem_of_mem member
    rw [List.head_eq_getElem] at low
    rw [List.getLast_eq_getElem] at high
    have ordered := List.pairwise_iff_getElem.mp ascending
    constructor
    · rcases Nat.eq_zero_or_pos i with rfl | positive
      · exact low
      · exact Nat.le_trans low (Nat.le_of_lt (ordered 0 i (by omega) bound positive))
    · rcases Nat.lt_or_ge i (rows.length - 1) with before | at_end
      · exact Nat.le_trans (Nat.le_of_lt (ordered i (rows.length - 1) bound (by omega) before)) high
      · have same : i = rows.length - 1 := by omega
        subst same
        exact high

theorem checkPosition_ok_iff {c : Cid} (segment : IsSegment ipld c s) {upper : Nat}
    {opened : Bool} {u : Unit} :
    checkPosition params (proofOf s) window upper opened = .ok u ↔
      SegmentAt ipld params c window upper opened s := by
  obtain ⟨block, -, -, decoded, -⟩ := id segment
  have ascending := (decodeSegment_encodable decoded).ascending
  have between := rows_between_iff ascending
    (max (windowStart window params.segBits) params.originSlot) upper
  have empty : s.rows.length = 0 ↔ s.rows = [] := List.length_eq_zero_iff
  simp only [checkPosition, refuse_ok_iff, ne_eq, not_not]
  simp only [proofOf]
  constructor
  · rintro ⟨slot0, filled, range, -⟩
    have rows : s.rows ≠ [] → ∀ r ∈ s.rows,
        max (windowStart window params.segBits) params.originSlot ≤ r.slot ∧ r.slot ≤ upper := by
      intro some
      rw [between some]
      have positive := List.length_pos_of_ne_nil some
      constructor <;> by_contra outside <;> exact range ⟨positive, by omega⟩
    refine ⟨segment, slot0, fun closed none => filled ⟨closed, empty.mpr none⟩, fun r member => ?_⟩
    rw [slot0]
    exact rows (List.ne_nil_of_mem member) r member
  · rintro ⟨-, slot0, filled, rows⟩
    refine ⟨slot0, fun ⟨closed, vacant⟩ => filled closed (empty.mp vacant), ?_, trivial⟩
    rintro ⟨positive, outside⟩
    rw [slot0] at rows
    have bounds := (between (List.ne_nil_of_length_pos positive)).mp rows
    omega

theorem SealedAt.nil : SealedAt ipld params window [] := by
  intro i c entry
  simp at entry

theorem sealedAt_cons_iff {entry : Link} {rest : List Link} :
    SealedAt ipld params window (entry :: rest) ↔
      (∀ c, entry = some c →
        ∃ s, SegmentAt ipld params c window (windowEnd window params.segBits) false s) ∧
      SealedAt ipld params (window + 1) rest := by
  constructor
  · intro all
    refine ⟨fun c same => ?_, fun i c at_i => ?_⟩
    · simpa using all 0 c (by simp [same])
    · have moved := all (i + 1) c (by simpa using at_i)
      rwa [← Nat.add_assoc, Nat.add_right_comm] at moved
  · rintro ⟨first, others⟩ i c at_i
    cases i with
    | zero => exact first c (by simpa using at_i)
    | succ i =>
      have moved := others i c (by simpa using at_i)
      rwa [Nat.add_right_comm, Nat.add_assoc] at moved

theorem sealedAt_append_iff {front back : List Link} :
    SealedAt ipld params window (front ++ back) ↔
      SealedAt ipld params window front ∧ SealedAt ipld params (window + front.length) back := by
  induction front generalizing window with
  | nil => simp [SealedAt.nil]
  | cons entry rest ih =>
    rw [List.cons_append, sealedAt_cons_iff, sealedAt_cons_iff, ih, List.length_cons, and_assoc,
      Nat.add_assoc, Nat.add_comm 1]

theorem SealedAt.segments {es : List Link} (sealed : SealedAt ipld params window es) :
    ∀ link, some link ∈ es → ∃ s, IsSegment ipld link s := by
  intro link member
  obtain ⟨i, at_i⟩ := List.getElem?_of_mem member
  obtain ⟨s, placed⟩ := sealed i link at_i
  exact ⟨s, placed.segment⟩

theorem sealedFrom_append {segBits : Nat} {front back : List Link} :
    sealedFrom segBits window (front ++ back) =
      sealedFrom segBits window front ++ sealedFrom segBits (window + front.length) back := by
  induction front generalizing window with
  | nil => simp [sealedFrom]
  | cons entry rest ih =>
    cases entry <;> simp [sealedFrom, ih, Nat.add_assoc, Nat.add_comm 1]

theorem SealedAt.nulls (window n : Nat) : SealedAt ipld params window (List.replicate n none) := by
  intro i c entry
  rw [List.getElem?_replicate] at entry
  split at entry <;> cases entry

theorem sealedFrom_nulls (segBits window n : Nat) :
    sealedFrom segBits window (List.replicate n none) = [] := by
  induction n generalizing window with
  | zero => rfl
  | succ n ih => simpa [List.replicate_succ, sealedFrom] using ih (window + 1)

theorem SegmentAt.window_eq {c : Cid} {window' upper upper' : Nat} {opened opened' : Bool}
    {s' : Segment} (first : SegmentAt ipld params c window upper opened s)
    (second : SegmentAt ipld params c window' upper' opened' s')
    (small : window * 2 ^ params.segBits < 2 ^ 64)
    (small' : window' * 2 ^ params.segBits < 2 ^ 64) : window = window' := by
  have same := first.segment.unique second.segment
  have slots := first.slot0
  rw [same, second.slot0, windowStart_eq small, windowStart_eq small'] at slots
  exact (Nat.eq_of_mul_eq_mul_right (Nat.two_pow_pos _) slots).symm

end Positions

/-! ### The pages below a page -/

open Classical in
noncomputable def kidsOf (ipld : Codec) (c : Cid) : List Link :=
  if named : ∃ page, IsPage ipld c page then named.choose.kids else []

theorem IsPage.kidsOf_eq {ipld : Codec} {c : Cid} {page : DirNode} (isPage : IsPage ipld c page) :
    kidsOf ipld c = page.kids := by
  have named : ∃ page, IsPage ipld c page := ⟨page, isPage⟩
  rw [kidsOf, dif_pos named, named.choose_spec.unique isPage]

/-- The pages from `c` down in depth-first order, with repetitions. -/
noncomputable def pagesUnder (ipld : Codec) : Nat → Cid → List Cid
  | 0, c => [c]
  | level + 1, c => c :: (kidsOf ipld c).flatMap fun kid =>
    match kid with
    | none => []
    | some kid => pagesUnder ipld level kid

theorem mem_pagesUnder_self (ipld : Codec) (level : Nat) (c : Cid) : c ∈ pagesUnder ipld level c := by
  cases level <;> simp [pagesUnder]

theorem pagesUnder_kid {ipld : Codec} {level : Nat} {c kid : Cid} {page : DirNode}
    (isPage : IsPage ipld c page) (member : some kid ∈ page.kids) :
    ∀ p ∈ pagesUnder ipld level kid, p ∈ pagesUnder ipld (level + 1) c := by
  intro p below
  rw [pagesUnder, isPage.kidsOf_eq]
  exact List.mem_cons_of_mem _ (List.mem_flatMap.mpr ⟨some kid, member, below⟩)

def firstVisits (seen cs : List Cid) : List Cid :=
  cs.foldl (fun acc c => if c ∈ acc then acc else acc ++ [c]) seen

theorem firstVisits_append (seen front back : List Cid) :
    firstVisits seen (front ++ back) = firstVisits (firstVisits seen front) back :=
  List.foldl_append

theorem mem_firstVisits {seen cs : List Cid} {c : Cid} :
    c ∈ firstVisits seen cs ↔ c ∈ seen ∨ c ∈ cs := by
  induction cs generalizing seen with
  | nil => simp [firstVisits]
  | cons first rest ih =>
    change c ∈ firstVisits (if first ∈ seen then seen else seen ++ [first]) rest ↔ _
    rw [ih]
    by_cases old : first ∈ seen
    · rw [if_pos old, List.mem_cons]
      constructor
      · rintro (before | after)
        · exact .inl before
        · exact .inr (.inr after)
      · rintro (before | rfl | after)
        · exact .inl before
        · exact .inl old
        · exact .inr after
    · rw [if_neg old, List.mem_append, List.mem_singleton, List.mem_cons, or_assoc]

theorem firstVisits_of_subset {seen cs : List Cid} (old : ∀ c ∈ cs, c ∈ seen) :
    firstVisits seen cs = seen := by
  induction cs with
  | nil => rfl
  | cons first rest ih =>
    rw [List.forall_mem_cons] at old
    change firstVisits (if first ∈ seen then seen else seen ++ [first]) rest = _
    rw [if_pos old.1, ih old.2]

theorem firstVisits_nodup {seen : List Cid} (distinct : seen.Nodup) (cs : List Cid) :
    (firstVisits seen cs).Nodup := by
  induction cs generalizing seen with
  | nil => exact distinct
  | cons first rest ih =>
    apply ih
    beta_reduce
    split
    · exact distinct
    · rename_i fresh
      rw [List.nodup_append]
      refine ⟨distinct, List.nodup_singleton _, ?_⟩
      rintro a inside b last rfl
      rw [List.mem_singleton] at last
      exact fresh (last ▸ inside)

end Bloar.Archive
