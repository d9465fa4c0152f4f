import Bloar.IndexBytes

/-!
Stores with a fixed content. Nothing is assumed of what such a store answers: a
block may be missing, or not be the one its CID names. Whatever root is then
loaded and enumerated, with whatever cache earlier enumerations over that content
have left, the result describes the one index the root's rows determine.
-/

namespace Bloar.Archive
open Ipld Schema Arith Fallible RadixList

variable {σ : Type}

def fixed (content : Cid → Except ReadError Block) (generation : Option Nat) : Config Unit where
  get c s := (content c, s)
  put _ _ s := (.error "read-only", s)
  resolver := none
  structureCache := none
  collectionGeneration := generation.map fun g s => (g, s)

def Kept (ipld : Codec) (content : Cid → Except ReadError Block) (c : Cid) : Prop :=
  ∃ block, c = ipld.nodeCID block ∧ content c = .ok block

def Complete (ipld : Codec) (content : Cid → Except ReadError Block) (root : Cid) : Prop :=
  ∀ kind block, Reaches ipld root kind (ipld.nodeCID block) →
    content (ipld.nodeCID block) = .ok block

/-- The caches that successful enumerations over a content leave, each at whatever
generation it ran. -/
inductive Warm (ipld : Codec) (content : Cid → Except ReadError Block) : StructureCache → Prop where
  | empty : Warm ipld content ∅
  | enumerated {generation : Option Nat} {root : Cid} {h : Schema.Head}
      {w w' : World (Unit × StructureCache)} {found : Enumeration}
      (warm : Warm ipld content w.shared.2) (opened : Opened ipld root h w)
      (ran : enumerate ipld (withCache (fixed content generation)) w = (.ok found, w')) :
      Warm ipld content w'.shared.2

section Fixed
variable {ipld : Codec} {content : Cid → Except ReadError Block} {generation : Option Nat}
variable {cache : StructureCache} {root : Cid} {h : Schema.Head}

/-- A fixed store is at fault only for an index block it does not have. -/
theorem fixed_shelf (ipld : Codec) (content : Cid → Except ReadError Block)
    (generation : Option Nat) (root : Cid) :
    Shelf ipld (fixed content generation) root (fun _ => True) (fun _ => Kept ipld content)
      (¬ Complete ipld content root) generation where
  get_inv := fun _ => trivial
  get_keeps := fun _ shown => shown
  get_seen := by
    intro block s s' _ read
    exact ⟨block, rfl, congrArg Prod.fst read⟩
  get_index := by
    intro block kind s _ reached
    by_cases complete : Complete ipld content root
    · exact .inr (complete kind block reached)
    · exact .inl complete
  unknown := by
    rintro rfl
    rfl
  steady := by
    rintro g rfl
    exact ⟨fun s => (g, s), rfl, fun s _ => ⟨rfl, trivial, fun _ shown => shown⟩⟩

theorem remember_lookup {proofs segments : StructureCache} {c : Cid} {p : CachedSegmentProof}
    (found : (StructureCache.remember proofs segments).lookup c = some p) :
    proofs.lookup c = some p ∨ segments.lookup c = some p := by
  unfold StructureCache.remember at found
  split at found
  · exact .inr found
  · split at found
    · exact .inl found
    · rcases Finmap.mem_lookup_union.mp found with first | ⟨-, second⟩
      · exact .inl first
      · exact .inr second

variable (warm : Warm ipld content cache)
include warm

theorem Warm.sound :
    ∀ c p, cache.lookup c = some p → ProofOf ipld c p.proof ∧ Kept ipld content c := by
  induction warm with
  | empty => simp
  | @enumerated generation root h w w' found warm opened ran ih =>
    have accepted := post_ok ((fixed_shelf ipld content generation root).enumerate_spec
      (fun c p found => (ih c p found).1) (fun _ _ c fresh => ?_) opened trivial rfl) ran
    · obtain ⟨es, -, -, -, -, -, -, proofs, after, noted, -⟩ := accepted
      intro c p found
      rw [after] at found
      rcases remember_lookup found with new | old
      · obtain ⟨right, -, -, shown⟩ := noted c p new
        exact ⟨right, shown⟩
      · exact ih c p old
    · obtain ⟨p, found, -⟩ := fresh
      exact (ih c p found).2

theorem Warm.proved : Proved ipld cache := fun c p found =>
  (warm.sound c p found).1

theorem Warm.shown {c : Cid} (fresh : Fresh generation cache c) : Kept ipld content c := by
  obtain ⟨p, found, -⟩ := fresh
  exact (warm.sound c p found).2

theorem Warm.reopen_spec {w : World (Unit × StructureCache)} (same : w.shared.2 = cache) :
    Post (reopen ipld (fixed content generation) (some root)) w
      (fun found w' => ∃ h es, IsHead ipld root h ∧ UsableHead h ∧
        Accepted ipld root h (fun _ => True) (fun _ => Kept ipld content) generation cache es found w')
      (fun _ => ∀ h es, IsHead ipld root h → UsableHead h → Admissible ipld h es →
        BytesWithin ipld (Unread ipld root generation cache) maxEnumerationDecodedBytes →
        ¬ Complete ipld content root) :=
  (fixed_shelf ipld content generation root).reopen_spec warm.proved
    (fun _ _ _ fresh => warm.shown fresh) trivial same

end Fixed

/-! ### What an enumeration reports -/

def Enumeration.reported (found : Enumeration) (win : Nat) : Link :=
  if win = found.openOrd then found.openCid
  else (found.sealed.find? fun x => x.ord = win).map SealedSegment.cid

def Enumeration.listed (found : Enumeration) : List Cid :=
  found.sealed.map SealedSegment.cid ++ found.openCid.toList

section Listed
variable {ipld : Codec} {segBits : Nat}

theorem mem_sealedFrom {window : Nat} {es : List Link} {x : SealedSegment}
    (member : x ∈ sealedFrom segBits window es) :
    window ≤ x.ord ∧ x.ord < window + es.length ∧ es[x.ord - window]? = some (some x.cid) := by
  induction es generalizing window with
  | nil => simp [sealedFrom] at member
  | cons entry rest ih =>
    rw [List.length_cons]
    have later : x ∈ sealedFrom segBits (window + 1) rest →
        window ≤ x.ord ∧ x.ord < window + (rest.length + 1) ∧
          (entry :: rest)[x.ord - window]? = some (some x.cid) := by
      intro member
      obtain ⟨low, high, found⟩ := ih member
      refine ⟨by omega, by omega, ?_⟩
      rw [show x.ord - window = x.ord - (window + 1) + 1 by omega, List.getElem?_cons_succ]
      exact found
    cases entry with
    | none => exact later member
    | some c =>
      rcases List.mem_cons.mp member with rfl | member
      · exact ⟨Nat.le_refl _, by simp, by simp⟩
      · exact later member

theorem sealedFrom_ascending (window : Nat) (es : List Link) :
    (sealedFrom segBits window es).Pairwise fun a b => a.ord < b.ord := by
  induction es generalizing window with
  | nil => exact .nil
  | cons entry rest ih =>
    cases entry with
    | none => exact ih (window + 1)
    | some c =>
      refine .cons (fun x member => ?_) (ih (window + 1))
      have low := (mem_sealedFrom member).1
      exact low

theorem sealedFrom_find (segBits window : Nat) (es : List Link) (i : Nat) :
    ((sealedFrom segBits window es).find? fun x => x.ord = window + i).map SealedSegment.cid =
      es[i]?.join := by
  induction es generalizing window i with
  | nil => rfl
  | cons entry rest ih =>
    cases i with
    | zero =>
      cases entry with
      | none =>
        have beyond : (sealedFrom segBits (window + 1) rest).find?
            (fun x => x.ord = window + 0) = none := by
          rw [List.find?_eq_none]
          intro x member
          have low := (mem_sealedFrom member).1
          simp only [decide_eq_true_eq]
          omega
        rw [sealedFrom, beyond]
        rfl
      | some c => simp [sealedFrom]
    | succ i =>
      have moved := ih (window + 1) i
      rw [show window + 1 + i = window + (i + 1) by omega] at moved
      cases entry with
      | none | some => simpa [sealedFrom] using moved

theorem sealedFrom_segments (segBits window : Nat) {es : List Link} {segments : List (Option Segment)}
    (read : List.Forall₂ (Option.Rel (IsSegment ipld)) es segments) :
    ∃ listed, List.Forall₂ (IsSegment ipld)
        ((sealedFrom segBits window es).map SealedSegment.cid) listed ∧
      rowsOf segments = listed.flatMap Segment.rows := by
  induction read generalizing window with
  | nil => exact ⟨[], .nil, rfl⟩
  | cons pair _ ih =>
    obtain ⟨listed, related, rows⟩ := ih (window + 1)
    cases pair with
    | none => exact ⟨listed, related, rows⟩
    | some segment =>
      refine ⟨_ :: listed, .cons segment related, ?_⟩
      rw [List.flatMap_cons, ← rows]
      rfl

end Listed

/-! ### Soundness -/

/-- Every writer, and every fresh build, that comes to hold the contents writes a root
that decodes to the tree. -/
def WrittenFor (ipld : Codec) (params : Params) (m : Contents) (tree : HeadTree) : Prop :=
  ∀ (τ : Type) (writer : Config τ) (present : τ → Cid → Prop), Durable ipld writer present →
    (∀ built f, Run ipld writer present params built f → Agrees m f →
      ∃ c h, built.cur.root = some c ∧ tree.Read ipld c h) ∧
    ∀ shared rows syncedTo built,
      buildGeneration ipld writer params rows syncedTo (newHead shared params) = (.ok (), built) →
      Agrees m (builtFlat ipld writer params shared rows syncedTo) →
      ∃ c h, built.cur.root = some c ∧ tree.Read ipld c h

structure Sound (ipld : Codec) (cfg : Config σ) (root : Cid) (found : Enumeration) (w : World σ) :
    Prop where
  /-- The open segment stands at the window coverage has reached. -/
  openStart : found.covered = true → ∃ c sg, found.openCid = some c ∧ IsSegment ipld c sg ∧
    sg.slot0 = windowStart (ord (found.syncedTo + 1) found.params.segBits) found.params.segBits
  ascending : found.sealed.Pairwise fun a b => a.ord < b.ord
  between : ∀ x ∈ found.sealed,
    ord found.params.originSlot found.params.segBits ≤ x.ord ∧ x.ord < found.openOrd
  /-- A row is in the window of its segment and within coverage. -/
  rows : ∀ c win, (∃ x ∈ found.sealed, x.cid = c ∧ x.ord = win) ∨
      (found.openCid = some c ∧ win = found.openOrd) →
    ∃ sg, IsSegment ipld c sg ∧ ∀ r ∈ sg.rows, ord r.slot found.params.segBits = win ∧
      found.params.originSlot ≤ r.slot ∧ r.slot ≤ found.syncedTo
  /-- A lookup of a covered slot goes to the segment reported for its window. -/
  lookup : found.covered = true → ∀ slot, found.params.originSlot ≤ slot → slot ≤ found.syncedTo →
    segmentFor ipld cfg w.cur (ord slot found.params.segBits) w =
        (.ok (found.reported (ord slot found.params.segBits)), w) ∧
      ∃ row, lookupRow ipld cfg w.cur slot w = (.ok (.of .found slot, row), w) ∧
        (found.reported (ord slot found.params.segBits) = none → row = none) ∧
        ∀ c, found.reported (ord slot found.params.segBits) = some c →
          ∃ sg, IsSegment ipld c sg ∧ row = sg.rows.find? fun r => r.slot = slot
  pages : found.dirPages.Nodup ∧
    ∀ p, p ∈ found.dirPages ↔ ∃ depth, Reaches ipld root (.page depth) p
  /-- The decoded tree is the one a writer leaves for the rows of the listed segments. -/
  canonical : ∃ segments tree, List.Forall₂ (IsSegment ipld) found.listed segments ∧
    (∀ other, (∃ h, HeadTree.Read ipld root other h) ↔ other = tree) ∧
    WrittenFor ipld found.params
      ⟨if found.covered then some found.syncedTo else none, segments.flatMap Segment.rows⟩ tree

section Sound
variable {ipld : Codec} {content : Cid → Except ReadError Block} {generation : Option Nat}
variable {cache : StructureCache} {root opened : Cid} {h : Schema.Head} {es : List Link} {s : Nat}
variable {m : Contents} {τ : Type} {writer : Config τ} {present : τ → Cid → Prop} {built : World τ}
variable {f : Flat}

theorem Holding.run_read (holding : Holding ipld h es m) (admissible : Admissible ipld h es)
    (raws : RawBlobs m.rows) (durable : Durable ipld writer present)
    (run : Run ipld writer present (paramsOf h) built f) (agrees : Agrees m f) :
    ∃ c h', built.cur.root = some c ∧ (treeOf (paramsOf h) m).Read ipld c h' := by
  obtain ⟨m', represents, agrees'⟩ := run.represents durable
  obtain rfl : m' = m := agrees'.unique agrees represents.valid holding.valid
  have few : ∀ s, m'.coverage = some s →
      openWindow (paramsOf h) s - (paramsOf h).base ≤ maxEnumerationOutputs := by
    intro s covered
    cases admissible with
    | uncovered bare =>
      rw [holding.coverage, bare] at covered
      cases covered
    | covered _ few _ formed =>
      have total := formed.total
      rw [← holding.coverage, covered, Option.getD_some] at total
      change (paramsOf h).base + es.length = openWindow (paramsOf h) s at total
      omega
  obtain ⟨es', admissible'⟩ := represents.admissible_iff.mpr ⟨few, raws⟩
  have params : paramsOf (bareState ipld (paramsOf h) m').headObject = paramsOf h := by
    change (bareState ipld (paramsOf h) m').params = paramsOf h
    exact bareState_params
  have read := (represents.holding raws admissible').read admissible' represents.isHead
    represents.usableHead.fanout_pos
  rw [params] at read
  exact ⟨_, _, represents.root, read⟩

theorem Holding.writtenFor (holding : Holding ipld h es m) (admissible : Admissible ipld h es)
    (raws : RawBlobs m.rows) : WrittenFor ipld (paramsOf h) m (treeOf (paramsOf h) m) := by
  intro τ writer present durable
  refine ⟨fun built f run agrees => holding.run_read admissible raws durable run agrees, ?_⟩
  intro shared rows syncedTo built ran agrees
  exact holding.run_read admissible raws durable (buildGeneration_run ran) agrees

theorem serves_of_kept (shown : ∀ kind c, Reaches ipld root kind c → Kept ipld content c)
    (s : Unit × StructureCache) :
    Serves ipld (withCache (fixed content generation)) root s := by
  intro kind block reached
  obtain ⟨other, named, found⟩ := shown kind _ reached
  have same := ipld.nodeCID_injective named
  subst same
  simp [withCache, fixed, found]

theorem enumerationOf_reported (root : Cid) (formed : Formed ipld h opened es) (covered : h.syncedTo = some s)
    {win : Nat} (based : (paramsOf h).base ≤ win) :
    (enumerationOf ipld root h es).reported win = windowLink (paramsOf h) opened es s win := by
  have position : (enumerationOf ipld root h es).openOrd = openWindow (paramsOf h) s := by
    simp only [enumerationOf, covered]
    rfl
  rw [Enumeration.reported, position, windowLink]
  by_cases last : win = openWindow (paramsOf h) s
  · rw [if_pos last, if_pos last]
    exact formed.openCid
  · rw [if_neg last, if_neg last]
    have found := sealedFrom_find h.segBits (paramsOf h).base es (win - (paramsOf h).base)
    rwa [Nat.add_sub_cancel' based] at found

theorem Formed.listed_rows (formed : Formed ipld h opened es) (isHead : IsHead ipld root h)
    (covered : h.syncedTo = some s) {c : Cid} {win : Nat}
    (listed : (∃ x ∈ sealedFrom h.segBits (paramsOf h).base es, x.cid = c ∧ x.ord = win) ∨
      (h.openCid = some c ∧ win = openWindow (paramsOf h) s)) :
    ∃ sg, IsSegment ipld c sg ∧ ∀ r ∈ sg.rows, ord r.slot h.segBits = win ∧
      h.originSlot ≤ r.slot ∧ r.slot ≤ s := by
  obtain ⟨block, -, -, decoded⟩ := isHead
  have small := (decodeHead_encodable decoded).syncedInt s covered
  have total := formed.total
  rw [covered, Option.getD_some] at total
  change (paramsOf h).base + es.length = openWindow (paramsOf h) s at total
  rcases listed with ⟨x, member, rfl, rfl⟩ | ⟨openCid, rfl⟩
  · obtain ⟨low, high, entry⟩ := mem_sealedFrom member
    obtain ⟨sg, placed⟩ := formed.sealed _ _ entry
    have index : ord h.originSlot h.segBits + (x.ord - (paramsOf h).base) = x.ord :=
      Nat.add_sub_cancel' low
    rw [index] at placed
    -- The window ends before the open one starts.
    have start := le_ord_iff.mp (show x.ord + 1 ≤ ord (s + 1) h.segBits by
      change x.ord + 1 ≤ openWindow (paramsOf h) s
      omega)
    rw [maxInt64_eq] at small
    have ends : (x.ord + 1) * 2 ^ (paramsOf h).segBits ≤ 2 ^ 63 := by
      change _ * 2 ^ h.segBits ≤ _
      omega
    obtain ⟨-, -, -, rows⟩ := placed.shelves ends
    refine ⟨sg, placed.segment, fun r inside => ?_⟩
    obtain ⟨same, origin⟩ := rows r inside
    have upper := (ord_eq_iff.mp same).2
    change _ < (x.ord + 1) * 2 ^ h.segBits at upper
    exact ⟨same, origin, by omega⟩
  · obtain ⟨sg, placed⟩ := formed.segment
    rw [covered, Option.getD_some] at placed
    rw [formed.openCid] at openCid
    cases openCid
    have stands : OpenAt (paramsOf h) s sg := placed.opens small
    exact ⟨sg, placed.segment, stands.rows⟩

theorem rawBlobs_flatMap {cs : List Cid} {segments : List Segment}
    (read : List.Forall₂ (IsSegment ipld) cs segments) : RawBlobs (segments.flatMap Segment.rows) := by
  intro r member
  obtain ⟨sg, inside, row⟩ := List.mem_flatMap.mp member
  obtain ⟨c, -, segment⟩ : ∃ c, c ∈ cs ∧ IsSegment ipld c sg := by
    induction read with
    | nil => simp at inside
    | cons pair rest ih =>
      rcases List.mem_cons.mp inside with rfl | later
      · exact ⟨_, List.mem_cons_self .., pair⟩
      · obtain ⟨c, at_c, segment⟩ := ih (List.mem_flatMap.mpr ⟨sg, later, row⟩) later
        exact ⟨c, List.mem_cons_of_mem _ at_c, segment⟩
  obtain ⟨_, _, _, _, raws⟩ := segment
  exact raws r row

/-- The tree behind an admitted root is the one its rows determine. -/
theorem Admissible.canonical (admissible : Admissible ipld h es) (isHead : IsHead ipld root h)
    (usable : UsableHead h) :
    ∃ segments, List.Forall₂ (IsSegment ipld) (enumerationOf ipld root h es).listed segments ∧
      Holding ipld h es ⟨h.syncedTo, segments.flatMap Segment.rows⟩ := by
  obtain ⟨segments, opened, read, openRead, holding⟩ := admissible.holding isHead usable
  obtain ⟨listed, related, rows⟩ := sealedFrom_segments h.segBits (ord h.originSlot h.segBits) read
  refine ⟨listed ++ opened.toList, ?_, ?_⟩
  · refine List.rel_append related ?_
    change List.Forall₂ _ h.openCid.toList opened.toList
    generalize h.openCid = link at openRead
    cases openRead with
    | none => exact .nil
    | some segment => exact .cons segment .nil
  · rw [List.flatMap_append, ← rows]
    cases opened with
    | none => exact holding
    | some sg => simpa using holding

theorem Admissible.sound_tree (admissible : Admissible ipld h es) (isHead : IsHead ipld root h)
    (usable : UsableHead h) :
    ∃ segments tree,
      List.Forall₂ (IsSegment ipld) (enumerationOf ipld root h es).listed segments ∧
      (∀ other, (∃ g, HeadTree.Read ipld root other g) ↔ other = tree) ∧
      WrittenFor ipld (paramsOf h) ⟨if h.syncedTo.isSome then some (h.syncedTo.getD 0) else none,
        segments.flatMap Segment.rows⟩ tree := by
  have coverage : (if h.syncedTo.isSome then some (h.syncedTo.getD 0) else none) = h.syncedTo := by
    cases h.syncedTo <;> rfl
  obtain ⟨segments, listed, holding⟩ := admissible.canonical isHead usable
  have read := holding.read admissible isHead usable.fanout_pos
  rw [coverage]
  refine ⟨segments, _, listed, fun other => ⟨fun ⟨_, again⟩ => again.unique read, ?_⟩,
    holding.writtenFor admissible (rawBlobs_flatMap listed)⟩
  rintro rfl
  exact ⟨h, read⟩

def contentOf (cfg : Config σ) (s : σ) (c : Cid) : Except ReadError Block := (cfg.get c s).1

section Writer
variable {cfg : Config σ} {held : σ → Cid → Prop} {params : Params} {w : World σ}

theorem Represents.complete (represents : Represents ipld params (Present held) w m)
    (reliable : Reliable ipld cfg held) :
    Complete ipld (contentOf cfg w.shared) (cidOf ipld (rootNode ipld params m)) := by
  intro kind block reached
  obtain ⟨found, s', read⟩ := reliable.get_present (represents.reaches_held represents.root reached)
  rw [contentOf, read, reliable.get_honest read]

end Writer

def openIn (blocks : List Block) (root : Cid) :
    Except Error Enumeration × World (Unit × StructureCache) :=
  reopen DagCbor.codec (fixed (contentOf sampleConfig blocks) none) (some root)
    (newHead ((), ∅) sampleParams)

theorem openIn_admissible {blocks : List Block} {root : Cid} {α : Type} (f : Enumeration → α) {a : α}
    (ran : (openIn blocks root).1.toOption.map f = some a) :
    ∃ found h es, openIn blocks root = (.ok found, (openIn blocks root).2) ∧
      IsHead DagCbor.codec root h ∧ Admissible DagCbor.codec h es ∧
      found = enumerationOf DagCbor.codec root h es ∧ f found = a := by
  obtain ⟨found, answer, rfl⟩ := Option.map_eq_some_iff.mp ran
  have returns := returned (ok_of_toOption answer)
  have warm : Warm DagCbor.codec (contentOf sampleConfig blocks) ∅ := .empty
  obtain ⟨h, es, isHead, -, accepted⟩ := post_ok (warm.reopen_spec rfl) returns
  exact ⟨found, h, es, returns, isHead, accepted.admissible, accepted.found_eq, rfl⟩

section Made
variable (params : Params) (synced : Nat) (rows : List RefRow)

def made : List Block :=
  let w := (new DagCbor.codec sampleConfig params (newHead [] params)).2
  (applyRefs DagCbor.codec sampleConfig rows synced
    { w with shared := sampleBlob sampleHash :: w.shared }).2.shared

def madeRoot : Cid :=
  cidOf DagCbor.codec (rootNode DagCbor.codec params ⟨some synced, blobRows DagCbor.codec sampleBlob rows⟩)

end Made

def smallParams : Params := { sampleParams with originSlot := 6 }

def smallRows : List RefRow := [⟨6, [sampleHash]⟩]

/-- Over any content, with any cache earlier enumerations have left, a root that is
loaded and enumerated is soundly described. -/
theorem reopen_sound {params : Params} {found : Enumeration} {w : World (Unit × StructureCache)}
    (warm : Warm ipld content cache)
    (ran : reopen ipld (fixed content generation) (some root) (newHead ((), cache) params) =
      (.ok found, w)) :
    Sound ipld (withCache (fixed content generation)) root found w := by
  obtain ⟨h, es, isHead, usable, accepted⟩ := post_ok (warm.reopen_spec rfl) ran
  have serves : Serves ipld (withCache (fixed content generation)) root w.shared :=
    serves_of_kept (fun kind c reached => accepted.shown reached) _
  have tree := accepted.admissible.sound_tree isHead usable
  rw [accepted.found_eq]
  cases accepted.admissible with
  | uncovered bare depth dir openCid =>
    refine ⟨?_, .nil, by simp [enumerationOf, sealedFrom], ?_, ?_, ⟨?_, fun p => ?_⟩, tree⟩
    · simp [enumerationOf, bare]
    · simp [enumerationOf, sealedFrom, openCid]
    · simp [enumerationOf, bare]
    · exact firstVisits_nodup List.nodup_nil _
    · simp only [enumerationOf, headPages_zero depth, firstVisits, List.foldl_nil,
        List.not_mem_nil, false_iff, not_exists]
      intro d reached
      cases (reaches_bare isHead dir openCid reached).1
  | @covered opened _ covered few depth formed =>
    obtain ⟨s, synced⟩ := Option.isSome_iff_exists.mp covered
    obtain ⟨_, _, -, -, means⟩ := formed.means isHead usable synced
    have total := formed.total
    rw [synced, Option.getD_some] at total
    have position : (enumerationOf ipld root h es).openOrd = openWindow (paramsOf h) s := by
      simp only [enumerationOf, synced]
      rfl
    have last : (enumerationOf ipld root h es).syncedTo = s := by
      simp [enumerationOf, synced]
    refine ⟨fun _ => ?_, sealedFrom_ascending _ _, fun x member => ?_, fun c win at_win => ?_,
      fun _ slot origin reached => ?_, ⟨firstVisits_nodup List.nodup_nil _, fun p => ?_⟩, tree⟩
    · obtain ⟨sg, placed⟩ := formed.segment
      exact ⟨opened, sg, formed.openCid, placed.segment, placed.slot0⟩
    · obtain ⟨low, high, -⟩ := mem_sealedFrom member
      rw [position]
      exact ⟨low, by change _ < ord (s + 1) h.segBits; omega⟩
    · rw [last]
      rw [position] at at_win
      exact formed.listed_rows isHead synced at_win
    · have based : (paramsOf h).base ≤ ord slot h.segBits := ord_mono _ origin
      rw [last] at reached
      have le : ord slot h.segBits ≤ openWindow (paramsOf h) s := ord_mono _ (by omega)
      have least : h.dirDepth = 0 → es = [] := fun flat =>
        List.length_eq_zero_iff.mp (depth.zero_iff.mp flat)
      have report := enumerationOf_reported root formed synced based
      have row := serves.lookupRow_covered (m := ⟨some s, _⟩) isHead usable formed few depth synced
        means origin reached
      change segmentFor _ _ _ (ord slot h.segBits) _ =
        (.ok ((enumerationOf ipld root h es).reported (ord slot h.segBits)), _) ∧ _
      rw [report, accepted.cur]
      refine ⟨serves.segmentFor_eq isHead usable formed few depth synced based, _, row, ?_⟩
      change ((enumerationOf ipld root h es).reported (ord slot h.segBits) = none → _) ∧
        ∀ c, (enumerationOf ipld root h es).reported (ord slot h.segBits) = some c → _
      rw [report, ← windowRows_find h.segBits]
      rcases means.link_cases (m := ⟨some s, _⟩) isHead formed least based le with
        ⟨link, empty⟩ | ⟨c, link, -, segment⟩
      · rw [link]
        refine ⟨fun _ => ?_, fun _ link => by cases link⟩
        rw [empty]
        rfl
      · rw [link]
        refine ⟨fun link => (by cases link), ?_⟩
        rintro _ ⟨⟩
        exact ⟨_, segment, rfl⟩
    · rw [← formed.mem_headPages_iff isHead]
      exact mem_firstVisits.trans (by simp)

theorem reopen_sound_sample : ∃ content root found w,
    reopen DagCbor.codec (fixed content none) (some root) (newHead ((), ∅) sampleParams) =
        (.ok found, w) ∧
      Sound DagCbor.codec (withCache (fixed content none)) root found w := by
  obtain ⟨found, -, -, ran, -⟩ := @openIn_admissible (made sampleParams 9 sampleRows)
    (madeRoot sampleParams 9 sampleRows) _ (fun _ => ()) () (by decide +kernel)
  exact ⟨_, _, found, _, ran, reopen_sound .empty ran⟩

end Sound

/-! ### The cache and the byte budget -/

section Cache
variable {ipld : Codec} {content : Cid → Except ReadError Block} {generation : Option Nat}
variable {cache : StructureCache} {root : Cid} {h : Schema.Head}
variable {w : World (Unit × StructureCache)}

theorem unread_empty_iff {limit : Nat} :
    BytesWithin ipld (Unread ipld root generation ∅) limit ↔
      BytesWithin ipld (fun c => ∃ kind, Reaches ipld root kind c) limit :=
  ⟨fun within => within.mono fun _ reached => ⟨reached, fresh_empty _ _⟩,
    fun within => within.mono fun _ unread => unread.1⟩

def EnumeratesTo (ipld : Codec) (content : Cid → Except ReadError Block) (generation : Option Nat)
    (w : World (Unit × StructureCache)) (cache : StructureCache) (found : Enumeration) : Prop :=
  ∃ w', enumerate ipld (withCache (fixed content generation)) { w with shared := ((), cache) } =
    (.ok found, w')

/-- With every index block present, a warm cache leaves the checks as they are and
counts only the bytes that are read. -/
theorem Warm.enumeratesTo_iff (warm : Warm ipld content cache) (generation : Option Nat)
    (complete : Complete ipld content root) (opened : Opened ipld root h w) (found : Enumeration) :
    EnumeratesTo ipld content generation w cache found ↔
      ∃ es, Admissible ipld h es ∧
        BytesWithin ipld (Unread ipld root generation cache) maxEnumerationDecodedBytes ∧
        found = enumerationOf ipld root h es := by
  have opened' : Opened ipld root h { w with shared := (((), cache) : Unit × StructureCache) } :=
    ⟨opened.isHead, opened.loaded, opened.fanout_pos, opened.fanout_le⟩
  have spec := (fixed_shelf ipld content generation root).enumerate_spec warm.proved
    (fun _ _ _ fresh => warm.shown fresh) opened' trivial rfl
  constructor
  · rintro ⟨w', ran⟩
    obtain ⟨es, accepted⟩ := post_ok spec ran
    exact ⟨es, accepted.admissible, accepted.bytes, accepted.found_eq⟩
  · rintro ⟨es, admissible, bytes, rfl⟩
    obtain ⟨found, w', ran, es', accepted⟩ := post_returns spec fun e raised =>
      raised es admissible bytes complete
    obtain rfl := admissible.unique accepted.admissible
    exact ⟨w', accepted.found_eq ▸ ran⟩

def openedAt (root : Cid) (h : Schema.Head) : World (Unit × StructureCache) :=
  { newHead ((), ∅) (paramsOf h) with cur := State.ofHead h (some root) }

theorem Represents.opened {params : Params} {holds : World σ → Cid → Prop} {mw : World σ}
    {m : Contents} (represents : Represents ipld params holds mw m) :
    Opened ipld (cidOf ipld (rootNode ipld params m)) (bareState ipld params m).headObject
      (openedAt (cidOf ipld (rootNode ipld params m)) (bareState ipld params m).headObject) :=
  ⟨represents.isHead, rfl, represents.usableHead.fanout_pos, represents.usableHead.fanout_le⟩

end Cache

/-! ### A cache that decides -/

section Decides

def heavyParams : Params :=
  { name := "all", net := "mainnet", originSlot := 0, segBits := 0, fanoutBits := 10 }

def heavyRow (slot : Nat) : RefRow := ⟨slot, List.replicate 128 sampleHash⟩

def heavyRows (n : Nat) : List RefRow := (List.range n).map heavyRow

def heavyAnswer (slot : Nat) : Row :=
  { slot, entries := List.replicate 128
      { vh := sampleHash, blob := some (DagCbor.codec.sum raw (sampleBlob sampleHash)) } }

def heavySegment (win : Nat) : Segment := { slot0 := win, rows := [heavyAnswer win] }

def heavyCid (win : Nat) : Cid := cidOf DagCbor.codec (segmentNode (heavySegment win))

variable (n : Nat)

theorem blobRows_heavy :
    blobRows DagCbor.codec sampleBlob (heavyRows n) = (List.range n).map heavyAnswer := by
  simp only [blobRows, heavyRows, List.map_map]
  apply List.map_congr_left
  intro slot _
  simp [heavyRow, heavyAnswer]

theorem heavy_short (win : Nat) : ShortBlobs (heavyAnswer win) := by
  intro e member
  obtain rfl := List.eq_of_mem_replicate member
  exact ⟨_, rfl, sum_shortCid _ (by decide) _⟩

theorem windowRows_heavy (n win : Nat) :
    windowRows 0 ((List.range n).map heavyAnswer) win =
      if win < n then [heavyAnswer win] else [] := by
  induction n with
  | zero => simp [windowRows]
  | succ n ih =>
    have last : windowRows 0 [heavyAnswer n] win = if n = win then [heavyAnswer win] else [] := by
      have slot : ord (heavyAnswer n).slot 0 = n := by rw [ord_eq_div]; exact Nat.div_one n
      by_cases same : n = win
      · subst same
        simp [windowRows, slot]
      · simp [windowRows, slot, same]
    rw [List.range_succ, List.map_append, windowRows_append, ih, List.map_singleton, last]
    by_cases before : win < n
    · rw [if_pos before, if_neg (by omega), if_pos (by omega), List.append_nil]
    · by_cases same : n = win
      · rw [if_neg before, if_pos same, if_pos (by omega), List.nil_append]
      · rw [if_neg before, if_neg same, if_neg (by omega), List.append_nil]

theorem segOf_heavy {n win : Nat} (before : win < n) :
    segOf 0 ((List.range n).map heavyAnswer) win = heavySegment win := by
  rw [segOf, windowRows_heavy, if_pos before, Nat.pow_zero, Nat.mul_one]
  rfl

theorem size_heavy (win : Nat) :
    9728 ≤ size (DagCbor.encode (segmentNode (heavySegment win))) ∧
      size (DagCbor.encode (segmentNode (heavySegment win))) ≤ 9780 := by
  have row := size_rowNode (heavy_short win)
  have slot := headSize_le win
  have one : headSize 1 = 1 := rfl
  have many : headSize 128 = 2 := rfl
  rw [size_segmentNode]
  simp only [heavySegment, List.map_cons, List.map_nil, List.sum_cons, List.sum_nil,
    List.length_cons, List.length_nil, row]
  simp only [heavyAnswer, List.length_replicate, Nat.zero_add, one, many]
  omega

def heavyContents (n : Nat) : Contents := ⟨some n, (List.range (n + 1)).map heavyAnswer⟩

theorem heavy_written {n : Nat} (small : n < 2 ^ 62) : ∃ w,
    Represents DagCbor.codec heavyParams (Present (InMemory DagCbor.codec)) w (heavyContents n) := by
  have usable : heavyParams.Usable := ⟨by decide, by decide, by decide, by decide, by decide⟩
  obtain ⟨made, -, empty⟩ := memory_new sampleBlob usable (by decide) []
  have kept : ∀ c, InMemory DagCbor.codec made.shared c →
      InMemory DagCbor.codec (sampleBlob sampleHash :: made.shared) c :=
    fun c ⟨b, member, same⟩ => ⟨b, List.mem_cons_of_mem _ member, same⟩
  have supplied : Represents DagCbor.codec heavyParams (Present (InMemory DagCbor.codec))
      { made with shared := sampleBlob sampleHash :: made.shared } ⟨none, []⟩ :=
    empty.transport rfl fun _ held => kept _ held
  have shaped : Shaped heavyParams.originSlot n (heavyRows (n + 1)) := by
    refine ⟨Nat.zero_le _, ?_, fun _ _ => Nat.zero_le _, ?_, ?_, ?_⟩
    · exact List.pairwise_map.mpr List.pairwise_lt_range
    all_goals
      intro r member
      obtain ⟨slot, inside, rfl⟩ := List.mem_map.mp member
    · have below := List.mem_range.mp inside
      exact Nat.le_of_lt_succ below
    · simp [heavyRow]
    · simp [heavyRow, maxBlobsPerSlotCeiling]
  have stored : ∀ r ∈ heavyRows (n + 1), ∀ vh ∈ r.vhs,
      sampleBlob vh ∈ sampleBlob sampleHash :: made.shared := by
    intro r member vh inside
    obtain ⟨slot, -, rfl⟩ := List.mem_map.mp member
    obtain rfl := List.eq_of_mem_replicate inside
    exact List.mem_cons_self
  have fits : ∀ win, size (DagCbor.encode (segmentNode (segOf heavyParams.segBits
      ([] ++ blobRows DagCbor.codec sampleBlob (heavyRows (n + 1))) win))) ≤ maxIndexNodeBytes := by
    intro win
    rw [List.nil_append, blobRows_heavy]
    change size (DagCbor.encode (segmentNode (segOf 0 _ win))) ≤ _
    by_cases before : win < n + 1
    · rw [segOf_heavy before]
      exact Nat.le_trans (size_heavy win).2 (by decide)
    · rw [segOf, windowRows_heavy, if_neg before]
      exact Nat.le_trans (size_segmentNode_le (by simp)) (by change 33 ≤ _; decide)
  obtain ⟨r, w, -, represents⟩ := memory_applyRefs supplied shaped (fun s covered => by cases covered)
    stored (by rw [maxInt64_eq]; omega) (by decide) (by decide) fits
  rw [List.nil_append, blobRows_heavy] at represents
  exact ⟨w, represents⟩

theorem heavy_last : openWindow heavyParams n = n + 1 := by
  rw [openWindow, ord_eq_div]
  exact Nat.div_one _

theorem heavy_base : heavyParams.base = 0 := by decide

theorem heavy_entries :
    sealedEntries DagCbor.codec heavyParams ((List.range (n + 1)).map heavyAnswer) n =
      (List.range (n + 1)).map fun win => some (heavyCid win) := by
  rw [sealedEntries, entriesOf, heavy_last, heavy_base, Nat.sub_zero]
  apply List.map_congr_left
  intro win inside
  have before := List.mem_range.mp inside
  change entryOf 0 _ _ (0 + win) = _
  rw [Nat.zero_add, entryOf, windowRows_heavy, if_pos before, if_neg (by simp), segCid,
    segOf_heavy before]
  rfl

theorem heavy_raws : RawBlobs ((List.range n).map heavyAnswer) := by
  intro r member e inside
  obtain ⟨slot, -, rfl⟩ := List.mem_map.mp member
  obtain rfl := List.eq_of_mem_replicate inside
  exact ⟨_, rfl, rfl, rfl, rfl, rfl⟩

section Head
variable {w : World (List Block)} {n : Nat}

def heavyRoot (n : Nat) : Cid :=
  cidOf DagCbor.codec (rootNode DagCbor.codec heavyParams (heavyContents n))

def heavyHead (n : Nat) : Schema.Head :=
  (bareState DagCbor.codec heavyParams (heavyContents n)).headObject

theorem heavy_windows : openWindow heavyParams n - heavyParams.base = n + 1 := by
  rw [heavy_last, heavy_base, Nat.sub_zero]

theorem heavy_formed
    (represents : Represents DagCbor.codec heavyParams (Present (InMemory DagCbor.codec)) w
      (heavyContents n)) (few : n + 1 ≤ maxEnumerationOutputs) :
    ∃ opened, Formed DagCbor.codec (heavyHead n) opened
        ((List.range (n + 1)).map fun win => some (heavyCid win)) ∧
      IsDepth 10 (n + 1) (heavyHead n).dirDepth ∧
      Admissible DagCbor.codec (heavyHead n)
        ((List.range (n + 1)).map fun win => some (heavyCid win)) := by
  have within : ∀ s, (heavyContents n).coverage = some s →
      openWindow heavyParams s - heavyParams.base ≤ maxEnumerationOutputs := by
    rintro _ ⟨⟩
    rwa [heavy_windows]
  obtain ⟨es, admissible⟩ := represents.admissible_iff.mpr ⟨within, heavy_raws (n + 1)⟩
  cases id admissible with
  | uncovered bare => cases bare
  | covered _ _ depth formed =>
    obtain ⟨-, rfl⟩ := represents.entries_eq rfl formed
    change IsDepth 10 (sealedEntries DagCbor.codec heavyParams _ n).length _ at depth
    rw [length_sealedEntries, heavy_windows] at depth
    change Formed _ _ _ (sealedEntries DagCbor.codec heavyParams _ n) at formed
    change Admissible _ _ (sealedEntries DagCbor.codec heavyParams _ n) at admissible
    rw [heavyContents, heavy_entries] at formed admissible
    exact ⟨_, formed, depth, admissible⟩

theorem sizeOf_heavyCid (win : Nat) :
    9728 ≤ sizeOf DagCbor.codec (heavyCid win) ∧ sizeOf DagCbor.codec (heavyCid win) ≤ 9780 := by
  have named : heavyCid win =
      DagCbor.codec.nodeCID (DagCbor.encode (segmentNode (heavySegment win))) := rfl
  rw [named, sizeOf_nodeCID]
  exact size_heavy win

theorem heavy_bytes {opened : Cid} {P : Cid → Prop} (first : Nat)
    (isHead : IsHead DagCbor.codec (heavyRoot n) (heavyHead n))
    (formed : Formed DagCbor.codec (heavyHead n) opened
      ((List.range (n + 1)).map fun win => some (heavyCid win)))
    (depth : IsDepth 10 (n + 1) (heavyHead n).dirDepth)
    (index : ∀ c, P c → ∃ kind, Reaches DagCbor.codec (heavyRoot n) kind c)
    (later : ∀ win, P (heavyCid win) → first ≤ win) :
    BytesWithin DagCbor.codec P
      ((2 + pathsUpTo 1024 (n + 1) (heavyHead n).dirDepth) * maxEnumerationNodeBytes +
        (n + 1 - first) * 9780) := by
  have count : ((List.range (n + 1)).map fun win => some (heavyCid win)).length = n + 1 := by simp
  have pages := formed.length_headPages (by rw [count]; exact depth)
  rw [count] at pages
  change _ = pathsUpTo 1024 (n + 1) _ at pages
  have bound := formed.bytes_le isHead
    ((List.range (n + 1 - first)).map fun i => heavyCid (first + i)) 9780 index ?_ ?_
  · rwa [pages, List.length_map, List.length_range] at bound
  · intro c holds member
    obtain ⟨win, inside, same⟩ := List.mem_map.mp member
    cases same
    have above := later win holds
    have below := List.mem_range.mp inside
    exact List.mem_map.mpr ⟨win - first, List.mem_range.mpr (by omega), by
      rw [Nat.add_sub_cancel' above]⟩
  · intro c member
    obtain ⟨i, -, rfl⟩ := List.mem_map.mp member
    exact (sizeOf_heavyCid _).2

theorem heavy_over {opened : Cid} (small : n < 2 ^ 62)
    (isHead : IsHead DagCbor.codec (heavyRoot n) (heavyHead n))
    (formed : Formed DagCbor.codec (heavyHead n) opened
      ((List.range (n + 1)).map fun win => some (heavyCid win)))
    (depth : IsDepth 10 (n + 1) (heavyHead n).dirDepth) {limit : Nat}
    (large : limit < (n + 1) * 9728) :
    ¬ BytesWithin DagCbor.codec (fun c => ∃ kind, Reaches DagCbor.codec (heavyRoot n) kind c)
      limit := by
  intro within
  have entry : ∀ win, win < n + 1 →
      ((List.range (n + 1)).map fun win => some (heavyCid win))[win]? = some (some (heavyCid win)) := by
    intro win before
    rw [List.getElem?_map, List.getElem?_range before]
    rfl
  have distinct : Set.InjOn heavyCid (Finset.range (n + 1)) := by
    intro a before b before' same
    have first := Finset.mem_range.mp (Finset.mem_coe.mp before)
    have second := Finset.mem_range.mp (Finset.mem_coe.mp before')
    have base : ord (heavyHead n).originSlot (heavyHead n).segBits = 0 := rfl
    have single : (paramsOf (heavyHead n)).segBits = 0 := rfl
    obtain ⟨_, placed⟩ := formed.sealed a _ (entry a first)
    obtain ⟨_, placed'⟩ := formed.sealed b _ (entry b second)
    rw [same] at placed
    have windows := placed.window_eq placed' (by rw [single, base]; omega)
      (by rw [single, base]; omega)
    omega
  have bound := within ((Finset.range (n + 1)).image heavyCid) ?_
  · rw [Finset.sum_image distinct] at bound
    have each := Finset.card_nsmul_le_sum (Finset.range (n + 1)) _ 9728
      fun win _ => (sizeOf_heavyCid win).1
    simp only [Finset.card_range, nsmul_eq_mul, Nat.cast_id] at each
    omega
  · intro c member
    obtain ⟨win, before, rfl⟩ := Finset.mem_image.mp member
    refine ⟨.segment, formed.reaches_entry isHead (fun flat => ?_)
      (List.mem_of_getElem? (entry win (Finset.mem_range.mp before)))⟩
    have none := depth.zero_iff.mp flat
    omega

end Head

theorem Remembers.fresh {ipld : Codec} {g : Nat} {shown : Cid → Prop} {es : List Link}
    {after : StructureCache} (remembers : Remembers ipld (some g) shown es ∅ after) {c : Cid}
    (member : some c ∈ es) : Fresh (some g) after c := by
  obtain ⟨proofs, rfl, noted, all⟩ := remembers
  have inside := (all c member).resolve_right (fresh_empty _ _)
  obtain ⟨p, found⟩ := Finmap.mem_iff.mp inside
  obtain ⟨-, stamp, known, -⟩ := noted c p found
  refine ⟨p, ?_, rfl, known, stamp⟩
  unfold StructureCache.remember
  split
  · rename_i none
    have keys : c ∈ proofs.keys := Finmap.mem_keys.mpr inside
    rw [Finset.card_eq_zero.mp none] at keys
    simp at keys
  · split
    · exact found
    · exact Finmap.mem_lookup_union.mpr (.inl found)

/-- Two heads in one store, the first an initial part of the second. What an
enumeration of the first leaves in the cache takes the second under the budget. -/
theorem heavy_cache (half full : Nat) (before : half < full) (few : full < maxEnumerationOutputs)
    (halfDepth : IsDepth 10 (half + 1) 2) (fullDepth : IsDepth 10 (full + 1) 2)
    (halfFits : (2 + pathsUpTo 1024 (half + 1) 2) * maxEnumerationNodeBytes + (half + 1) * 9780 ≤
      maxEnumerationDecodedBytes)
    (restFits : (2 + pathsUpTo 1024 (full + 1) 2) * maxEnumerationNodeBytes + (full - half) * 9780 ≤
      maxEnumerationDecodedBytes)
    (large : maxEnumerationDecodedBytes < (full + 1) * 9728) :
    ∃ content cache root h w, Warm DagCbor.codec content cache ∧
      Complete DagCbor.codec content root ∧ Opened DagCbor.codec root h w ∧
      (∃ found, EnumeratesTo DagCbor.codec content (some 1) w cache found) ∧
      ¬ ∃ found, EnumeratesTo DagCbor.codec content (some 1) w ∅ found := by
  have outputs : maxEnumerationOutputs = 1048576 := rfl
  have reliable := memory_reliable DagCbor.codec sampleBlob
  obtain ⟨first, halfWritten⟩ := heavy_written (n := half) (by omega)
  obtain ⟨second, fullWritten⟩ := heavy_written (n := full) (by omega)
  have halfHeld : Represents DagCbor.codec heavyParams (Present (InMemory DagCbor.codec))
      { first with shared := first.shared ++ second.shared } (heavyContents half) :=
    halfWritten.transport rfl fun c ⟨b, member, same⟩ => ⟨b, List.mem_append_left _ member, same⟩
  have fullHeld : Represents DagCbor.codec heavyParams (Present (InMemory DagCbor.codec))
      { second with shared := first.shared ++ second.shared } (heavyContents full) :=
    fullWritten.transport rfl fun c ⟨b, member, same⟩ => ⟨b, List.mem_append_right _ member, same⟩
  obtain ⟨_, halfFormed, deep, halfAdmissible⟩ := heavy_formed halfHeld (by omega)
  obtain ⟨_, fullFormed, deep', fullAdmissible⟩ := heavy_formed fullHeld (by omega)
  have halfBytes : BytesWithin DagCbor.codec
      (Unread DagCbor.codec (heavyRoot half) (some 1) ∅) maxEnumerationDecodedBytes := by
    have bound := heavy_bytes (P := Unread DagCbor.codec (heavyRoot half) (some 1) ∅) 0
      halfHeld.isHead halfFormed deep (fun _ unread => unread.1) fun _ _ => Nat.zero_le _
    rw [deep.unique halfDepth] at bound
    exact fun cs each => Nat.le_trans (bound cs each) halfFits
  -- The first head is enumerated with an empty cache.
  let content := contentOf sampleConfig (first.shared ++ second.shared)
  obtain ⟨found, after, ran, es, accepted⟩ := post_returns
    ((fixed_shelf DagCbor.codec content (some 1) (heavyRoot half)).enumerate_spec proved_empty
      (fun _ _ c fresh => (fresh_empty _ c fresh).elim) halfHeld.opened trivial rfl)
    fun e raised => raised _ halfAdmissible halfBytes (halfHeld.complete reliable)
  obtain rfl := accepted.admissible.unique halfAdmissible
  have warm : Warm DagCbor.codec content after.shared.2 := .enumerated .empty halfHeld.opened ran
  have complete : Complete DagCbor.codec content (heavyRoot full) := fullHeld.complete reliable
  have restBytes : BytesWithin DagCbor.codec
      (Unread DagCbor.codec (heavyRoot full) (some 1) after.shared.2) maxEnumerationDecodedBytes := by
    have bound := heavy_bytes (P := Unread DagCbor.codec (heavyRoot full) (some 1) after.shared.2)
      (half + 1) fullHeld.isHead fullFormed deep' (fun _ unread => unread.1) fun win unread => ?_
    · rw [deep'.unique fullDepth, Nat.add_sub_add_right] at bound
      exact fun cs each => Nat.le_trans (bound cs each) restFits
    · by_contra early
      exact unread.2 (accepted.remembers.fresh
        (List.mem_map.mpr ⟨win, List.mem_range.mpr (by omega), rfl⟩))
  refine ⟨content, after.shared.2, heavyRoot full, heavyHead full, _, warm, complete,
    fullHeld.opened, ?_, ?_⟩
  · exact ⟨_, (warm.enumeratesTo_iff (some 1) complete fullHeld.opened _).mpr
      ⟨_, fullAdmissible, restBytes, rfl⟩⟩
  · rintro ⟨found, enumerated⟩
    obtain ⟨_, -, within, -⟩ :=
      (Warm.empty.enumeratesTo_iff (some 1) complete fullHeld.opened found).mp enumerated
    exact heavy_over (by omega) fullHeld.isHead fullFormed deep' large (unread_empty_iff.mp within)

end Decides

end Bloar.Archive
