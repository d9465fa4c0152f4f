import Bloar.Reopen

/-!
The roots a writer publishes, as an enumeration sees them. The canonical index of
some contents is formed whenever every blob link is raw, so within the output
budget it is admissible, and nothing else can stand behind its root.
-/

namespace Bloar.Archive
open Ipld Schema Arith Fallible RadixList

variable {σ : Type}

section Canonical
variable {ipld : Codec} {holds : World σ → Cid → Prop} {w : World σ} {params : Params}
variable {m : Contents} {radix : Nat}

theorem Stored.isPage {kids : List Link} (stored : Stored ipld holds w (dirNodeNode ⟨kids⟩)) :
    IsPage ipld (dirCid ipld kids) ⟨trimTrailingNulls kids⟩ :=
  ⟨_, rfl, stored.fits, stored.decodes_dirNode⟩

variable {level : Nat} {es : List Link} {sg : Segment} {s win : Nat} {opened : Cid}

theorem PagesStored.pageAt (positive : 0 < radix)
    (stored : PagesStored ipld radix holds w level es) (some_entry : es ≠ [])
    (fits : es.length ≤ radix ^ (level + 1)) :
    PageAt ipld radix level (pageCid ipld radix level es) es := by
  induction level generalizing es with
  | zero =>
    rw [Nat.zero_add, Nat.pow_one] at fits
    exact ⟨fits, stored.root.isPage⟩
  | succ level ih =>
    have cap : 0 < radix ^ (level + 1) := Nat.pow_pos positive
    have whole : trimTrailingNulls (pageKids ipld radix (level + 1) es) = _ :=
      trimTrailingNulls_of_all_some (pageKids_succ_defined level es)
    refine ⟨_, stored.root.isPage, ?_⟩
    rw [whole]
    refine .of_getElem cap (length_pageKids_succ level es) fun j inside => ?_
    have before := (lt_chunkCount_iff cap j es.length).mpr inside
    refine ⟨_, pageKids_getElem before, ih (stored.child before) ?_ (chunk_length_le _ _ _)⟩
    exact List.ne_nil_of_length_pos (chunk_length_pos cap inside)

theorem Stored.isSegment (stored : Stored ipld holds w (segmentNode sg))
    (encodable : sg.Encodable) (raws : RawBlobs sg.rows) :
    IsSegment ipld (cidOf ipld (segmentNode sg)) sg :=
  ⟨_, rfl, stored.fits, stored.decodes_segment encodable, raws⟩

variable (represents : Represents ipld params holds w m)
include represents

variable (covered : m.coverage = some s)
include covered

theorem Represents.segmentAt {upper : Nat} {opened : Bool} (le : win ≤ openWindow params s)
    (stored : Stored ipld holds w (segmentNode (segOf params.segBits m.rows win)))
    (raws : RawBlobs m.rows) (filled : opened = false → windowRows params.segBits m.rows win ≠ [])
    (below : ∀ r ∈ windowRows params.segBits m.rows win, r.slot ≤ upper) :
    SegmentAt ipld params (segCid params.segBits ipld m.rows win) win upper opened
      (segOf params.segBits m.rows win) := by
  have valid := represents.valid
  have small := valid.open_start covered le
  refine ⟨stored.isSegment (represents.open_encodable covered le) ?_, ?_, filled, ?_⟩
  · intro r member
    exact raws r (mem_windowRows.mp member).1
  · rw [maxInt64_eq] at small
    exact (windowStart_eq (by omega)).symm
  · intro r member
    obtain ⟨inside, same⟩ := mem_windowRows.mp member
    exact ⟨max_le (ord_eq_iff.mp same).1 (valid.after_origin r inside), below r member⟩

theorem Represents.row_le_windowEnd (before : win < openWindow params s) {r : Row}
    (member : r ∈ windowRows params.segBits m.rows win) :
    r.slot ≤ windowEnd win params.segBits := by
  have next : win + 1 ≤ openWindow params s := before
  have small := represents.valid.open_start covered next
  have inside := (ord_eq_iff.mp (mem_windowRows.mp member).2).2
  rw [maxInt64_eq] at small
  rw [windowEnd_eq (by omega)]
  omega

omit covered

theorem Represents.isHead :
    IsHead ipld (cidOf ipld (rootNode ipld params m)) (bareState ipld params m).headObject :=
  ⟨_, rfl, represents.rootStored.fits,
    represents.rootStored.decodes_root represents.valid represents.usable⟩

omit represents in
theorem sealedEntries_getElem {i : Nat} (inside : params.base + i < openWindow params s) :
    (sealedEntries ipld params m.rows s)[i]? =
      some (entryOf params.segBits ipld m.rows (params.base + i)) := by
  have found : (entriesOf params.segBits ipld m.rows params.base (openWindow params s))[_]? = _ :=
    entriesOf_getElem ipld m.rows (Nat.le_add_right params.base i) inside
  rwa [Nat.add_sub_cancel_left] at found

include covered

theorem Represents.base_le_open : params.base ≤ openWindow params s :=
  Nat.le_trans (represents.valid.base_le covered) (openWindow_ge params s)

theorem Represents.pageAt (deep : (bareState ipld params m).headObject.dirDepth = level + 1) :
    (bareState ipld params m).headObject.dir =
        some (pageCid ipld (2 ^ params.fanoutBits) level (sealedEntries ipld params m.rows s)) ∧
      PageAt ipld (2 ^ params.fanoutBits) level
        (pageCid ipld (2 ^ params.fanoutBits) level (sealedEntries ipld params m.rows s))
        (sealedEntries ipld params m.rows s) := by
  have dirOf := represents.dirOf covered
  have state : w.cur = { bareState ipld params m with
    root := some (cidOf ipld (rootNode ipld params m)) } := represents.state_eq
  rw [state] at dirOf
  change (bareState ipld params m).dirDepth = level + 1 at deep
  change DirOf _ _ _ _ _ (bareState ipld params m).dir (bareState ipld params m).dirDepth at dirOf
  rw [deep] at dirOf
  refine ⟨dirOf.link, (dirOf.stored level rfl).pageAt (Nat.two_pow_pos _) ?_ ?_⟩
  · rintro empty
    have filled := dirOf.least.zero_iff
    simp [empty] at filled
  · rw [← Nat.pow_mul]
    exact dirOf.least.holds

theorem Represents.formed (raws : RawBlobs m.rows) :
    Formed ipld (bareState ipld params m).headObject
      (segCid params.segBits ipld m.rows (openWindow params s))
      (sealedEntries ipld params m.rows s) := by
  have valid := represents.valid
  have based := represents.base_le_open covered
  have pages := fun level deep => represents.pageAt covered (deep : _ = level + 1)
  rw [bareState_some covered] at pages ⊢
  refine ⟨rfl, ⟨segOf params.segBits m.rows (openWindow params s), ?_⟩, ?_, ?_, ?_⟩
  · exact represents.segmentAt covered (Nat.le_refl _) (represents.open_stored covered) raws
      (by simp) fun r member => valid.row_le covered (mem_windowRows.mp member).1
  · change params.base + _ = openWindow params s
    rw [length_sealedEntries]
    omega
  · intro i c entry
    change ∃ sg, SegmentAt ipld params c (params.base + i) (windowEnd (params.base + i) params.segBits)
      false sg
    have inside := (List.getElem?_eq_some_iff.mp entry).1
    rw [length_sealedEntries] at inside
    rw [sealedEntries_getElem (by omega), Option.some.injEq, entryOf] at entry
    split at entry
    · cases entry
    · rename_i filled
      cases entry
      have stored := represents.stored _ (.sealed covered (Nat.le_add_right _ _) (by omega) filled)
      exact ⟨_, represents.segmentAt covered (by omega) stored raws (fun _ => filled)
        fun r member => represents.row_le_windowEnd covered (by omega) member⟩
  · intro level deep
    exact ⟨_, pages level deep⟩

omit covered in
omit represents in
theorem IsSegment.eq_of_stored {c : Cid} {sg' : Segment} (segment : IsSegment ipld c sg)
    (named : c = cidOf ipld (segmentNode sg')) (stored : Stored ipld holds w (segmentNode sg'))
    (encodable : sg'.Encodable) : sg = sg' := by
  obtain ⟨block, named', -, decoded, -⟩ := segment
  rw [ipld.nodeCID_injective (named'.symm.trans named), stored.decodes_segment encodable] at decoded
  exact (Except.ok.inj decoded).symm

variable (formed : Formed ipld (bareState ipld params m).headObject opened es)
include formed

/-- Nothing but its own entries stands behind a canonical root. -/
theorem Represents.entries_eq :
    opened = segCid params.segBits ipld m.rows (openWindow params s) ∧
      es = sealedEntries ipld params m.rows s := by
  have pages := fun level deep => represents.pageAt covered (deep : _ = level + 1)
  have based := represents.base_le_open covered
  have least := (represents.dirOf covered).least
  have state : w.cur = { bareState ipld params m with
    root := some (cidOf ipld (rootNode ipld params m)) } := represents.state_eq
  rw [state] at least
  have openCid := formed.openCid
  have total := formed.total
  rw [bareState_some covered] at openCid total
  change params.base + es.length = openWindow params s at total
  have lengths : es.length = (sealedEntries ipld params m.rows s).length := by
    rw [length_sealedEntries]
    omega
  refine ⟨(Option.some.inj openCid).symm, formed.entries_eq lengths ?_ ?_⟩
  · intro shallow
    rw [lengths]
    exact least.zero_iff.mp shallow
  · intro level deep
    have fanout : (bareState ipld params m).headObject.fanoutBits = params.fanoutBits :=
      congrArg Params.fanoutBits (bareState_params : (bareState ipld params m).params = params)
    rw [fanout]
    exact ⟨_, pages level deep⟩

theorem Represents.raws_of_formed : RawBlobs m.rows := by
  obtain ⟨rfl, rfl⟩ := represents.entries_eq covered formed
  have valid := represents.valid
  obtain ⟨openSegment, opened⟩ := formed.segment
  have sealed := formed.sealed
  rw [bareState_some covered] at sealed
  change SealedAt ipld params params.base _ at sealed
  intro r member
  -- The row is in the open segment or in the sealed one of its window.
  have inWindow : r ∈ windowRows params.segBits m.rows (ord r.slot params.segBits) :=
    mem_windowRows.mpr ⟨member, rfl⟩
  have le : ord r.slot params.segBits ≤ openWindow params s :=
    Nat.le_trans (ord_mono _ (valid.row_le covered member)) (openWindow_ge params s)
  have based : params.base ≤ ord r.slot params.segBits := ord_mono _ (valid.after_origin r member)
  by_cases last : ord r.slot params.segBits = openWindow params s
  · have same := opened.segment.eq_of_stored rfl (represents.open_stored covered)
      (represents.open_encodable covered (Nat.le_refl _))
    obtain ⟨_, _, _, _, raws⟩ := opened.segment
    rw [same] at raws
    exact raws r (last ▸ inWindow)
  · have filled : windowRows params.segBits m.rows (ord r.slot params.segBits) ≠ [] :=
      List.ne_nil_of_mem inWindow
    have index : params.base + (ord r.slot params.segBits - params.base) =
        ord r.slot params.segBits := by omega
    have entry : (sealedEntries ipld params m.rows s)[ord r.slot params.segBits - params.base]? = _ :=
      sealedEntries_getElem (by omega)
    rw [index, entryOf, if_neg filled] at entry
    obtain ⟨sg, placed⟩ := sealed _ _ entry
    have stored := represents.stored _ (.sealed covered based (by omega) filled)
    have same := placed.segment.eq_of_stored rfl stored (represents.open_encodable covered le)
    obtain ⟨_, _, _, _, raws⟩ := placed.segment
    rw [same] at raws
    exact raws r inWindow

omit covered

omit formed

theorem Represents.admissible_iff :
    (∃ es, Admissible ipld (bareState ipld params m).headObject es) ↔
      (∀ s, m.coverage = some s → openWindow params s - params.base ≤ maxEnumerationOutputs) ∧
        RawBlobs m.rows := by
  cases coverage : m.coverage with
  | none =>
    have bare : bareState ipld params m = .empty params := by simp [bareState, coverage]
    rw [bare]
    refine ⟨fun _ => ⟨by simp, ?_⟩, fun _ => ⟨[], .uncovered rfl rfl rfl rfl⟩⟩
    rw [represents.valid.rows_nil coverage]
    intro r member
    cases member
  | some s =>
    constructor
    · rintro ⟨es, admissible⟩
      cases admissible with
      | uncovered bare =>
        rw [bareState_some coverage] at bare
        cases bare
      | covered _ few _ formed =>
        obtain ⟨-, rfl⟩ := represents.entries_eq coverage formed
        refine ⟨fun other same => ?_, represents.raws_of_formed coverage formed⟩
        cases same
        rwa [length_sealedEntries] at few
    · rintro ⟨few, raws⟩
      have dirOf := represents.dirOf coverage
      have state : w.cur = { bareState ipld params m with
        root := some (cidOf ipld (rootNode ipld params m)) } := represents.state_eq
      rw [state] at dirOf
      refine ⟨_, .covered ?_ ?_ ?_ (represents.formed coverage raws)⟩
      · rw [bareState_some coverage]
        rfl
      · rw [length_sealedEntries]
        exact few s rfl
      · have fanout : (bareState ipld params m).headObject.fanoutBits = params.fanoutBits :=
          congrArg Params.fanoutBits (bareState_params : (bareState ipld params m).params = params)
        rw [fanout]
        exact dirOf.least

theorem Represents.usableHead : UsableHead (bareState ipld params m).headObject := by
  have usable := represents.usable
  have params_eq : (bareState ipld params m).params = params := bareState_params
  refine ⟨?_, ?_, ?_⟩ <;> simp only [State.headObject, params_eq]
  · exact usable.fanout_pos
  · exact usable.fanout_le
  · exact usable.segBits

end Canonical

/-! ### Reopening a published root -/

/-- No collection runs: the generation stays, and reading it loses nothing. -/
def Quiet (cfg : Config σ) (present : σ → Cid → Prop) : Prop :=
  ∀ current, cfg.collectionGeneration = some current →
    ∃ g, ∀ s, (current s).1 = g ∧ ∀ c, present s c → present (current s).2 c

section Writer
variable {ipld : Codec} {cfg : Config σ} {present : σ → Cid → Prop} {w : World σ} {params : Params}
variable {m : Contents} {f : Flat}

/-- A reliable store without collections holds the index of a root. -/
theorem Reliable.shelf (reliable : Reliable ipld cfg present) (quiet : Quiet cfg present)
    (root : Cid) :
    ∃ generation, Shelf ipld cfg root
      (fun s => ∀ kind c, Reaches ipld root kind c → present s c) (fun _ _ => True) False
      generation := by
  have found : ∀ {block kind s}, (∀ kind c, Reaches ipld root kind c → present s c) →
      Reaches ipld root kind (ipld.nodeCID block) →
      (cfg.get (ipld.nodeCID block) s).1 = .ok block := by
    intro block kind s holds reached
    obtain ⟨found, s', read⟩ := reliable.get_present (holds kind _ reached)
    rw [read, reliable.get_honest read]
  cases known : cfg.collectionGeneration with
  | none =>
    exact ⟨none, fun holds kind c reached => reliable.get_keeps (holds kind c reached),
      fun _ _ => trivial, fun _ _ => trivial, fun holds reached => .inr (found holds reached),
      fun _ => known, by simp⟩
  | some current =>
    obtain ⟨g, steady⟩ := quiet current known
    refine ⟨some g, fun holds kind c reached => reliable.get_keeps (holds kind c reached),
      fun _ _ => trivial, fun _ _ => trivial, fun holds reached => .inr (found holds reached),
      by simp, ?_⟩
    rintro _ ⟨⟩
    exact ⟨current, known, fun s holds => ⟨(steady s).1, fun kind c reached =>
      (steady s).2 c (holds kind c reached), fun _ _ => trivial⟩⟩

theorem fresh_empty (generation : Option Nat) (c : Cid) : ¬ Fresh generation ∅ c := by
  rintro ⟨p, found, -⟩
  rw [Finmap.lookup_empty] at found
  cases found

theorem proved_empty : Proved ipld ∅ := by
  intro c p found
  rw [Finmap.lookup_empty] at found
  cases found

theorem Represents.reopen_iff (represents : Represents ipld params (Present present) w m)
    (reliable : Reliable ipld cfg present) (quiet : Quiet cfg present) :
    (∃ found after, reopen ipld cfg w.cur.root (newHead (w.shared, ∅) params) = (.ok found, after)) ↔
      (∀ s, m.coverage = some s → openWindow params s - params.base ≤ maxEnumerationOutputs) ∧
        RawBlobs m.rows ∧ ∀ root, w.cur.root = some root →
          BytesWithin ipld (fun c => ∃ kind, Reaches ipld root kind c) maxEnumerationDecodedBytes := by
  rw [represents.root]
  obtain ⟨generation, shelf⟩ := reliable.shelf quiet (cidOf ipld (rootNode ipld params m))
  have spec := shelf.reopen_spec (w := newHead (w.shared, ∅) params) proved_empty
    (fun _ _ _ _ => trivial) (fun kind c reached => represents.reaches_held represents.root reached) rfl
  have all : ∀ limit, BytesWithin ipld
      (Unread ipld (cidOf ipld (rootNode ipld params m)) generation ∅) limit ↔
      BytesWithin ipld (fun c => ∃ kind, Reaches ipld (cidOf ipld (rootNode ipld params m)) kind c)
        limit := by
    intro limit
    exact ⟨fun within => within.mono fun c reached => ⟨reached, fresh_empty _ _⟩,
      fun within => within.mono fun c unread => unread.1⟩
  constructor
  · rintro ⟨found, after, ran⟩
    obtain ⟨h, es, isHead, -, accepted⟩ := post_ok spec ran
    obtain rfl := isHead.unique represents.isHead
    obtain ⟨few, raws⟩ := represents.admissible_iff.mp ⟨es, accepted.admissible⟩
    refine ⟨few, raws, ?_⟩
    rintro _ ⟨⟩
    exact (all _).mp accepted.bytes
  · rintro ⟨few, raws, bytes⟩
    obtain ⟨es, admissible⟩ := represents.admissible_iff.mpr ⟨few, raws⟩
    obtain ⟨found, after, ran, -⟩ := post_returns spec fun e raised =>
      raised _ es represents.isHead represents.usableHead admissible ((all _).mpr (bytes _ rfl))
    exact ⟨found, after, ran⟩

theorem Agrees.rawBlobs_iff (agrees : Agrees m f) (valid : m.Valid params) :
    RawBlobs m.rows ↔ ∀ slot, ∀ e ∈ f.entries slot, ∃ c, e.blob = some c ∧ HasPrefix raw c := by
  constructor
  · intro raws slot e member
    rw [agrees.entries] at member
    cases found : m.rows.find? fun r => r.slot = slot with
    | none => simp [found] at member
    | some r =>
      rw [found] at member
      exact raws r (List.mem_of_find?_eq_some found) e member
  · intro raws r member e inside
    refine raws r.slot e ?_
    rw [agrees.entries, valid.find_row member]
    exact inside

/-- A writer's root can be reopened and enumerated exactly when its sealed windows
are within the output budget, its blob links are raw, and its index blocks are
within the byte budget. -/
theorem run_reopen_iff (reliable : Reliable ipld cfg present) (quiet : Quiet cfg present)
    (run : Run ipld cfg present params w f) :
    (∃ found after, reopen ipld cfg w.cur.root (newHead (w.shared, ∅) params) = (.ok found, after)) ↔
      (∀ s, f.synced = some s →
          ord (s + 1) params.segBits - ord params.originSlot params.segBits ≤
            maxEnumerationOutputs) ∧
        (∀ slot, ∀ e ∈ f.entries slot, ∃ c, e.blob = some c ∧ HasPrefix raw c) ∧
        ∀ root, w.cur.root = some root →
          BytesWithin ipld (fun c => ∃ kind, Reaches ipld root kind c) maxEnumerationDecodedBytes := by
  obtain ⟨m, represents, agrees⟩ := run.represents reliable.toDurable
  rw [represents.reopen_iff reliable quiet, agrees.rawBlobs_iff represents.valid, agrees.synced]
  rfl

theorem sampleConfig_quiet : Quiet sampleConfig (InMemory DagCbor.codec) := by
  rintro current ⟨⟩

theorem run_reopen_iff_sample : ∃ w,
    Run DagCbor.codec sampleConfig (InMemory DagCbor.codec) sampleParams w sampleFlat ∧
      ((∃ found after, reopen DagCbor.codec sampleConfig w.cur.root
          (newHead (w.shared, ∅) sampleParams) = (.ok found, after)) ↔
        (∀ s, sampleFlat.synced = some s → ord (s + 1) 1 - ord 5 1 ≤ maxEnumerationOutputs) ∧
          (∀ slot, ∀ e ∈ sampleFlat.entries slot, ∃ c, e.blob = some c ∧ HasPrefix raw c) ∧
          ∀ root, w.cur.root = some root → BytesWithin DagCbor.codec
            (fun c => ∃ kind, Reaches DagCbor.codec root kind c) maxEnumerationDecodedBytes) := by
  exact ⟨_, sampleApplied_run, run_reopen_iff (memory_reliable DagCbor.codec sampleBlob)
    sampleConfig_quiet sampleApplied_run⟩

def wideParams : Params :=
  { name := "all", net := "mainnet", originSlot := 0, segBits := 0, fanoutBits := 1 }

/-- One empty batch that covers `2 ^ 20 + 1` slots publishes a root that is refused. -/
theorem published_not_reopened : ∃ made applied,
    new DagCbor.codec sampleConfig wideParams (newHead [] wideParams) = (.ok (), made) ∧
      (Call.applyRefs [] 1048576).perform DagCbor.codec sampleConfig made = (.ok (), applied) ∧
      ∀ found after, reopen DagCbor.codec sampleConfig applied.cur.root
        (newHead (applied.shared, ∅) wideParams) ≠ (.ok found, after) := by
  have usable : wideParams.Usable := ⟨by decide, by decide, by decide, by decide, by decide⟩
  obtain ⟨made, created, empty⟩ := memory_new sampleBlob usable (by decide) []
  have shaped : Shaped wideParams.originSlot 1048576 [] :=
    ⟨by decide, by decide, by decide, by decide, by decide, by decide⟩
  have stored : ∀ r ∈ ([] : List RefRow), ∀ vh ∈ r.vhs, sampleBlob vh ∈ made.shared := by simp
  obtain ⟨r, applied, ran, represents⟩ := memory_applyRefs empty shaped
    (fun s covered => by cases covered) stored (by decide) (by decide) (by decide)
    (fun win => Nat.le_trans (size_segOf_le (by simp [blobRows]) win) (by decide))
  refine ⟨made, applied, created, ?_, fun found after reopened => ?_⟩
  · rw [Call.perform, bind_ok_iff]
    exact ⟨r, applied, ran, rfl⟩
  · obtain ⟨few, -⟩ := (represents.reopen_iff (memory_reliable DagCbor.codec sampleBlob)
      sampleConfig_quiet).mp ⟨found, after, reopened⟩
    exact absurd (few 1048576 rfl) (by decide)

end Writer

end Bloar.Archive
