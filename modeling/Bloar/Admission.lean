import Bloar.DirWalk

/-!
What a walk over a whole head decides. `Formed` says of a Head block that the
index behind it has the one shape its coverage allows, without regard to how any
block is encoded. A walk accepts exactly the heads that are formed, are readable,
and whose blocks without a current proof fit the byte budget; it then lists the
sealed segments in window order and every page once.
-/

namespace Bloar.Archive
open Ipld Schema Arith Fallible RadixList

variable {σ : Type}

/-! ### Well-formed heads -/

def paramsOf (h : Schema.Head) : Params :=
  { name := h.name, net := h.net, originSlot := h.originSlot, segBits := h.segBits
    fanoutBits := h.fanoutBits }

/-- The index of a covered Head has an open segment and the given directory
entries, each in its window. -/
structure Formed (ipld : Codec) (h : Schema.Head) (opened : Cid) (es : List Link) : Prop where
  openCid : h.openCid = some opened
  segment : ∃ sg, SegmentAt ipld (paramsOf h) opened (ord (h.syncedTo.getD 0 + 1) h.segBits)
    (h.syncedTo.getD 0) true sg
  total : ord h.originSlot h.segBits + es.length = ord (h.syncedTo.getD 0 + 1) h.segBits
  sealed : SealedAt ipld (paramsOf h) (ord h.originSlot h.segBits) es
  dir : ∀ level, h.dirDepth = level + 1 →
    ∃ c, h.dir = some c ∧ PageAt ipld (2 ^ h.fanoutBits) level c es

noncomputable def headPages (ipld : Codec) (h : Schema.Head) : List Cid :=
  match h.dirDepth, h.dir with
  | level + 1, some c => pagesUnder ipld level c
  | _, _ => []

theorem headPages_eq {ipld : Codec} {h : Schema.Head} {level : Nat} {c : Cid}
    (depth : h.dirDepth = level + 1) (dir : h.dir = some c) :
    headPages ipld h = pagesUnder ipld level c := by
  simp [headPages, depth, dir]

theorem headPages_zero {ipld : Codec} {h : Schema.Head} (depth : h.dirDepth = 0) :
    headPages ipld h = [] := by
  simp [headPages, depth]

inductive StandsAt (ipld : Codec) (root : Cid) (h : Schema.Head) (opened : Cid) (es : List Link) :
    Kind → Cid → Prop where
  | head : StandsAt ipld root h opened es .head root
  | opened : StandsAt ipld root h opened es .segment opened
  | sealed {c : Cid} (member : some c ∈ es) : StandsAt ipld root h opened es .segment c
  | page {level : Nat} {c : Cid} {below : List Link}
      (page : PageAt ipld (2 ^ h.fanoutBits) level c below)
      (within : ∀ link, some link ∈ below → some link ∈ es)
      (under : ∀ p ∈ pagesUnder ipld level c, p ∈ headPages ipld h) :
      StandsAt ipld root h opened es (.page (level + 1)) c

section Formed
variable {ipld : Codec} {root : Cid} {h : Schema.Head} {opened : Cid} {es : List Link}

theorem KidsAt.kid {P : Cid → List Link → Prop} {cap : Nat} {kids entries : List Link}
    (positive : 0 < cap) (laid : KidsAt P cap kids entries) {c : Cid} (member : some c ∈ kids) :
    ∃ j, P c (chunk cap j entries) := by
  obtain ⟨j, at_j⟩ := List.getElem?_of_mem member
  have bound := (List.getElem?_eq_some_iff.mp at_j).1
  rw [laid.length positive, lt_chunkCount_iff positive] at bound
  obtain ⟨d, kid, page⟩ := laid.getElem bound
  rw [kid] at at_j
  cases at_j
  exact ⟨j, page⟩

theorem StandsAt.step {kind kind' : Kind} {block : Block} {c : Cid}
    (formed : Formed ipld h opened es) (isHead : IsHead ipld root h)
    (stands : StandsAt ipld root h opened es kind (ipld.nodeCID block))
    (links : LinksTo ipld block kind kind' c) : StandsAt ipld root h opened es kind' c := by
  have positive : 0 < 2 ^ h.fanoutBits := Nat.two_pow_pos _
  have sameHead : ∀ {other}, ipld.nodeCID block = root → decodeHead ipld block = .ok other →
      other = h := by
    intro other same decoded
    obtain ⟨headBlock, named, -, described⟩ := isHead
    rw [ipld.nodeCID_injective (same.trans named), described] at decoded
    exact (Except.ok.inj decoded).symm
  have samePage : ∀ {page other}, IsPage ipld (ipld.nodeCID block) page →
      decodeDirNode ipld block = .ok other → other = page := by
    rintro page other ⟨pageBlock, named, -, described⟩ decoded
    rw [ipld.nodeCID_injective named, described] at decoded
    exact (Except.ok.inj decoded).symm
  generalize at_block : ipld.nodeCID block = b at stands
  cases links with
  | opened decoded link =>
    cases stands
    rw [sameHead at_block decoded, formed.openCid] at link
    cases link
    exact .opened
  | @dir other _ decoded link =>
    cases stands
    have same := sameHead at_block decoded
    subst same
    obtain ⟨headBlock, -, -, described⟩ := isHead
    have encodable := decodeHead_encodable described
    cases depth : other.dirDepth with
    | zero =>
      rw [encodable.dir_iff.mp depth] at link
      cases link
    | succ level =>
      obtain ⟨d, dir, page⟩ := formed.dir level depth
      rw [dir] at link
      cases link
      refine .page page (fun _ member => member) fun p below => ?_
      rwa [headPages_eq depth dir]
  | child decoded kid =>
    rcases stands with _ | _ | _ | ⟨⟨page, isPage, kids⟩, within, under⟩
    subst at_block
    obtain rfl := samePage isPage decoded
    obtain ⟨j, laid⟩ := kids.kid (Nat.pow_pos positive) kid
    exact .page laid (fun link member => within link (mem_of_mem_chunk member))
      fun p below => under p (pagesUnder_kid isPage kid p below)
  | leaf decoded kid =>
    rcases stands with _ | _ | _ | ⟨⟨_, isPage⟩, within, _⟩
    subst at_block
    rw [samePage isPage decoded] at kid
    exact .sealed (within c (trimTrailingNulls_mem.mp kid))

theorem Formed.stands {kind : Kind} {c : Cid} (formed : Formed ipld h opened es)
    (isHead : IsHead ipld root h) (reaches : Reaches ipld root kind c) :
    StandsAt ipld root h opened es kind c := by
  induction reaches with
  | root => exact .head
  | step _ links ih => exact StandsAt.step formed isHead ih links

end Formed

/-! ### The walk of a head -/

variable (t : Tour σ)

section Walk
variable {t : Tour σ} {s : Walking σ}

structure Tour.Finished (t : Tour σ) (opened : Cid) (es : List Link) (s : Walking σ) : Prop where
  walked : t.Walked t.sealedCount s
  formed : Formed t.ipld t.head opened es
  out : s.walker.out = { (startWalker t.world.cur t.openOrd t.generation t.generationKnown).out with
    dirPages := firstVisits [] (headPages t.ipld t.head)
    sealed := sealedFrom t.params.segBits t.base es }
  noted : opened ∈ s.walker.segments ∧ ∀ c, some c ∈ es → c ∈ s.walker.segments

theorem Tour.params_eq_paramsOf : t.params = paramsOf t.head := t.params_eq

theorem Tour.base_eq : t.base = ord t.head.originSlot t.head.segBits := by
  rw [Tour.base, t.loaded]
  rfl

theorem Tour.radix_eq : t.radix = 2 ^ t.head.fanoutBits := by
  rw [Tour.radix, t.params_eq]

theorem Tour.openOrd_eq_ord :
    t.openOrd = ord (t.head.syncedTo.getD 0 + 1) t.head.segBits := t.openOrd_eq

theorem Tour.Walked.walkTop_spec (walked : t.Walked 0 s) (fresh : s.walker.dirActive = ∅)
    (unpaid : s.walker.budget.paths = 0) :
    Post (match t.head.dirDepth with
        | 0 => pure ()
        | level + 1 => do
            let _ ← walkDir t.ipld t.cfg level t.head.dir 0 t.sealedCount : Walk σ Unit) s
      (fun _ s' => ∃ es : List Link, es.length = t.sealedCount ∧
        (∀ level, t.head.dirDepth = level + 1 →
          ∃ c, t.head.dir = some c ∧ PageAt t.ipld t.radix level c es) ∧
        t.Covers 0 es (headPages t.ipld t.head)
          (pathsUpTo t.radix t.sealedCount t.head.dirDepth) s s')
      (fun _ => ∀ opened es, Formed t.ipld t.head opened es → t.Fails) := by
  have depth := t.depth
  obtain ⟨rootBlock, rootNamed, -, described⟩ := t.isHead
  cases deep : t.head.dirDepth with
  | zero =>
    rw [deep] at depth
    have none := depth.zero_iff.mp rfl
    rw [headPages_zero deep]
    refine post_pure ⟨[], by simp [none], by simp, ?_⟩
    rw [pathsUpTo]
    exact .nil walked
  | succ level =>
    rw [deep] at depth
    have some_entry : 0 < t.sealedCount := by
      have filled := depth.zero_iff
      omega
    have fits : t.sealedCount ≤ t.radix ^ (level + 1) := by
      rw [t.radix_eq, ← Nat.pow_mul]
      exact depth.holds
    have room : s.walker.budget.paths + pathsOf t.radix level t.sealedCount ≤
        maxEnumerationPaths := by
      rw [unpaid, Nat.zero_add, t.radix_eq]
      exact t.paths_le level deep
    have reached : ∀ c, t.head.dir = some c → Reaches t.ipld t.root (.page (level + 1)) c := by
      intro c dir
      have start : Reaches t.ipld t.root .head (t.ipld.nodeCID rootBlock) := rootNamed ▸ .root
      exact deep ▸ start.step (.dir described dir)
    refine post_then (post_raised (t.walkDir_spec level t.head.dir 0 t.sealedCount s walked reached
      some_entry fits (by omega) room) ?_) ?_
    · intro e raised opened es formed
      obtain ⟨c, dir, page⟩ := formed.dir level deep
      have total := formed.total
      have base := t.base_add
      rw [← t.openOrd_eq_ord, ← t.base_eq] at total
      refine raised c es dir ⟨t.radix_eq ▸ page, ?_⟩ (by omega) ?_
      · rw [t.params_eq_paramsOf, t.base_eq]
        exact formed.sealed
      · intro a member
        rw [fresh] at member
        simp at member
    · rintro summary s' ⟨c, dir, es, length, page, -, -, covers⟩
      refine post_pure ⟨es, length, fun other same => ?_, ?_⟩
      · obtain rfl : level = other := by omega
        exact ⟨c, dir, page⟩
      · rw [headPages_eq deep dir]
        exact covers

structure Tour.Begun (t : Tour σ) (s : Walking σ) : Prop where
  walked : t.Walked 0 s
  out : s.walker.out = (startWalker t.world.cur t.openOrd t.generation t.generationKnown).out
  active : s.walker.dirActive = ∅
  segments : s.walker.segments = ∅
  paths : s.walker.budget.paths = 0

theorem Tour.Begun.walkHead_spec (begun : t.Begun s) :
    Post (walkHead t.ipld t.cfg t.openOrd t.sealedCount) s
      (fun _ s' => ∃ opened es, t.Finished opened es s')
      (fun _ => ∀ opened es, Formed t.ipld t.head opened es → t.Fails) := by
  have walked := begun.walked
  obtain ⟨rootBlock, rootNamed, -, described⟩ := t.isHead
  refine post_get_bind ?_
  rw [show s.walker.st = State.ofHead t.head (some t.root) by rw [walked.st, t.loaded]]
  refine post_then (P := fun _ s' => (∃ opened sg, t.head.openCid = some opened ∧
    SegmentAt t.ipld t.params opened t.openOrd (t.head.syncedTo.getD 0) true sg ∧
    opened ∈ s'.walker.segments) ∧ t.Walked 0 s' ∧ Tour.Beside s s') ?_ ?_
  · refine post_mapError (E := fun _ => ∀ opened es, Formed t.ipld t.head opened es → t.Fails) ?_
      fun _ raised => raised
    change Post (validateSegment t.ipld t.cfg t.head.openCid t.openOrd (t.head.syncedTo.getD 0) true)
      s _ _
    cases openCid : t.head.openCid with
    | none =>
      rw [validateSegment]
      refine post_ofExcept (E := fun _ => ∀ opened es, Formed t.ipld t.head opened es → t.Fails)
        (fun _ passed => ?_) ?_
      · simp [validateIndexCID] at passed
      · intro e refused opened es formed
        have defined := formed.openCid
        rw [openCid] at defined
        cases defined
    | some opened =>
      have reached : Reaches t.ipld t.root .segment opened := by
        have start : Reaches t.ipld t.root .head (t.ipld.nodeCID rootBlock) := rootNamed ▸ .root
        exact start.step (.opened described openCid)
      refine post_mono (walked.validateSegment_spec 0 reached ?_ (Nat.le_refl _) (Nat.le_refl _)
        (Nat.zero_le _) ?_ (.inl rfl)) ?_ ?_
      · intro d win found
        rw [begun.segments, Finmap.lookup_empty] at found
        cases found
      · simp [begun.segments]
      · rintro _ s' ⟨⟨sg, placed⟩, later, beside, noted⟩
        exact ⟨⟨opened, sg, rfl, placed, noted⟩, later, beside⟩
      · intro e raised other es formed
        have same := formed.openCid
        rw [openCid] at same
        cases same
        obtain ⟨sg, placed⟩ := formed.segment
        rw [← t.openOrd_eq_ord, ← t.params_eq_paramsOf] at placed
        exact raised sg placed
  rintro _ s₁ ⟨⟨opened, sg, openCid, placed, noted⟩, walked₁, beside⟩
  refine post_then (walked₁.walkTop_spec (beside.active.trans begun.active)
    (beside.paths.trans begun.paths)) ?_
  rintro _ s₂ ⟨es, length, pages, covers⟩
  refine post_get_bind (post_guard (fun _ => ?_) fun wrong => ?_)
  · have last : 0 + es.length = t.sealedCount := by omega
    refine ⟨opened, es, last ▸ covers.walked, ⟨openCid, ⟨sg, ?_⟩, ?_, ?_, ?_⟩, ?_,
      covers.kept opened noted, covers.noted⟩
    · rw [← t.openOrd_eq_ord, ← t.params_eq_paramsOf]
      exact placed
    · rw [length, ← t.base_eq, ← t.openOrd_eq_ord, t.base_add]
    · have sealed := covers.sealed
      rwa [Nat.add_zero, t.params_eq_paramsOf, t.base_eq] at sealed
    · rw [← t.radix_eq]
      exact pages
    · rw [covers.out, beside.out, begun.out]
      rfl
  · -- The pages a walk counts are those of the canonical directory.
    have few := t.sealed_le
    have outputs : maxEnumerationOutputs = 1048576 := rfl
    have expected := canonicalDirectoryPages_eq t.depth t.fanout_pos (by omega)
    have counted := covers.paths
    rw [beside.paths, begun.paths, Nat.zero_add, t.radix_eq, ← expected] at counted
    exact absurd counted (of_decide_eq_false wrong)

theorem Tour.root_stale : t.fault ∨ ¬ t.fresh t.root := by
  by_cases fresh : t.fresh t.root
  · exact (t.fresh_segment fresh).imp id fun ⟨_, segment⟩ => (t.isHead.not_segment segment).elim
  · exact .inr fresh

def Tour.start (t : Tour σ) : Walking σ :=
  { world := t.world
    walker := startWalker t.world.cur t.openOrd t.generation t.generationKnown }

theorem Tour.start_charged : t.Charged t.start.walker.budget :=
  ⟨⟨∅, by simp, rfl, by simp, by simp [Tour.start, startWalker]⟩, Nat.zero_le _⟩

theorem Tour.begun {data : Block} (read : t.ReadTo t.root t.start data s) : t.Begun s := by
  have stale := t.root_stale
  have charged := t.start_charged.read_more read.named read.new stale read.within
  obtain ⟨world, walker⟩ := s
  obtain rfl : walker = _ := read.walker
  refine ⟨?_, rfl, rfl, rfl, rfl⟩
  constructor
  case world => exact read.world
  case inv => exact read.inv
  case st => rfl
  case generation => rfl
  case generationKnown => rfl
  case offset_le => exact Nat.zero_le _
  case counted => simp [Tour.start, startWalker, Finmap.notMem_empty]
  case index =>
    intro c member
    obtain rfl : c = t.root := by simpa [Tour.start, startWalker] using member
    exact ⟨read.seen, .head, .root⟩
  case charged => exact charged
  case pages_le => exact Nat.zero_le _
  case paths_le => exact Nat.zero_le _
  case segments_le => simp [Tour.start, startWalker]
  case outputs => rfl
  case outputs_le => exact Nat.le_refl _
  all_goals simp [Tour.start, startWalker, Finmap.notMem_empty]

theorem Tour.walk_spec :
    Post (do
        let _ ← readNode t.ipld t.cfg t.root "Head"
        walkHead t.ipld t.cfg t.openOrd t.sealedCount) t.start
      (fun _ s => ∃ opened es, t.Finished opened es s)
      (fun _ => ∀ opened es, Formed t.ipld t.head opened es → t.Fails) := by
  obtain ⟨rootBlock, rootNamed, small, -⟩ := t.isHead
  have cbor : HasPrefix dagCBOR t.root := rootNamed ▸ nodeCID_hasPrefix t.ipld rootBlock
  refine post_then (post_raised (t.readNode_spec t.holds cbor t.start_charged "Head")
    ?_) fun data s read => (Tour.begun read).walkHead_spec
  intro e fault opened es _
  rcases fault rootBlock .head rootNamed small .root with failed | old | full | exceeds
  · exact .inl failed
  · simp [Tour.start, startWalker] at old
  · simp [Tour.start, startWalker, maxEnumerationUniqueNodes] at full
  · exact t.start_charged.fails (by simp [Tour.start, startWalker]) rootNamed
      (by simp [Tour.start, startWalker]) ⟨.head, .root⟩ t.root_stale exceeds

theorem Tour.Finished.unique {opened : Cid} {es : List Link} (finished : t.Finished opened es s)
    {c : Cid} (index : t.Index c) : c ∈ s.walker.budget.unique := by
  obtain ⟨kind, reached⟩ := index
  rw [finished.walked.counted c]
  cases finished.formed.stands t.isHead reached with
  | head => exact .inl rfl
  | opened => exact .inr (.inr finished.noted.1)
  | sealed member => exact .inr (.inr (finished.noted.2 c member))
  | page _ _ under =>
    refine .inr (.inl ?_)
    rw [finished.out]
    exact mem_firstVisits.mpr (.inr (under c (mem_pagesUnder_self _ _ _)))

theorem Tour.Finished.seen {opened : Cid} {es : List Link} (finished : t.Finished opened es s)
    {c : Cid} (index : t.Index c) : t.seen s.world.shared c :=
  (finished.walked.index c (finished.unique index)).1

theorem Tour.Finished.not_over {opened : Cid} {es : List Link} (finished : t.Finished opened es s) :
    ¬ t.Over := by
  obtain ⟨⟨read, sub, bytes, -, others⟩, within⟩ := finished.walked.charged
  refine not_not.mpr fun cs each => ?_
  have inside : cs ⊆ read := by
    intro c member
    by_contra unread
    exact (each c member).2 (others c (finished.unique (each c member).1) unread)
  calc ∑ c ∈ cs, sizeOf t.ipld c ≤ ∑ c ∈ read, sizeOf t.ipld c := Finset.sum_le_sum_of_subset inside
    _ ≤ maxEnumerationDecodedBytes := bytes ▸ within

end Walk

end Bloar.Archive
