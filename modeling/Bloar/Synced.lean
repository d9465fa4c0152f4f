import Bloar.Audit

/-!
The runs of a follower: what its completion stamps and its proofs stand for in every state
that it can come to, and on a small head what can go wrong.
-/

namespace Bloar.Follow
open Ipld Schema Archive Pinning Store Traversal

/-! ### Whole runs -/

section Runs
variable {ipld : Codec} {versionedHash : Block → Option VersionedHash} {start s : Follower}
variable {allowed more : Follower → Event → Prop}

theorem Reaches.mono (reached : Reaches ipld versionedHash allowed start s)
    (permits : ∀ s event, allowed s event → more s event) :
    Reaches ipld versionedHash more start s := by
  induction reached with
  | start => exact .start
  | step _ permitted step ih => exact .step ih (permits _ _ permitted) step

theorem Reaches.listed (new : start.New) (reached : Reaches ipld versionedHash allowed start s) :
    Listed ipld s := by
  induction reached with
  | start =>
    intro p running
    rw [new.pass] at running
    cases running
  | step _ _ step ih => exact ih.step step

theorem Follower.New.audit (new : start.New) : Audit ipld versionedHash start where
  binds := by simp [new.checked]
  proofs := fun c has => by simp [new.proofs, Proofs.empty, Proofs.Has] at has
  walked := fun _ c g memo => by simp [new.walked c] at memo
  fetched := fun _ name hs root known done => by simp [(new.heads name hs known).1] at done
  pass := fun _ p running => by simp [new.pass] at running

theorem Reaches.audit (new : start.New) (reached : Reaches ipld versionedHash allowed start s) :
    Audit ipld versionedHash s := by
  induction reached with
  | start => exact new.audit
  | step before _ step ih => exact ih.step step (before.listed new)

theorem Reaches.present (distinct : ipld.Distinct) (new : start.New)
    (reached : Reaches ipld versionedHash allowed start s) (bounded : s.store.begun < 2 ^ 64) :
    Present ipld s := by
  induction reached with
  | start =>
    obtain ⟨blocks, store⟩ := new.store
    exact .blank (by rw [store]; rfl) new.walked new.pass
  | step before _ step ih => exact .step distinct step (before.listed new) bounded ih

theorem Follower.New.owners (new : start.New) : Owners start where
  owned := fun c held => by simp [new.proofs, Proofs.empty] at held
  known := fun name c opened => by simp [new.proofs, Proofs.empty] at opened
  head := fun p running => by simp [new.pass] at running

theorem Reaches.owners (new : start.New)
    (reached : Reaches ipld versionedHash Follower.Promoted start s) : Owners s := by
  induction reached with
  | start => exact new.owners
  | step _ promoted step ih => exact ih.step step promoted

theorem Reaches.trans {t : Follower} (first : Reaches ipld versionedHash allowed start s)
    (second : Reaches ipld versionedHash allowed s t) :
    Reaches ipld versionedHash allowed start t := by
  induction second with
  | start => exact first
  | step _ permitted step ih => exact .step ih permitted step

end Runs

/-! ### A small head to follow -/

section Small

def smallPolicy : Policy := ⟨.window, 24000000000, 12⟩

def smallContents (synced : Nat) (rows : List RefRow) : Contents :=
  ⟨some synced, blobRows DagCbor.codec sampleBlob rows⟩

def smallRoot (synced : Nat) (rows : List RefRow) : Cid :=
  cidOf DagCbor.codec (rootNode DagCbor.codec smallParams (smallContents synced rows))

def smallSegment (rows : List RefRow) : Segment :=
  segOf 1 (blobRows DagCbor.codec sampleBlob rows) 3

def smallOpen (rows : List RefRow) : Cid :=
  segCid 1 DagCbor.codec (blobRows DagCbor.codec sampleBlob rows) 3

def laterParams : Params := { sampleParams with originSlot := 8 }

def laterRows : List RefRow := [⟨8, [sampleHash]⟩]

def smallEntry : RefEntry :=
  { vh := sampleHash, blob := some (DagCbor.codec.sum raw (sampleBlob sampleHash)) }

def smallHash : Block → Option VersionedHash := fun _ => some sampleHash

structure Opens (root seg : Cid) (sg : Segment) : Prop where
  verifies : ∃ data, DagCbor.codec.Verifies root data
  enumerates : ∃ found, Enumerates DagCbor.codec root found ∧ found.sealed = [] ∧
    found.openCid = some seg ∧
    desired smallPolicy found = .ok [⟨.root, root, false⟩, ⟨.openWindow, seg, true⟩]
  segment : IsSegment DagCbor.codec seg sg
  entries : sg.entries = [smallEntry]

theorem opens_of {params : Params} {synced : Nat} {rows : List RefRow} {sg : Segment}
    (found : ((openIn (made params synced rows) (madeRoot params synced rows)).1.toOption.map fun found =>
        (found.sealed, found.openCid, (desired smallPolicy found).toOption)) =
      some ([], some (cidOf DagCbor.codec (segmentNode sg)), some
        [⟨.root, madeRoot params synced rows, false⟩,
          ⟨.openWindow, cidOf DagCbor.codec (segmentNode sg), true⟩]))
    (decoded : (decodeSegment DagCbor.codec (DagCbor.encode (segmentNode sg))).toOption = some sg)
    (short : size (DagCbor.encode (segmentNode sg)) ≤ maxEnumerationNodeBytes)
    (entries : sg.entries = [smallEntry]) :
    Opens (madeRoot params synced rows) (cidOf DagCbor.codec (segmentNode sg)) sg where
  verifies := ⟨_, rfl⟩
  enumerates := by
    obtain ⟨e, enumerates, parts⟩ := openIn_enumerates _ found
    simp only [Prod.mk.injEq] at parts
    obtain ⟨unsealed, opened, pins⟩ := parts
    exact ⟨e, enumerates, unsealed, opened, ok_of_toOption pins⟩
  entries := entries
  segment := by
    refine ⟨_, rfl, short, ok_of_toOption decoded, fun row member e inside => ?_⟩
    have one : e ∈ sg.entries := List.mem_flatMap.mpr ⟨row, member, inside⟩
    rw [entries, List.mem_singleton] at one
    subst one
    exact ⟨_, rfl, rfl, rfl, rfl, rfl⟩

theorem small_opens :
    Opens (smallRoot 6 smallRows) (smallOpen smallRows) (smallSegment smallRows) :=
  @opens_of smallParams 6 smallRows _ (by decide +kernel) (by decide +kernel) (by decide +kernel) rfl

def laterSegment : Segment := segOf 1 (blobRows DagCbor.codec sampleBlob laterRows) 4

theorem later_opens : Opens (madeRoot laterParams 8 laterRows)
    (cidOf DagCbor.codec (segmentNode laterSegment)) laterSegment :=
  opens_of (by decide +kernel) (by decide +kernel) (by decide +kernel) rfl

theorem small_sealed : ∃ found pins, Enumerates DagCbor.codec (smallRoot 7 smallRows) found ∧
    found.sealed.map SealedSegment.cid = [smallOpen smallRows] ∧
    desired smallPolicy found = .ok pins := by
  have ran : (openIn (made smallParams 7 smallRows) (smallRoot 7 smallRows)).1.toOption.map
      (fun found => (found.sealed.map SealedSegment.cid, (desired smallPolicy found).toOption.isSome)) =
      some ([smallOpen smallRows], true) := by decide +kernel
  obtain ⟨found, enumerates, parts⟩ := openIn_enumerates _ ran
  simp only [Prod.mk.injEq] at parts
  obtain ⟨pins, made⟩ := Option.isSome_iff_exists.mp parts.2
  exact ⟨found, pins, enumerates, parts.1, ok_of_toOption made⟩

end Small

/-! ### A pass over an open window -/

section SmallRuns

def smallHead : HeadState := ⟨smallPolicy, none, none, none, none, false⟩

def smallFollower : Follower :=
  { verify := .full, store := newEpochs fun _ => none
    heads := Function.update (fun _ => none) "all" (some smallHead), registry := fun _ => none
    walked := fun _ => none, proofs := .empty, pass := none, checked := [] }

theorem smallFollower_new : smallFollower.New where
  proofs := rfl
  checked := rfl
  walked := fun _ => rfl
  pass := rfl
  heads := by
    intro name hs known
    by_cases here : name = "all"
    · subst here
      cases known
      exact ⟨rfl, rfl⟩
    · simp [smallFollower, Function.update_of_ne here] at known
  store := ⟨_, rfl⟩

abbrev SmallRun : Follower → Follower → Prop := Reaches DagCbor.codec smallHash Follower.Promoted

variable {start s t : Follower} {hs : HeadState} {proofs : Proofs} {root seg : Cid} {sg : Segment}

theorem Reaches.walk (before : SmallRun start s) (step : Step DagCbor.codec smallHash s .walk t) :
    SmallRun start t := before.step (show s.Promoted .walk from trivial) step

theorem Reaches.outside (before : SmallRun start s)
    (step : Step DagCbor.codec smallHash s .outside t) : SmallRun start t :=
  before.step (show s.Promoted .outside from trivial) step

structure Following (s : Follower) (hs : HeadState) (proofs : Proofs) : Prop where
  full : s.verify = .full
  heads : s.heads = Function.update (fun _ => none) "all" (some hs)
  policy : hs.policy = smallPolicy
  serving : hs.quarantined = false
  fetched : hs.fetched = none
  manifest : hs.manifestFetched = none
  walked : ∀ c, s.walked c = none
  proofs : s.proofs = proofs

def Follower.serve (s : Follower) (hs : HeadState) (root : Cid) : Follower :=
  { s.setHead "all" (hs.adopt root none) with
    registry := Function.update s.registry "all" (some root), pass := none }

theorem Following.adopted {proofs' : Proofs} (following : Following s hs proofs)
    (verify : t.verify = s.verify) (heads : t.heads = (s.serve hs root).heads)
    (walked : t.walked = s.walked) (same : t.proofs = proofs') :
    Following t (hs.adopt root none) proofs' where
  full := verify.trans following.full
  heads := by
    rw [heads]
    simp [Follower.serve, Follower.setHead, following.heads]
  policy := following.policy
  serving := following.serving
  fetched := by simp [HeadState.adopt, following.fetched]
  manifest := by simp [HeadState.adopt, following.manifest]
  walked := by
    rw [walked]
    exact following.walked
  proofs := same

def boundPass (root : Cid) (generation : Nat) : Pass :=
  { head := "all", root, rootStale := true, tip := none, generation, segs := [], durableSegs := []
    tasks := [], phase := .bound }

theorem Following.planned (following : Following s hs proofs) {found : Enumeration} {pins : List Pin}
    (enumerates : Enumerates DagCbor.codec root found) (made : desired smallPolicy found = .ok pins) :
    SmallRun s { s.serve hs root with
      pass := some ((boundPass root s.store.collectionGeneration).plan .full found pins) } := by
  let bound := boundPass root s.store.collectionGeneration
  have known : s.stop.heads "all" = some hs := by simp [Follower.stop, following.heads]
  have stopped : SmallRun s s.stop := Reaches.start.step (show s.Promoted .stop from trivial) .stop
  have swapped := (stopped.outside (.adopt known root none)).outside (.swap "all" (some root))
  have served : SmallRun s (s.serve hs root) := swapped
  have adopted : (s.serve hs root).heads "all" = some (hs.adopt root none) := by
    simp [Follower.serve, Follower.setHead]
  have registry : (s.serve hs root).registry "all" = some root := by simp [Follower.serve]
  have unfetched : (hs.adopt root none).fetched = none := by simp [HeadState.adopt, following.fetched]
  have snapshot : Pass.take "all" (hs.adopt root none) root =
      { bound with generation := 0, phase := .taken } := by
    simp [Pass.take, HeadState.staleTip, HeadState.adopt, following.fetched, following.manifest, bound,
      boundPass]
  have taken := served.walk (.take rfl adopted following.serving rfl (.inl (by simp [unfetched])))
  rw [snapshot] at taken
  have registered := taken.walk (.bind rfl rfl registry)
  rw [← following.policy] at made
  have planned := registered.walk (.plan rfl rfl rfl adopted enumerates made)
  change SmallRun s { s.serve hs root with pass := some (bound.plan s.verify found pins) } at planned
  rwa [following.full] at planned

def openPass (root seg : Cid) (generation : Nat) : Pass :=
  { boundPass root generation with segs := [seg], phase := .walking seg [] [seg] }

def Proofs.verifyOpen (p : Proofs) (seg : Cid) : Proofs :=
  { p with verifiedSegments := Function.update (p.evict "all" seg) seg (some false)
           verifiedOpen := Function.update p.verifiedOpen "all" (some seg) }

/-- The follower adopts a root with one open window and verifies its segment. -/
theorem Following.opened (following : Following s hs proofs) (opens : Opens root seg sg)
    (cold : proofs.evict "all" seg seg = none) :
    ∃ t, SmallRun s t ∧ Following t (hs.adopt root none) (proofs.verifyOpen seg) ∧
      t.store.collectionGeneration = s.store.collectionGeneration ∧ t.store.begun = s.store.begun ∧
      (s.store.active = none → t.store.active = none) ∧
      t.pass = some (openPass root seg s.store.collectionGeneration) := by
  obtain ⟨data, verifies⟩ := opens.verifies
  obtain ⟨found, enumerates, unsealed, opened, made⟩ := opens.enumerates
  obtain ⟨block, rfl, -, decoded, -⟩ := opens.segment
  let seg := DagCbor.codec.nodeCID block
  let walk : Pass := { boundPass root s.store.collectionGeneration with segs := [seg], phase := .between }
  have plan : (boundPass root s.store.collectionGeneration).plan .full found
      [⟨.root, root, false⟩, ⟨.openWindow, seg, true⟩] =
        { walk with tasks := [.ensure root, .recurse seg] } := by
    simp [Pass.plan, unsealed, opened, taskOf, walk, boundPass, seg]
  have planned := following.planned enumerates made
  rw [plan] at planned
  -- The root is fetched, and the walk of the open segment begins.
  have entered := (planned.walk (.ensure rfl rfl rfl (.inr ⟨data, verifies, rfl⟩))).walk
    (.recurse rfl rfl rfl)
  have fetched := entered.walk (.fetch rfl rfl rfl (by
    rintro (marked | memo)
    · cases marked
    · cases (following.walked seg).symm.trans memo) List.mem_cons_self ⟨rfl, .inr rfl⟩ decoded)
  rw [opens.entries] at fetched
  -- There is no proof yet, so the entry is checked and the proof is made.
  have answer : s.proofs.segmentVerified "all" seg false ⟨false, none⟩ =
      (some false, s.proofs.classify "all" seg false) := by
    simp [Proofs.segmentVerified, Proofs.classify, following.proofs, cold, seg]
  have looked := fetched.step (by simp [Follower.Promoted, walk, boundPass])
    (Step.lookup rfl rfl following.full (congrArg Prod.fst answer))
  have checked := looked.walk (.check rfl rfl following.full rfl ⟨rfl, .inr rfl⟩ rfl)
  have marked := checked.step (by exact trivial) (@Step.mark _ _ _ _ _ _ _ _ ⟨false, none⟩ rfl rfl following.full rfl)
  have kept {e : Epochs} (c : Cid) (block : Block) (idle : e.active = none) :
      (e.put c block none).2.active = none := by simp [Epochs.put, Epochs.touch, idle]
  refine ⟨_, marked, following.adopted rfl rfl rfl ?_, rfl, rfl,
    fun idle => kept _ _ (kept _ _ (kept _ _ idle)), rfl⟩
  change ((s.proofs.segmentVerified "all" seg false ⟨false, none⟩).2.markSegmentVerified "all" seg
    false ⟨false, none⟩).2 = _
  have again : (proofs.classify "all" seg false).classify "all" seg false =
      proofs.classify "all" seg false := by
    simp [Proofs.classify, Proofs.evict]
  rw [answer, following.proofs]
  simp only [Proofs.markSegmentVerified, again]
  simp [Proofs.classify, Proofs.remember, Proofs.verifyOpen, seg, cold]

theorem Following.stamped (following : Following s hs .empty) :
    ∃ t t' hs', SmallRun s t ∧ Step DagCbor.codec smallHash t (.stamp "all") t' ∧
      t.heads "all" = some (hs.adopt (smallRoot 6 smallRows) none) ∧ t'.heads "all" = some hs' ∧
      hs'.policy = smallPolicy ∧ hs'.fetched = some (smallRoot 6 smallRows) ∧ t'.verify = .full ∧
      t'.store = t.store ∧ t.store.collectionGeneration = s.store.collectionGeneration ∧
      t.store.begun = s.store.begun ∧ (s.store.active = none → t.store.active = none) ∧
      t'.walked (smallOpen smallRows) = some s.store.collectionGeneration := by
  obtain ⟨t, reached, follows, generation, begun, idle, running⟩ := following.opened small_opens rfl
  have known : t.heads "all" = some (hs.adopt (smallRoot 6 smallRows) none) := by
    simp [follows.heads]
  have drained := reached.walk (.drain running rfl)
  rw [if_pos (by exact generation)] at drained
  have committed := drained.walk (.commit rfl rfl)
  let p := openPass (smallRoot 6 smallRows) (smallOpen smallRows) s.store.collectionGeneration
  have stamped := @Step.stamp DagCbor.codec smallHash
    ((t.commit p [smallOpen smallRows]).goto p .between) { p with phase := .between } _ rfl rfl rfl
    generation known
  refine ⟨_, _, _, committed, stamped, known, Function.update_self "all" _ t.heads, follows.policy, ?_,
    follows.full, rfl, generation, begun, idle, ?_⟩
  · simp [HeadState.stamp, HeadState.adopt, p, openPass, boundPass]
  · simp [Follower.commit, Follower.goto, Follower.setHead, Follower.stop, p, openPass, boundPass]

theorem smallFollower_following : Following smallFollower smallHead .empty :=
  ⟨rfl, rfl, rfl, rfl, rfl, rfl, fun _ => rfl, rfl⟩

end SmallRuns

/-! ### Presence -/

section Stamps
variable {ipld : Codec} {versionedHash : Block → Option VersionedHash} {start s : Follower}

theorem stamp_cases {name : String} {t : Follower} {hs hs' : HeadState}
    (step : Step ipld versionedHash s (.stamp name) t) (known : s.heads name = some hs)
    (after : t.heads name = some hs') :
    ∃ p, s.pass = some p ∧ p.head = name ∧ p.phase = .between ∧ p.tasks = [] ∧
      s.store.collectionGeneration = p.generation ∧ t.store = s.store ∧ hs' = hs.stamp p := by
  cases step with
  | @stamp p old running phase finished current known' =>
    rw [known] at known'
    cases known'
    refine ⟨p, running, rfl, phase, finished, current, rfl, ?_⟩
    simpa [Follower.setHead, Follower.stop, eq_comm] using after

/-- A completion stamp is a proof of presence: what the policy retains of the stamped root
is there, and so is the chain of a stamped manifest tip; and a memo of the current
generation names a node below which nothing is missing. -/
theorem sync_proves_presence (distinct : ipld.Distinct) (new : start.New)
    (reached : Reaches ipld versionedHash (fun _ _ => True) start s)
    (bounded : s.store.begun < 2 ^ 64) :
    (∀ c, s.walked c = some s.store.collectionGeneration → ∀ d, ipld.Dag c d →
      (s.store.blocks d.hash).isSome) ∧
    ∀ name t hs hs', Step ipld versionedHash s (.stamp name) t → s.heads name = some hs →
      t.heads name = some hs' →
      (∀ root, hs'.fetched = some root → hs.fetched ≠ some root → hs'.adopted = some root ∧
        ∀ found pins, Enumerates ipld root found → desired hs'.policy found = .ok pins →
          ∀ c, Retained ipld pins c → (t.store.blocks c.hash).isSome) ∧
      ∀ tip, hs'.manifestFetched = some tip → hs.manifestFetched ≠ some tip →
        hs'.manifestTip = some tip ∧ ∀ c, ipld.Dag tip c → (t.store.blocks c.hash).isSome := by
  have present := reached.present distinct new bounded
  refine ⟨fun c memo d under => ?_, fun name t hs hs' step known after => ?_⟩
  · have whole := (present.walked c _ memo).current present.numbered bounded rfl
    exact (whole d under).present
  · obtain ⟨p, running, rfl, phase, finished, current, store, rfl⟩ := stamp_cases step known after
    have holds := (present.pass p running (by simp [phase])).current present.numbered bounded current
    have settled {task : Task} (planned : p.Planned ipld s.policies task) :=
      (holds.progress (by rw [phase]; rfl)).finished phase finished planned
    have policy : s.policies p.head = some hs.policy := by simp [Follower.policies, known]
    rw [store]
    constructor
    · intro root fetched unfetched
      obtain ⟨⟨stale, adopted⟩, rfl⟩ : (p.rootStale = true ∧ hs.adopted = some p.root) ∧
          p.root = root := by
        unfold HeadState.stamp at fetched
        dsimp only at fetched
        split at fetched
        · rename_i stamps
          exact ⟨stamps, Option.some.inj fetched⟩
        · exact absurd fetched unfetched
      refine ⟨adopted, fun found pins enumerates made c retained => ?_⟩
      obtain ⟨pin, member, covers⟩ := retained
      have done := settled (.inl ⟨stale, hs.policy, found, pins, policy, enumerates, made, pin, member,
        rfl⟩)
      obtain ⟨purpose, top, recursive⟩ := pin
      cases recursive with
      | true => exact Epochs.Safe.present (done c (covers_recursive.mp covers))
      | false =>
        obtain rfl := covers_direct.mp covers
        exact Epochs.Safe.present done
    · intro tip fetched unfetched
      obtain ⟨stale, manifest⟩ : p.tip = some tip ∧ hs.manifestTip = some tip := by
        unfold HeadState.stamp at fetched
        dsimp only at fetched
        split at fetched
        · rename_i stamps
          exact ⟨fetched, stamps.2.trans fetched⟩
        · exact absurd fetched unfetched
      refine ⟨manifest, fun c under => ?_⟩
      have done : Whole ipld.LinksTo (Held s.store) tip := settled (.inr ⟨tip, stale, rfl⟩)
      exact (done c under).present

theorem sync_proves_presence_sample : ∃ start s t hs hs', start.New ∧
    Reaches DagCbor.codec smallHash (fun _ _ => True) start s ∧
    Step DagCbor.codec smallHash s (.stamp "all") t ∧ s.heads "all" = some hs ∧
    t.heads "all" = some hs' ∧ hs'.fetched = some (smallRoot 6 smallRows) ∧
    hs'.adopted = some (smallRoot 6 smallRows) ∧
    (t.store.blocks (smallOpen smallRows).hash).isSome := by
  obtain ⟨s, t, hs', reached, stamped, known, after, policy, fetched, -, -, -, begun, -⟩ :=
    smallFollower_following.stamped
  have every : Reaches DagCbor.codec smallHash (fun _ _ => True) smallFollower s :=
    reached.mono fun _ _ _ => trivial
  have bounded : s.store.begun < 2 ^ 64 := by
    rw [begun]
    decide
  obtain ⟨-, stamps⟩ := sync_proves_presence DagCbor.codec_distinct smallFollower_new every bounded
  obtain ⟨adopted, closure⟩ := (stamps "all" t _ hs' stamped known after).1 _ fetched nofun
  obtain ⟨found, enumerates, -, -, made⟩ := small_opens.enumerates
  rw [← policy] at made
  refine ⟨smallFollower, s, t, _, hs', smallFollower_new, every, stamped, known, after, fetched,
    adopted, closure found _ enumerates made _ ?_⟩
  exact ⟨_, List.mem_cons_of_mem _ List.mem_cons_self, covers_recursive.mpr .refl⟩

/-- The generation comes back after `2 ^ 64 - 1` epochs, and with it the memo of a block
that has been collected meanwhile. -/
theorem walked_wraps : ∃ start s c, start.New ∧
    Reaches DagCbor.codec smallHash (fun _ _ => True) start s ∧
    s.walked c = some s.store.collectionGeneration ∧ s.store.blocks c.hash = none := by
  let any : Follower → Event → Prop := fun _ _ => True
  have stores (s : Follower) (ops : List Op) (tame : ∀ op ∈ ops, op.Tame) :
      Reaches DagCbor.codec smallHash any s { s with store := s.store.run ops } := by
    induction ops generalizing s with
    | nil => exact .start
    | cons op rest ih =>
      rw [List.forall_mem_cons] at tame
      exact (Reaches.start.step trivial (.store tame.1)).trans (ih { s with
        store := (op.perform s.store).2 } tame.2)
  let seg := smallOpen smallRows
  -- One epoch has come and gone before the pass.
  have first := stores smallFollower [.beginEpoch, .endEpoch 0] (by simp [Op.Tame])
  have following : Following { smallFollower with
      store := smallFollower.store.run [.beginEpoch, .endEpoch 0] } smallHead .empty :=
    ⟨rfl, rfl, rfl, rfl, rfl, rfl, fun _ => rfl, rfl⟩
  obtain ⟨t, s, -, reached, stamped, -, -, -, -, -, store, generation, started, unused, memo⟩ :=
    following.stamped
  have every : Reaches DagCbor.codec smallHash any _ t := reached.mono fun _ _ _ => trivial
  have idle : s.store.active = none := by
    rw [store]
    exact unused rfl
  have begun : s.store.begun = 1 := by
    rw [store]
    exact started
  have numbered : s.store.nextID = idOf s.store.begun := by
    rw [begun, store]
    exact generation
  -- The counter is turned to its last value, and the next epoch deletes the segment.
  obtain ⟨rounds, tame, turned⟩ := Epochs.exists_idle idle numbered (2 ^ 64 - 2)
  generalize total : s.store.begun + (2 ^ 64 - 2) = n at turned
  let last : List Op := [.beginEpoch, .deleteCandidate n seg none]
  have final : (s.store.run (rounds ++ last)).nextID = idOf (n + 1) ∧
      (s.store.run (rounds ++ last)).blocks seg.hash = none := by
    have collected := Epochs.run_collect (s := s.store.run rounds) (by rw [turned]; exact idle)
      (by rw [turned]) seg
    have at_n : (s.store.run rounds).begun = n := by rw [turned]
    rw [at_n] at collected
    rw [Epochs.run_append, collected]
    exact ⟨rfl, by simp [Epochs.erase]⟩
  have round : idOf (n + 1) = 1 := by
    rw [← total, begun]
    decide
  have reached' := stores s (rounds ++ last) (List.forall_mem_append.mpr ⟨tame, by simp [last, Op.Tame]⟩)
  refine ⟨smallFollower, _, seg, smallFollower_new,
    ((first.trans every).step trivial stamped).trans reached', ?_, final.2⟩
  have generation : (s.store.run (rounds ++ last)).collectionGeneration = 1 := final.1.trans round
  rw [generation]
  exact memo

end Stamps

/-! ### Full verification -/

section Verified
variable {ipld : Codec} {versionedHash : Block → Option VersionedHash} {start : Follower}

def Follower.InMemory (s : Follower) (c : Cid) : Prop := s.proofs.verifiedSegments c = some false

/-- At every completion stamp the entries below the recursive pins are checked, and a
durable proof is there for checked segments only. While no promotion of a proof fails to
be written, there is at most one proof per head that is in memory only. -/
theorem full_verification (distinct : ipld.Distinct) (new : start.New) :
    (∀ s, Reaches ipld versionedHash (fun _ _ => True) start s →
      (s.verify = .full → ∀ name hs root found pins pin c sg, s.heads name = some hs →
        hs.fetched = some root → Enumerates ipld root found → desired hs.policy found = .ok pins →
        pin ∈ pins → pin.recursive = true → ipld.Dag pin.cid c → IsSegment ipld c sg →
        ∀ row ∈ sg.rows, ∀ entry ∈ row.entries, Binds ipld versionedHash entry) ∧
      ∀ c, s.proofs.markers c = true → ∃ sg, IsSegment ipld c sg ∧
        ∀ row ∈ sg.rows, ∀ entry ∈ row.entries,
          entry ∈ s.checked ∧ Binds ipld versionedHash entry) ∧
    ∀ s, Reaches ipld versionedHash Follower.Promoted start s → ∃ owner : Cid → String,
      (∀ c, s.InMemory c → (s.heads (owner c)).isSome) ∧ Set.InjOn owner {c | s.InMemory c} := by
  refine ⟨fun s reached => ⟨fun full name hs root found pins pin c sg known done enumerates made
    member recursive under segment row inRow entry inside => ?_, fun c marked => ?_⟩,
    fun s reached => ?_⟩
  · have audit := reached.audit new
    have checks := audit.fetched full name hs root known done found pins enumerates made pin member
      recursive
    apply audit.binds entry
    exact checks.entries distinct under segment entry (List.mem_flatMap.mpr ⟨row, inRow, inside⟩)
  · have audit := reached.audit new
    obtain ⟨sg, segment, checked⟩ := audit.proofs c (.inr marked)
    refine ⟨sg, segment, fun row inRow entry inside => ?_⟩
    have listed := checked entry (List.mem_flatMap.mpr ⟨row, inRow, inside⟩)
    exact ⟨listed, audit.binds entry listed⟩
  · have owners := reached.owners new
    choose! owner owns using owners.owned
    refine ⟨owner, fun c held => owners.known _ c (owns c held), fun c held d held' same => ?_⟩
    have at_c := owns c held
    rw [same, owns d held'] at at_c
    exact (Option.some.inj at_c).symm

end Verified

theorem full_verification_sample : ∃ start s hs owner, start.New ∧
    Reaches DagCbor.codec smallHash Follower.Promoted start s ∧ s.verify = .full ∧
    s.heads "all" = some hs ∧ hs.fetched = some (smallRoot 6 smallRows) ∧
    (∀ row ∈ (smallSegment smallRows).rows, ∀ entry ∈ row.entries,
      Binds DagCbor.codec smallHash entry) ∧
    (∀ c, s.InMemory c → (s.heads (owner c)).isSome) ∧ Set.InjOn owner {c | s.InMemory c} := by
  obtain ⟨t, s, hs, before, stamped, -, known, policy, fetched, full, -⟩ :=
    smallFollower_following.stamped
  have reached := before.step (show t.Promoted (.stamp "all") from trivial) stamped
  obtain ⟨found, enumerates, -, -, made⟩ := small_opens.enumerates
  rw [← policy] at made
  obtain ⟨complete, owners⟩ := @full_verification DagCbor.codec smallHash smallFollower
    DagCbor.codec_distinct smallFollower_new
  obtain ⟨owner, owns⟩ := owners s reached
  refine ⟨smallFollower, s, hs, owner, smallFollower_new, reached, full, known, fetched, ?_, owns⟩
  exact (complete s (reached.mono fun _ _ _ => trivial)).1 full "all" hs _ found _ _ _ _ known
    fetched enumerates made (List.mem_cons_of_mem _ List.mem_cons_self) rfl .refl small_opens.segment

/-- A promotion that fails leaves a proof in memory that no head owns any more; with the
next open segment there are two of them for one head. -/
theorem full_verification_leaks : ∃ start s first second, start.New ∧
    Reaches DagCbor.codec smallHash (fun _ _ => True) start s ∧
    first ≠ second ∧ s.InMemory first ∧ s.InMemory second ∧
    (∀ name, (s.heads name).isSome → name = "all") ∧
    ¬ ∃ owner : Cid → String, (∀ c, s.InMemory c → (s.heads (owner c)).isSome) ∧
      Set.InjOn owner {c | s.InMemory c} := by
  obtain ⟨s₁, reached₁, following₁, -⟩ := smallFollower_following.opened small_opens rfl
  obtain ⟨found, pins, enumerates, seals, made⟩ := small_sealed
  have planned := reached₁.trans (following₁.planned enumerates made)
  obtain ⟨x, split, same⟩ : ∃ x, found.sealed = [x] ∧ x.cid = smallOpen smallRows := by
    simpa [List.map_eq_singleton_iff] using seals
  have next : ((boundPass (smallRoot 7 smallRows) s₁.store.collectionGeneration).plan .full found
      pins).tasks = .classify (smallOpen smallRows) :: pins.map taskOf := by
    simp [Pass.plan, split, same, boundPass]
  -- The marker of the proof is not written.
  let lost : Proofs := { Proofs.empty.verifyOpen (smallOpen smallRows) with
    verifiedOpen := Function.update Proofs.empty.verifiedOpen "all" none }
  have fails : s₁.proofs.segmentVerified "all" (smallOpen smallRows) true ⟨false, some false⟩ =
      (none, lost) := by
    rw [following₁.proofs]
    simp [Proofs.segmentVerified, Proofs.classify, Proofs.verifyOpen, Proofs.record, lost]
  obtain ⟨s₂, reached₂, following₂⟩ : ∃ s₂,
      Reaches DagCbor.codec smallHash (fun _ _ => True) smallFollower s₂ ∧
        Following s₂ ((smallHead.adopt (smallRoot 6 smallRows) none).adopt (smallRoot 7 smallRows) none)
          lost :=
    ⟨_, (planned.mono fun _ _ _ => trivial).step trivial
      (.unclassified rfl rfl next (congrArg Prod.fst fails)),
      following₁.adopted rfl rfl rfl (congrArg Prod.snd fails)⟩
  have other : smallOpen smallRows ≠ cidOf DagCbor.codec (segmentNode laterSegment) := by decide +kernel
  obtain ⟨s₃, reached₃, following₃, -⟩ := following₂.opened later_opens
    (by simp [lost, Proofs.evict, Proofs.verifyOpen, other.symm, Proofs.empty])
  have first : s₃.InMemory (smallOpen smallRows) := by
    simp [Follower.InMemory, following₃.proofs, lost, Proofs.verifyOpen, Proofs.evict, other]
  have second : s₃.InMemory (cidOf DagCbor.codec (segmentNode laterSegment)) := by
    simp [Follower.InMemory, following₃.proofs, Proofs.verifyOpen]
  have alone : ∀ name, (s₃.heads name).isSome → name = "all" := by
    intro name known
    by_contra other
    simp [following₃.heads, Function.update_of_ne other] at known
  refine ⟨smallFollower, s₃, _, _, smallFollower_new, reached₂.trans (reached₃.mono fun _ _ _ => trivial),
    other, first, second, alone, ?_⟩
  rintro ⟨owner, owns, injective⟩
  apply other
  apply injective first second
  rw [alone _ (owns _ first), alone _ (owns _ second)]

end Bloar.Follow
