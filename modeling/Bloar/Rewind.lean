import Bloar.MirrorSpec
import Bloar.ChainSpec

/-!
Truncation next to running indexers. A pass knows nothing of a rewind: a batch that was
scanned from where the head ended before it lands past the new end, and covers what it never
visited. While no pass is under way a rewind is safe, and every slot that is covered again
holds what a later scan of that slot saw.
-/

namespace Bloar.Beacon
open Ipld Schema Archive Indexing Loops

variable {Root Commitment Blob : Type} {kzg : Kzg Commitment Blob}

/-! ### What an anchored scan saw -/

section Anchored

variable [DecidableEq Root] {cfg : Config Root} {reads : Reads Root Commitment Blob}
variable {results : List (AnchoredResult Root Blob)} {next : Nat} {t t' : Tally Root Blob}

def AnchoredSlot.vhs : AnchoredSlot Root Blob → List VersionedHash
  | .missed => []
  | .present _ vhs _ => vhs

theorem reassembleFrom_rows (below : ∀ r ∈ t.order, r.slot < next)
    (early : ∀ l, t.lastPresent = some l → l < next)
    (ran : reassembleFrom next results t = .ok (some t')) :
    (∀ slot < next, rowAt t'.order slot = rowAt t.order slot) ∧
      (∀ k < results.length, ∃ a, results[k]? = some (.resolved a) ∧
        rowAt t'.order (next + k) = a.vhs) ∧
      ∀ l, t'.lastPresent = some l → l < next + results.length := by
  induction results generalizing next t with
  | nil =>
    cases ran
    exact ⟨fun _ _ => rfl, fun k lt => absurd lt (Nat.not_lt_zero k), early⟩
  | cons r rest ih =>
    cases r with
    | notRun | failed => cases ran
    | resolved a =>
      -- the tally after this slot, and the row that it has there
      obtain ⟨t₁, below₁, early₁, kept, here, later⟩ : ∃ t₁ : Tally Root Blob,
          (∀ r ∈ t₁.order, r.slot < next + 1) ∧
          (∀ l, t₁.lastPresent = some l → l < next + 1) ∧
          (∀ slot < next, rowAt t₁.order slot = rowAt t.order slot) ∧
          rowAt t₁.order next = a.vhs ∧
          reassembleFrom (next + 1) rest t₁ = .ok (some t') := by
        cases a with
        | missed =>
          refine ⟨t, fun r member => Nat.lt_succ_of_lt (below r member),
            fun l isLast => Nat.lt_succ_of_lt (early l isLast), fun _ _ => rfl, ?_, ran⟩
          exact rowAt_of_below below
        | present header vhs blobs =>
          simp only [reassembleFrom] at ran
          split at ran
          · cases ran
          split at ran
          · cases ran
          refine ⟨_, ?_, ?_, ?_, ?_, ran⟩
          · intro r member
            split at member
            · exact Nat.lt_succ_of_lt (below r member)
            · rcases List.mem_append.mp member with old | new
              · exact Nat.lt_succ_of_lt (below r old)
              · rw [List.mem_singleton.mp new]
                exact Nat.lt_succ_self next
          · rintro l ⟨⟩
            exact Nat.lt_succ_self next
          · intro slot lt
            dsimp only
            split
            · rfl
            · exact rowAt_append_of_ne (Nat.ne_of_gt lt)
          · dsimp only [AnchoredSlot.vhs]
            split
            · rename_i empty
              exact (rowAt_of_below below).trans empty.symm
            · exact rowAt_append_self (r := ⟨next, vhs⟩) below
      obtain ⟨earlier, rows, bound⟩ := ih below₁ early₁ later
      refine ⟨fun slot lt => ?_, fun k lt => ?_, fun l isLast => ?_⟩
      · rw [earlier slot (Nat.lt_succ_of_lt lt), kept slot lt]
      · cases k with
        | zero => exact ⟨a, rfl, (earlier next (Nat.lt_succ_self next)).trans here⟩
        | succ k =>
          obtain ⟨b, found, row⟩ := rows k (Nat.lt_of_succ_lt_succ lt)
          refine ⟨b, found, ?_⟩
          rw [← row]
          congr 1
          omega
      · have := bound l isLast
        rw [List.length_cons]
        omega

variable {seen : Nat → List VersionedHash → Prop} {p : Plan Root} {f : Fetched Root Blob}

def Resolved (kzg : Kzg Commitment Blob) (cfg : Config Root) (reads : Reads Root Commitment Blob)
    (slot : Nat) (vhs : List VersionedHash) : Prop :=
  ∃ a, resolveAnchoredSlot kzg cfg reads slot = .ok a ∧ vhs = a.vhs

structure Fetched.Visited (seen : Nat → List VersionedHash → Prop) (f : Fetched Root Blob) : Prop where
  short : f.last < maxUint64
  tells : ∀ last, f.reached = some last → Tells seen f.start last f.rows

variable (sees : ∀ slot vhs, Resolved kzg cfg reads slot vhs → seen slot vhs)
include sees

theorem reassembleAnchored_visited (short : p.last < maxUint64)
    (ran : reassembleAnchored p
      ((List.range' p.start (p.last + 1 - p.start)).map (resultOf kzg cfg reads)) = .ok f) :
    f.start = p.start ∧ f.Visited seen := by
  unfold reassembleAnchored at ran
  obtain ⟨outcome, folded, ran⟩ := bind_ok_iff.mp ran
  cases outcome with
  | none =>
    obtain rfl := pure_ok_iff.mp ran
    exact ⟨rfl, short, fun last none => by cases none⟩
  | some t =>
    dsimp only at ran
    split at ran
    · obtain rfl := pure_ok_iff.mp ran
      exact ⟨rfl, short, fun last none => by cases none⟩
    · rename_i l isLast
      obtain rfl := pure_ok_iff.mp ran
      refine ⟨rfl, short, ?_⟩
      rintro last ⟨⟩ slot ge le
      obtain ⟨-, rows, bound⟩ := reassembleFrom_rows (by simp) (by simp) folded
      have inside := bound l isLast
      obtain ⟨a, found, row⟩ := rows (slot - p.start) (by dsimp only at ge; omega)
      have isSlot : p.start + (slot - p.start) = slot := by dsimp only at ge; omega
      rw [isSlot] at row
      dsimp only
      rw [row]
      refine sees slot _ ⟨a, ?_, rfl⟩
      rw [List.getElem?_map] at found
      obtain ⟨n, isN, resolved⟩ := Option.map_eq_some_iff.mp found
      have same : n = slot := by
        obtain ⟨_, isN⟩ := List.getElem?_eq_some_iff.mp isN
        rw [List.getElem_range'] at isN
        omega
      subst same
      unfold resultOf at resolved
      split at resolved
      · rename_i ok
        cases resolved
        exact ok
      · cases resolved

theorem walkAnchored_visited (small : p.last ≤ maxUint64)
    (ran : walkAnchored kzg cfg reads p = .ok f) : f.start = p.start ∧ f.Visited seen := by
  unfold walkAnchored at ran
  split at ran
  · cases ran
  rename_i notMax
  have short : p.last < maxUint64 := Nat.lt_of_le_of_ne small notMax
  dsimp only at ran
  split at ran
  · refine reassembleAnchored_visited sees short ?_
    rw [← ran]
    unfold reassembleAnchored
    rw [reassembleFrom_stopAtFailure]
  · exact reassembleAnchored_visited sees short ran

omit sees

def anchoredVisits (kzg : Kzg Commitment Blob) (cfg : Config Root)
    (seen : Nat → List VersionedHash → Prop) {honest : Errand → Reads Root Commitment Blob → Prop}
    (sees : ∀ reads, honest .scanning reads → ∀ slot vhs, Resolved kzg cfg reads slot vhs → seen slot vhs) :
    Contract (anchored kzg cfg) cfg.originSlot (fun _ => seen) (fun _ => True) honest where
  Memory _ := True
  Plan p start := p.start = start ∧ p.last ≤ maxUint64
  Fetched f start := f.start = start ∧ f.Visited seen
  fresh := trivial
  plan seed syncedTo reads _ _ := by
    refine ⟨trivial, fun p ready => ?_⟩
    have isPlan : (plan cfg seed syncedTo reads).2 = .ok (some p) := ok_of_join ready
    obtain ⟨start, small⟩ := plan_shape isPlan
    refine ⟨p.start, ?_, rfl, small⟩
    rw [start]
    exact resume_le_resumeAt cfg.originSlot syncedTo
  fetch p start reads f honest good fetched := by
    obtain ⟨same, visited⟩ := walkAnchored_visited (sees reads honest) good.2 (ok_of_toOption fetched)
    exact ⟨same.trans good.1, visited⟩
  batch f start reads b _ good isBatch := by
    obtain ⟨reached, same, rows⟩ := preparePost_batch (ok_of_join isBatch)
    refine ⟨same.trans good.1, reached, ?_, fun _ => trivial⟩
    rw [same, rows]
    exact good.2.tells b.last reached
  next f start p good next := by
    unfold anchored maybePrefetch at next
    dsimp only at next
    split at next
    · cases next
    rename_i full
    have reached : f.reached = some f.last := by simpa using full
    split at next
    · cases next
    · cases next
      exact ⟨f.last, reached, uint64_succ good.2.short, batchEnd_le _ _⟩
  settle _ _ _ _ _ _ _ := trivial

end Anchored

end Bloar.Beacon

namespace Bloar.Indexing
open Ipld Schema Archive

variable {ι Root Commitment Blob : Type} [DecidableEq ι] [DecidableEq Root]

/-! ### Every kind of indexer -/

inductive Indexer (Root : Type) where
  | anchored (cfg : Beacon.Config Root)
  | mirror (cfg : Beacon.MirrorConfig)
  | chain (cfg : Chain.Config)

namespace Indexer

def originSlot : Indexer Root → Nat
  | anchored cfg => cfg.originSlot
  | mirror cfg => cfg.originSlot
  | chain cfg => cfg.originSlot

variable (kzg : Beacon.Kzg Commitment Blob)

def kind : Indexer Root → Kind
  | anchored cfg => Beacon.anchored kzg cfg
  | mirror cfg => Beacon.mirror kzg cfg
  | chain cfg => @Chain.chainIndexer Blob cfg

variable (l1 : Chain.L1) (schedule : Cid → List Chain.Source)

def Saw : (ix : Indexer Root) → (ix.kind kzg).Reads → Nat → List VersionedHash → Prop
  | anchored cfg => Beacon.Resolved kzg cfg
  | mirror _ => Beacon.Answered kzg
  | chain cfg => Chain.ScannedAt cfg l1

/-- A chain indexer finds its blocks by asking its node, which follows the chain; beacon
indexers may be told anything. -/
def Trusts : (ix : Indexer Root) → (ix.kind kzg).Reads → Prop
  | anchored _ => fun _ => True
  | mirror _ => fun _ => True
  | chain _ => fun reads => Chain.Reads.Follow l1 schedule reads

def Clocked : Indexer Root → Prop
  | chain cfg => l1.OnePerSlot cfg.genesisTime cfg.secondsPerSlot
  | _ => True

def Remembers : (ix : Indexer Root) → (ix.kind kzg).Memory → Prop
  | anchored _ => fun _ => True
  | mirror _ => fun _ => True
  | chain cfg => Chain.Memory.Sound cfg l1 schedule

/-- Whatever the kind of the indexer, its batches begin where the head ended, and say what their
scan saw of their slots. -/
theorem visits (ix : Indexer Root) (clocked : ix.Clocked l1) (seen : Nat → List VersionedHash → Prop)
    {honest : Errand → (ix.kind kzg).Reads → Prop}
    (trusts : ∀ errand reads, honest errand reads → ix.Trusts kzg l1 schedule reads)
    (sees : ∀ reads, honest .scanning reads → ∀ slot vhs, ix.Saw kzg l1 reads slot vhs →
      seen slot vhs) :
    ∃ contract : Contract (ix.kind kzg) ix.originSlot (fun _ => seen) (fun _ => True) honest,
      contract.Memory = ix.Remembers kzg l1 schedule := by
  cases ix with
  | anchored cfg => exact ⟨Beacon.anchoredVisits kzg cfg seen sees, rfl⟩
  | mirror cfg => exact ⟨Beacon.mirrorContract kzg cfg sees fun _ _ _ _ _ => trivial, rfl⟩
  | chain cfg =>
    exact ⟨Chain.chainContract cfg l1 schedule clocked trusts
      (fun reads _ fair _ slot vhs => sees reads fair slot vhs) fun _ _ _ => trivial, rfl⟩

end Indexer

/-! ### Rewinds -/

section Rewinds

variable {kzg : Beacon.Kzg Commitment Blob} {l1 : Chain.L1} {schedule : Cid → List Chain.Source}
variable {originSlot : Nat} {indexers : ι → Indexer Root}

def Calm (kzg : Beacon.Kzg Commitment Blob) (l1 : Chain.L1) (schedule : Cid → List Chain.Source)
    (indexers : ι → Indexer Root) (s : System fun i => (indexers i).kind kzg) :
    Event (fun i => (indexers i).kind kzg) → Prop
  | .plan i reads | .fetch i reads | .fetchAhead i reads | .post i reads =>
    (indexers i).Trusts kzg l1 schedule reads
  | .truncate _ => s.Quiet
  | _ => True

def Scans (events : List (Event fun i => (indexers i).kind kzg)) (i : ι)
    (reads : ((indexers i).kind kzg).Reads) : Prop :=
  .fetch i reads ∈ events ∨ .fetchAhead i reads ∈ events

def SeenBy (l1 : Chain.L1) (events : List (Event fun i => (indexers i).kind kzg)) (t slot : Nat)
    (vhs : List VersionedHash) : Prop :=
  slot ≤ t ∨ ∃ i reads, Scans events i reads ∧ (indexers i).Saw kzg l1 reads slot vhs

def ReadsOf (l1 : Chain.L1) (schedule : Cid → List Chain.Source)
    (events : List (Event fun i => (indexers i).kind kzg)) (i : ι) (errand : Errand)
    (reads : ((indexers i).kind kzg).Reads) : Prop :=
  (indexers i).Trusts kzg l1 schedule reads ∧ (errand = .scanning → Scans events i reads)

omit [DecidableEq ι] in
theorem Calm.fair {events : List (Event fun i => (indexers i).kind kzg)} {t : Nat}
    {s : System fun i => (indexers i).kind kzg} {e : Event fun i => (indexers i).kind kzg}
    (member : e ∈ events) (calm : Calm kzg l1 schedule indexers s e) :
    s.Fair originSlot (fun _ => SeenBy l1 events t) (ReadsOf l1 schedule events) e := by
  cases e with
  | plan | post => exact ⟨calm, fun scanning => by cases scanning⟩
  | fetch i reads => exact ⟨calm, fun _ => .inl member⟩
  | fetchAhead i reads => exact ⟨calm, fun _ => .inr member⟩
  | truncate slot => exact calm
  | setManifest tip => exact fun _ _ => id
  | _ => trivial

omit [DecidableEq ι] in
theorem visits_events (kzg : Beacon.Kzg Commitment Blob) (schedule : Cid → List Chain.Source)
    (clocked : ∀ i, (indexers i).Clocked l1)
    (origin : ∀ i, (indexers i).originSlot = originSlot)
    (events : List (Event fun i => (indexers i).kind kzg)) (t : Nat) (i : ι) :
    ∃ contract : Contract ((indexers i).kind kzg) originSlot (fun _ => SeenBy l1 events t)
      (fun _ => True) (ReadsOf l1 schedule events i),
      contract.Memory = (indexers i).Remembers kzg l1 schedule := by
  rw [← origin i]
  refine (indexers i).visits kzg l1 schedule (clocked i) _ (fun _ reads fair => fair.1) ?_
  intro reads fair slot vhs saw
  exact .inr ⟨i, reads, fair.2 rfl, saw⟩

theorem calm_sound {events : List (Event fun i => (indexers i).kind kzg)} {t : Nat}
    {contracts : (i : ι) → Contract ((indexers i).kind kzg) originSlot
      (fun _ => SeenBy l1 events t) (fun _ => True) (ReadsOf l1 schedule events i)}
    {s s' : System fun i => (indexers i).kind kzg}
    (trace : System.Trace originSlot (Calm kzg l1 schedule indexers) s events s')
    (sound : s.Sound contracts) : s'.Sound contracts :=
  (trace.mono fun _ _ member calm => Calm.fair member calm).reaches.sound sound

/-- After a rewind of a quiet head nothing past its end is owed to earlier scans. -/
theorem rewound_sound {before after : List (Event fun i => (indexers i).kind kzg)} {t t' : Nat}
    {contracts : (i : ι) → Contract ((indexers i).kind kzg) originSlot
      (fun _ => SeenBy l1 before t') (fun _ => True) (ReadsOf l1 schedule before i)}
    {contracts' : (i : ι) → Contract ((indexers i).kind kzg) originSlot
      (fun _ => SeenBy l1 after t) (fun _ => True) (ReadsOf l1 schedule after i)}
    (memory : ∀ i, (contracts' i).Memory = (contracts i).Memory)
    {s s' : System fun i => (indexers i).kind kzg} (sound : s.Sound contracts) (quiet : s.Quiet)
    (taken : s.step originSlot (.truncate t) = some s') : s'.Sound contracts' := by
  simp only [System.step, System.rewind] at taken
  split at taken
  · cases taken
  split at taken
  · cases taken
    refine ⟨?_, Log.bare_cut _ _, fun synced _ => ⟨synced, Nat.le_refl _, trivial⟩, ?_,
      sound.answered, fun i => ?_, fun i f request waits => ?_⟩
    · rintro slot ⟨-, last, isLast, le⟩
      cases isLast
      exact .inl le
    · intro request b member
      rw [show ({ s with log := s.log.cut t } : System _).posted = [] from quiet.2] at member
      cases member
    · obtain ⟨idle, noAhead⟩ := quiet.1 i
      have old := (sound.working i).memory
      refine ⟨memory i ▸ old, ?_, ?_⟩
      · rw [idle]
        trivial
      · rw [noAhead]
        trivial
    · rw [(quiet.1 i).1] at waits
      cases waits
  · cases taken

/-- As long as the operator truncates only while no pass is under way, a rewind never turns
uncovered slots into recorded absence: a slot past the cut that is covered again holds what
a scan of that slot saw after the cut, and no batch is accepted that begins past the end of
the head. -/
theorem rewind_keeps_visited (clocked : ∀ i, (indexers i).Clocked l1)
    (origin : ∀ i, (indexers i).originSlot = originSlot) {tip : Option Cid}
    {events : List (Event fun i => (indexers i).kind kzg)}
    {s : System fun i => (indexers i).kind kzg}
    (trace : System.Trace originSlot (Calm kzg l1 schedule indexers) (System.fresh _ tip) events s) :
    (∀ before t after, events = before ++ .truncate t :: after → ∀ slot, t < slot →
      s.log.Covers originSlot slot → ∃ i reads, Scans after i reads ∧
        (indexers i).Saw kzg l1 reads slot (s.log.hashes slot)) ∧
    (∀ request b s', s.step originSlot (.deliver request b) = some s' →
      b.start ≤ s.log.resume originSlot) := by
  constructor
  · rintro before t after rfl slot past covers
    obtain ⟨middle, front, back⟩ := trace.split
    cases back with
    | cons quiet taken rest =>
      choose contracts memory using visits_events kzg schedule clocked origin before 0
      choose contracts' memory' using visits_events kzg schedule clocked origin after t
      have sound := calm_sound front (System.sound_fresh contracts tip)
      have rewound := rewound_sound (fun i => (memory' i).trans (memory i).symm) sound quiet taken
      rcases (calm_sound rest rewound : s.Sound contracts').records slot covers with kept | seen
      · omega
      · exact seen
  · intro request b s' taken
    choose contracts memory using visits_events kzg schedule clocked origin events 0
    have sound : s.Sound contracts := calm_sound trace (System.sound_fresh contracts tip)
    simp only [System.step] at taken
    split at taken
    · rename_i member
      exact (sound.posted request b member).2.2
    · cases taken

end Rewinds

/-! ### A mirror that is rewound -/

section Sample

def rewoundMirror : Beacon.MirrorConfig :=
  { originSlot := 5, batchSize := 5, fetchConcurrency := 1, maxPutBlobs := 64 }

def longSource : Beacon.MirrorReads Block where
  originSlot := .ok 5
  finalizedSlot := .ok (some 14)
  blobs slot :=
    if 5 ≤ slot ∧ slot ≤ 14 then .found (if slot = 7 then [sampleBlob sampleHash] else [])
    else .notYetCovered
  putBlobs _ := .ok [sampleHash]

abbrev rewoundKind : Unit → Kind :=
  fun _ => (Indexer.mirror rewoundMirror : Indexer Unit).kind Beacon.blockKzg

def rewoundPass (request start : Nat) : List (Event rewoundKind) :=
  [.plan () longSource, .fetch () longSource, .post () longSource,
    .deliver request { start, last := start + 4, rows := sampleRows, expectedManifest := none },
    .acknowledge (), .expire request]

/-- The next range is scanned before the operator truncates, and posted after. -/
def stalePass : List (Event rewoundKind) :=
  rewoundPass 0 5 ++ [.plan () longSource, .fetch () longSource]

def stalePost : List (Event rewoundKind) :=
  [.post () longSource,
    .deliver 1 { start := 10, last := 14, rows := [], expectedManifest := none }]

/-- The head covers slot 7 again and has nothing there, though no scan has looked since. -/
theorem rewind_records_absence : ∃ s,
    System.run 5 (stalePass ++ .truncate 6 :: stalePost) (System.fresh _ none) = some s ∧
      s.log.Covers 5 7 ∧ s.log.hashes 7 = [] ∧
      longSource.blobs 7 = .found [sampleBlob sampleHash] ∧ ∀ i reads, ¬ Scans stalePost i reads := by
  have stale : (System.run 5 (stalePass ++ .truncate 6 :: stalePost) (System.fresh _ none)).map
      (fun s => (s.log.synced, s.log.hashes 7)) = some (some 14, []) := by decide +kernel
  obtain ⟨s, ran, facts⟩ := Option.map_eq_some_iff.mp stale
  obtain ⟨synced, empty⟩ := Prod.mk.inj facts
  refine ⟨s, ran, ⟨by decide, 14, synced, by decide⟩, empty, rfl, fun i reads scans => ?_⟩
  simp [Scans, stalePost] at scans

def Writer.rests {k : Kind} (writer : Writer k) : Bool :=
  match writer.stage, writer.ahead with
  | .idle, .none => true
  | _, _ => false

theorem quiet_of_rests {s : System rewoundKind} (rests : (s.writers ()).rests = true)
    (noPosts : s.posted = []) : s.Quiet := by
  refine ⟨fun i => ?_, noPosts⟩
  unfold Writer.rests at rests
  split at rests
  · rename_i idle noAhead
    exact ⟨idle, noAhead⟩
  · cases rests

theorem rewoundPass_calm (request start : Nat) (l1 : Chain.L1)
    (schedule : Cid → List Chain.Source) : ∀ e ∈ rewoundPass request start, ∀ state, Calm Beacon.blockKzg l1 schedule
      (fun _ : Unit => (Indexer.mirror rewoundMirror : Indexer Unit)) state e := by
  intro e member state
  simp only [rewoundPass, List.mem_cons, List.not_mem_nil, or_false] at member
  rcases member with rfl | rfl | rfl | rfl | rfl | rfl <;> trivial

theorem rewind_keeps_visited_sample : ∃ s,
    System.run 5 (rewoundPass 0 5 ++ .truncate 6 :: rewoundPass 1 7) (System.fresh rewoundKind none) =
        some s ∧
      s.log.Covers 5 7 ∧ ∃ i reads, Scans (rewoundPass 1 7) i reads ∧
        (Indexer.mirror rewoundMirror : Indexer Unit).Saw Beacon.blockKzg Chain.sampleL1 reads 7
          (s.log.hashes 7) := by
  have first : (System.run 5 (rewoundPass 0 5) (System.fresh rewoundKind none)).map
      (fun s => ((s.writers ()).rests, s.posted)) = some (true, []) := by decide +kernel
  have whole : (System.run 5 (rewoundPass 0 5 ++ .truncate 6 :: rewoundPass 1 7)
      (System.fresh rewoundKind none)).map (fun s => s.log.synced) = some (some 11) := by
    decide +kernel
  obtain ⟨s₀, ran₀, facts⟩ := Option.map_eq_some_iff.mp first
  obtain ⟨s, ran, synced⟩ := Option.map_eq_some_iff.mp whole
  have rest := ran
  rw [System.run_append, ran₀, Option.bind_some] at rest
  obtain ⟨s₁, cut, ran₁⟩ := Option.bind_eq_some_iff.mp rest
  obtain ⟨rests, noPosts⟩ := Prod.mk.inj facts
  have trace : System.Trace 5 (Calm Beacon.blockKzg Chain.sampleL1 (fun _ => [])
      fun _ : Unit => (Indexer.mirror rewoundMirror : Indexer Unit)) (System.fresh rewoundKind none)
      (rewoundPass 0 5 ++ .truncate 6 :: rewoundPass 1 7) s :=
    (System.Trace.of_run (rewoundPass_calm 0 5 _ _) ran₀).append
      (.cons (quiet_of_rests rests noPosts) cut (.of_run (rewoundPass_calm 1 7 _ _) ran₁))
  have covers : s.log.Covers 5 7 := ⟨by decide, 11, synced, by decide⟩
  have clocked : ∀ _ : Unit, (Indexer.mirror rewoundMirror : Indexer Unit).Clocked Chain.sampleL1 :=
    fun _ => trivial
  have kept := rewind_keeps_visited clocked (fun _ => rfl) trace
  exact ⟨s, ran, covers, kept.1 _ 6 _ rfl 7 (by decide) covers⟩

end Sample

end Bloar.Indexing
