import Bloar.Mirror
import Bloar.AnchoredSpec
import Bloar.Loops

/-!
A mirror against its source. The source head only grows, so what it once served it
serves for good, and the mirror's rows are the source's.
-/

namespace Bloar.Beacon
open Ipld Schema Archive Indexing Loops

variable {Commitment Blob : Type} {kzg : Kzg Commitment Blob}

/-! ### One pass -/

/-- What a source archive with this log serves: bytes that commit to the hashes of a covered
slot. It may fail, or answer 503, at any time. -/
structure MirrorReads.Serve (kzg : Kzg Commitment Blob) (originSlot : Nat) (source : Log)
    (reads : MirrorReads Blob) : Prop where
  blobs : ∀ slot blobs, reads.blobs slot = .found blobs → source.Covers originSlot slot ∧
    blobs.map kzg.versionedHash = (source.hashes slot).map .ok

section Pass

variable {cfg : MirrorConfig} {reads : MirrorReads Blob} {start : Nat}

def MirrorReads.served (reads : MirrorReads Blob) (slot : Nat) : List Blob :=
  match reads.blobs slot with
  | .found blobs => blobs
  | _ => []

def Answered (kzg : Kzg Commitment Blob) (reads : MirrorReads Blob) (slot : Nat)
    (vhs : List VersionedHash) : Prop :=
  ∃ blobs, reads.blobs slot = .found blobs ∧ blobs.map kzg.versionedHash = vhs.map .ok

def filled (reads : MirrorReads Blob) (start count : Nat) : List Nat :=
  (List.range' start count).filter fun slot => !(reads.served slot).isEmpty

structure Walked (reads : MirrorReads Blob) (start count : Nat) (t : MirrorTally Blob) : Prop where
  order : t.order = (filled reads start count).map fun slot => (slot, (reads.served slot).length)
  blobs : t.blobs = (filled reads start count).flatMap reads.served
  answered : ∀ slot, start ≤ slot → slot < start + count → ∃ blobs, reads.blobs slot = .found blobs

variable {count : Nat} {t : MirrorTally Blob} {blobs : List Blob} {p : MirrorPlan}
  {stored : List VersionedHash}

theorem Walked.found (walked : Walked reads start count t)
    (answer : reads.blobs (start + count) = .found blobs) :
    Walked reads start (count + 1)
      (if blobs = [] then t
        else { order := t.order ++ [(start + count, blobs.length)], blobs := t.blobs ++ blobs }) := by
  have served : reads.served (start + count) = blobs := by simp [MirrorReads.served, answer]
  have grown : filled reads start (count + 1) =
      filled reads start count ++ if blobs = [] then [] else [start + count] := by
    unfold filled
    rw [List.range'_1_concat, List.filter_append]
    by_cases empty : blobs = [] <;> simp [served, empty]
  have answered : ∀ slot, start ≤ slot → slot < start + (count + 1) →
      ∃ blobs, reads.blobs slot = .found blobs := by
    intro slot ge lt
    rcases Nat.lt_or_eq_of_le (Nat.le_of_lt_succ lt) with old | rfl
    · exact walked.answered slot ge old
    · exact ⟨blobs, answer⟩
  by_cases empty : blobs = []
  · rw [if_pos empty, List.append_nil] at grown
    rw [if_pos empty]
    exact ⟨grown ▸ walked.order, grown ▸ walked.blobs, answered⟩
  · rw [if_neg empty] at grown
    rw [if_neg empty]
    refine ⟨?_, ?_, answered⟩
    · rw [grown, List.map_append, ← walked.order, List.map_singleton, served]
    · rw [grown, List.flatMap_append, ← walked.blobs, List.flatMap_singleton, served]

theorem walkMirrorFrom_walked {more : Nat} {t' : MirrorTally Blob} {stopped : Option Nat}
    (walked : Walked reads start count t)
    (ran : walkMirrorFrom (start + count) ((List.range' (start + count) more).map reads.blobs) t =
      .ok (t', stopped)) :
    (stopped = none ∧ Walked reads start (count + more) t') ∨
      ∃ reached, stopped = some (start + reached) ∧ Walked reads start reached t' := by
  induction more generalizing count t with
  | zero =>
    cases ran
    exact .inl ⟨rfl, walked⟩
  | succ more ih =>
    rw [List.range'_succ, List.map_cons] at ran
    rcases answer : reads.blobs (start + count) with e | blobs | _ | _ | _
    · rw [answer] at ran
      cases ran
    · rw [answer] at ran
      have next := walked.found answer
      have shift : count + (more + 1) = count + 1 + more := by omega
      rw [shift]
      unfold walkMirrorFrom at ran
      by_cases empty : blobs = []
      · rw [if_pos empty] at ran next
        exact ih next ran
      · rw [if_neg empty] at ran next
        exact ih next ran
    · rw [answer] at ran
      cases ran
    · rw [answer] at ran
      cases ran
      exact .inr ⟨count, rfl, walked⟩
    · rw [answer] at ran
      cases ran

structure MirrorFetched.Visited (reads : MirrorReads Blob) (f : MirrorFetched Blob) : Prop where
  short : f.last < maxUint64
  walked : ∀ last, f.reached = some last →
    Walked reads f.start (last + 1 - f.start) ⟨f.order, f.blobs⟩

theorem walkMirror_visited {f : MirrorFetched Blob} (small : p.last ≤ maxUint64)
    (ran : walkMirror cfg reads p = .ok f) : f.start = p.start ∧ f.Visited reads := by
  unfold walkMirror at ran
  split at ran
  · cases ran
  rename_i notMax
  have short : p.last < maxUint64 := Nat.lt_of_le_of_ne small notMax
  split at ran
  · cases ran
  obtain ⟨⟨t, stopped⟩, walk, ran⟩ := bind_ok_iff.mp ran
  have begin : Walked reads p.start 0 { order := [], blobs := [] } :=
    ⟨rfl, rfl, fun slot ge lt => by omega⟩
  have outcome := walkMirrorFrom_walked begin walk
  rw [Nat.zero_add] at outcome
  rcases outcome with ⟨rfl, walked⟩ | ⟨reached, rfl, walked⟩
  · obtain rfl := pure_ok_iff.mp ran
    refine ⟨rfl, short, ?_⟩
    rintro last ⟨⟩
    exact walked
  · dsimp only at ran
    split at ran
    · obtain rfl := pure_ok_iff.mp ran
      exact ⟨rfl, short, fun last none => by cases none⟩
    · rename_i later
      obtain rfl := pure_ok_iff.mp ran
      refine ⟨rfl, short, ?_⟩
      rintro last ⟨⟩
      have positive : reached ≠ 0 := by
        rintro rfl
        exact later rfl
      have count : p.start + reached - 1 + 1 - p.start = reached := by omega
      dsimp only
      rw [count]
      exact walked

theorem verifyEach_ok {u : Unit} (length : blobs.length = stored.length)
    (ok : verifyEach kzg blobs stored = .ok u) : blobs.map kzg.versionedHash = stored.map .ok := by
  induction blobs generalizing stored with
  | nil =>
    rw [List.length_eq_zero_iff.mp length.symm]
    rfl
  | cons b blobs ih =>
    rcases stored with _ | ⟨vh, stored⟩
    · cases length
    · unfold verifyEach at ok
      split at ok
      · cases ok
      · rename_i derived isDerived
        split at ok
        · rename_i same
          rw [List.map_cons, List.map_cons, isDerived, same, ih (by simpa using length) ok]
        · cases ok

/-- Stored hashes, cut at the counts, are the hashes of each slot's bytes. -/
theorem fillRows_rowAt (slots : List Nat)
    (same : (slots.flatMap reads.served).map kzg.versionedHash = stored.map .ok) (slot : Nat) :
    (rowAt (fillRows (slots.map fun s => (s, (reads.served s).length)) stored) slot).map .ok =
      if slot ∈ slots then (reads.served slot).map kzg.versionedHash else [] := by
  induction slots generalizing stored with
  | nil => rfl
  | cons s rest ih =>
    rw [List.flatMap_cons, List.map_append] at same
    have length : ((reads.served s).map kzg.versionedHash).length = (reads.served s).length :=
      List.length_map _
    have front : (stored.take (reads.served s).length).map .ok =
        (reads.served s).map kzg.versionedHash := by
      rw [List.map_take, ← same, List.take_left' length]
    have back : (rest.flatMap reads.served).map kzg.versionedHash =
        (stored.drop (reads.served s).length).map .ok := by
      rw [List.map_drop, ← same, List.drop_left' length]
    rw [List.map_cons, fillRows, rowAt_cons]
    by_cases here : s = slot
    · subst here
      simp [front]
    · rw [if_neg here, ih back]
      simp [Ne.symm here]

theorem mirrorPost_answered {f : MirrorFetched Blob} {late : MirrorReads Blob} {b : Batch}
    (visited : f.Visited reads) (ran : mirrorPost kzg cfg f late = .ok (some b)) :
    f.reached = some b.last ∧ b.start = f.start ∧
      Tells (Answered kzg reads) f.start b.last b.rows := by
  unfold mirrorPost at ran
  split at ran
  · cases pure_ok_iff.mp ran
  rename_i last reached
  obtain ⟨stored, -, ran⟩ := bind_ok_iff.mp ran
  obtain ⟨_, verified, ran⟩ := bind_ok_iff.mp ran
  obtain ⟨rows, assigned, ran⟩ := bind_ok_iff.mp ran
  cases pure_ok_iff.mp ran
  have walked := visited.walked last reached
  refine ⟨reached, rfl, fun slot ge le => ?_⟩
  unfold verify at verified
  split at verified
  · cases verified
  rename_i length
  have same := verifyEach_ok (Decidable.not_not.mp length) verified
  have isBlobs : f.blobs = _ := walked.blobs
  have isOrder : f.order = _ := walked.order
  rw [isBlobs] at same
  unfold assign at assigned
  split at assigned
  · cases assigned
  cases assigned
  dsimp only at le ⊢
  obtain ⟨blobs, answer⟩ := walked.answered slot ge (by omega)
  have served : reads.served slot = blobs := by simp [MirrorReads.served, answer]
  refine ⟨blobs, answer, ?_⟩
  rw [isOrder, fillRows_rowAt _ same slot, ← served]
  split
  · rfl
  · rename_i absent
    -- a slot of the walk without a row was served with nothing
    have empty : reads.served slot = [] := by
      by_contra some
      refine absent (List.mem_filter.mpr ⟨List.mem_range'_1.mpr ⟨ge, by omega⟩, ?_⟩)
      simpa using some
    rw [empty]
    rfl

theorem mirrorPlan_shape {gotOrigin : Bool} {syncedTo : Option Nat}
    (planned : (mirrorPlan cfg gotOrigin syncedTo reads).2 = .ok (some p)) :
    p.start = resume cfg.originSlot syncedTo ∧ p.last ≤ maxUint64 := by
  unfold mirrorPlan at planned
  split at planned
  · cases planned
  · split at planned
    · cases planned
    · cases planned
    · dsimp only at planned
      split at planned
      · cases planned
      · cases planned
        exact ⟨rfl, Nat.le_trans (Nat.min_le_right _ _) (batchEnd_le _ _)⟩

def mirrorContract (kzg : Kzg Commitment Blob) (cfg : MirrorConfig)
    {truth : Nat → List VersionedHash → Prop} {reach : Nat → Prop}
    {honest : Errand → MirrorReads Blob → Prop}
    (sees : ∀ reads, honest .scanning reads → ∀ slot vhs, Answered kzg reads slot vhs → truth slot vhs)
    (reaches : ∀ reads, honest .scanning reads → ∀ slot blobs, reads.blobs slot = .found blobs →
      reach slot) :
    Contract (mirror kzg cfg) cfg.originSlot (fun _ => truth) reach honest where
  Memory _ := True
  Plan p start := p.start = start ∧ p.last ≤ maxUint64
  Fetched f start := f.start = start ∧ ∃ reads, honest .scanning reads ∧ f.Visited reads
  fresh := trivial
  plan gotOrigin syncedTo reads _ _ := by
    refine ⟨trivial, fun p ready => ?_⟩
    obtain ⟨start, small⟩ := mirrorPlan_shape (ok_of_join ready)
    refine ⟨p.start, ?_, rfl, small⟩
    rw [start]
    exact resume_le_resumeAt cfg.originSlot syncedTo
  fetch p start reads f honest good fetched := by
    obtain ⟨same, visited⟩ := walkMirror_visited good.2 (ok_of_toOption fetched)
    exact ⟨same.trans good.1, reads, honest, visited⟩
  batch f start late b _ good isBatch := by
    obtain ⟨isStart, reads, honest, visited⟩ := good
    obtain ⟨reached, same, tells⟩ := mirrorPost_answered visited (ok_of_join isBatch)
    refine ⟨same.trans isStart, reached, ?_, fun scanned => ?_⟩
    · rw [same]
      exact fun slot ge le => sees reads honest slot _ (tells slot ge le)
    · obtain ⟨blobs, answer, -⟩ := tells b.last (same ▸ scanned) (Nat.le_refl _)
      exact reaches reads honest b.last blobs answer
  next f start p good next := by
    obtain ⟨-, reads, -, visited⟩ := good
    unfold mirror mirrorPrefetch at next
    dsimp only at next
    split at next
    · cases next
    rename_i full
    have reached : f.reached = some f.last := by simpa using full
    split at next
    · cases next
    · cases next
      exact ⟨f.last, reached, uint64_succ visited.short, batchEnd_le _ _⟩
  settle _ _ _ _ _ _ _ := trivial

theorem MirrorReads.Serve.hashes {originSlot slot : Nat} {source : Log} {vhs : List VersionedHash}
    (serve : reads.Serve kzg originSlot source) (answered : Answered kzg reads slot vhs) :
    vhs = source.hashes slot := by
  obtain ⟨blobs, answer, same⟩ := answered
  obtain ⟨-, hashes⟩ := serve.blobs slot blobs answer
  exact List.map_injective_iff.mpr (fun a b h => Except.ok.inj h) (same.symm.trans hashes)

end Pass

/-! ### A mirror next to its source -/

section Mirrors

variable {σ τ : Type} (kzg : Kzg Commitment Block) (ipld : Codec)

def Committed (e : RefEntry) : Prop :=
  ∃ bytes, kzg.versionedHash bytes = .ok e.vh ∧ e.blob = some (ipld.sum raw bytes)

def Consistent (g : Flat) : Prop := ∀ slot, ∀ e ∈ g.entries slot, Committed kzg ipld e

/-- A catalog that binds a hash only to bytes that commit to it, as the archive derives it. -/
def Catalogued (cfg : Archive.Config σ) : Prop :=
  ∀ resolve vh s c s', cfg.resolver = some resolve → resolve vh s = (.ok (some c, true), s') →
    Committed kzg ipld { vh, blob := some c }

def Answers (originSlot : Nat) (g : Flat) (reads : MirrorReads Block) : Prop :=
  ∀ slot blobs, reads.blobs slot = .found blobs → (logOf g).Covers originSlot slot ∧
    List.Forall₂ (fun e b => e.blob = some (ipld.sum raw b)) (g.entries slot) blobs

def Copying {cfg : MirrorConfig} (originSlot : Nat) (g : Flat) :
    Event (fun _ : Unit => mirror kzg cfg) → Prop
  | .plan _ reads | .fetch _ reads | .fetchAhead _ reads | .post _ reads =>
    Answers ipld originSlot g reads
  | .deliver _ _ | .truncate _ | .setManifest _ => False
  | _ => True

structure Pair (σ τ : Type) where
  mirrorConfig : Archive.Config σ
  mirrorPresent : σ → Cid → Prop
  mirrorParams : Params
  sourceConfig : Archive.Config τ
  sourcePresent : τ → Cid → Prop
  sourceParams : Params

/-- A mirror indexer, the head it writes and the head it copies. The source grows by
`ApplyRefs` only; either archive can be reopened and its store can move, without loss. -/
inductive MirrorRun (pair : Pair σ τ) (cfg : MirrorConfig) :
    System (fun _ : Unit => mirror kzg cfg) → World σ → Flat → World τ → Flat → Prop where
  | start {shared : σ} {w : World σ} {v : World τ} {g : Flat}
      (made : Archive.new ipld pair.mirrorConfig pair.mirrorParams
        (newHead shared pair.mirrorParams) = (.ok (), w))
      (source : Run ipld pair.sourceConfig pair.sourcePresent pair.sourceParams v g) :
      MirrorRun pair cfg (System.fresh _ none) w .empty v g
  | indexer {s s' w f v g} (run : MirrorRun pair cfg s w f v g)
      {e : Event fun _ : Unit => mirror kzg cfg}
      (copying : Copying kzg ipld pair.sourceParams.originSlot g e)
      (taken : s.step pair.mirrorParams.originSlot e = some s') : MirrorRun pair cfg s' w f v g
  | accepted {s w f v g} (run : MirrorRun pair cfg s w f v g) {request : Nat} {b : Batch}
      {r : ApplyResult} {w' : World σ} (member : (request, b) ∈ s.posted)
      (bound : checkManifestBinding s.tip b.expectedManifest = .ok ())
      (ran : Archive.applyRefs ipld pair.mirrorConfig b.rows b.last w = (.ok r, w')) :
      MirrorRun pair cfg
        { s with
          log := logOf (f.apply (answers pair.mirrorConfig w.shared b.rows) b.last)
          answered := request :: s.answered }
        w' (f.apply (answers pair.mirrorConfig w.shared b.rows) b.last) v g
  | refused {s w f v g} (run : MirrorRun pair cfg s w f v g) {b : Batch} {e : Error} {w' : World σ}
      (ran : Archive.applyRefs ipld pair.mirrorConfig b.rows b.last w = (.error e, w')) :
      MirrorRun pair cfg s w' f v g
  | around {s w f v g} (run : MirrorRun pair cfg s w f v g) (shared : σ) (history : List Archive.Event)
      (kept : ∀ c, pair.mirrorPresent w.shared c → pair.mirrorPresent shared c) :
      MirrorRun pair cfg s { w with shared, history } f v g
  | reopened {s w f v g} (run : MirrorRun pair cfg s w f v g) {w' : World σ}
      (loaded : load ipld pair.mirrorConfig w.cur.root (newHead w.shared pair.mirrorParams) =
        (.ok (), w')) : MirrorRun pair cfg s w' f v g
  | grows {s w f v g} (run : MirrorRun pair cfg s w f v g) (rows : List RefRow) (syncedTo : Nat) :
      MirrorRun pair cfg s w f ((Call.applyRefs rows syncedTo).perform ipld pair.sourceConfig v).2
        (g.after (answers pair.sourceConfig v.shared) (.applyRefs rows syncedTo)
          ((Call.applyRefs rows syncedTo).perform ipld pair.sourceConfig v).1)
  | sourceAround {s w f v g} (run : MirrorRun pair cfg s w f v g) (shared : τ)
      (history : List Archive.Event)
      (kept : ∀ c, pair.sourcePresent v.shared c → pair.sourcePresent shared c) :
      MirrorRun pair cfg s w f { v with shared, history } g
  | sourceReopened {s w f v g} (run : MirrorRun pair cfg s w f v g) {v' : World τ}
      (loaded : load ipld pair.sourceConfig v.cur.root (newHead v.shared pair.sourceParams) =
        (.ok (), v')) : MirrorRun pair cfg s w f v' g

variable {kzg ipld} {pair : Pair σ τ} {cfg : MirrorConfig}
variable {s : System fun _ : Unit => mirror kzg cfg} {w : World σ} {v : World τ} {f g : Flat}

variable {store : Archive.Config σ} {xs : List RefEntry} {originSlot : Nat} {g' : Flat}
  {e : Event fun _ : Unit => mirror kzg cfg} {t : Nat}

theorem answerVHs_committed (catalogued : Catalogued kzg ipld store)
    {resolve : VersionedHash → σ → Except String (Link × Bool) × σ}
    (resolver : store.resolver = some resolve) (vhs : List VersionedHash) (shared : σ) :
    ∀ e ∈ (answerVHs store resolve shared vhs).1, Committed kzg ipld e := by
  induction vhs generalizing shared with
  | nil => simp [answerVHs]
  | cons vh rest ih =>
    intro e member
    unfold answerVHs at member
    split at member
    · rename_i c next asked
      rcases List.mem_cons.mp member with rfl | later
      · exact catalogued _ _ _ _ _ resolver asked
      · exact ih _ e later
    · exact ih _ e member

theorem answers_committed (catalogued : Catalogued kzg ipld store) (shared : σ)
    (rows : List RefRow) :
    ∀ r ∈ answers store shared rows, ∀ e ∈ r.entries, Committed kzg ipld e := by
  unfold answers
  cases resolver : store.resolver with
  | none => simp
  | some resolve =>
    simp only
    induction rows generalizing shared with
    | nil => simp [answerRows]
    | cons row rest ih =>
      intro r member
      rcases List.mem_cons.mp member with rfl | later
      · exact answerVHs_committed catalogued resolver row.vhs shared
      · exact ih _ r later

theorem Consistent.apply (consistent : Consistent kzg ipld f)
    (catalogued : Catalogued kzg ipld store) (shared : σ) (rows : List RefRow) (syncedTo : Nat) :
    Consistent kzg ipld (f.apply (answers store shared rows) syncedTo) := by
  have extended : Consistent kzg ipld (f.extend (answers store shared rows) syncedTo) := by
    intro slot e member
    simp only [Flat.extend] at member
    split at member
    · rename_i r found
      exact answers_committed catalogued shared rows r (List.mem_of_find?_eq_some found) e member
    · exact consistent slot e member
  unfold Flat.apply
  split
  · exact extended
  · split
    · exact consistent
    · exact extended

/-- Consistent rows with the same hashes are the same rows: the hash fixes the bytes, and the
bytes fix the block. -/
theorem entries_eq_of_hashes {ys : List RefEntry}
    (injective : ∀ a b vh, kzg.versionedHash a = .ok vh → kzg.versionedHash b = .ok vh → a = b)
    (left : ∀ e ∈ xs, Committed kzg ipld e) (right : ∀ e ∈ ys, Committed kzg ipld e)
    (same : xs.map RefEntry.vh = ys.map RefEntry.vh) : xs = ys := by
  induction xs generalizing ys with
  | nil => simpa using same.symm
  | cons x rest ih =>
    cases ys with
    | nil => simp at same
    | cons y others =>
      simp only [List.map_cons, List.cons.injEq] at same
      obtain ⟨a, hashed, named⟩ := left x List.mem_cons_self
      obtain ⟨b, hashed', named'⟩ := right y List.mem_cons_self
      have bytes : a = b := injective a b x.vh hashed (same.1 ▸ hashed')
      have first : x = y := by
        have blobs : x.blob = y.blob := by rw [named, named', bytes]
        obtain ⟨vh, blob⟩ := x
        obtain ⟨vh', blob'⟩ := y
        exact RefEntry.mk.injEq _ _ _ _ ▸ ⟨same.1, blobs⟩
      rw [first, ih (fun e member => left e (List.mem_cons_of_mem _ member))
        (fun e member => right e (List.mem_cons_of_mem _ member)) same.2]

/-- Blocks with the names that consistent entries give them commit to the entries' hashes. -/
theorem hashes_of_named {blobs : List Block} (consistent : ∀ e ∈ xs, Committed kzg ipld e)
    (named : List.Forall₂ (fun e b => e.blob = some (ipld.sum raw b)) xs blobs) :
    blobs.map kzg.versionedHash = (xs.map RefEntry.vh).map .ok := by
  induction named with
  | nil => rfl
  | cons named rest ih =>
    rename_i e b xs bs
    obtain ⟨bytes, hashed, block⟩ := consistent e List.mem_cons_self
    have same : bytes = b := by
      rw [named, Option.some_inj] at block
      exact (ipld.sum_injective block).symm
    rw [List.map_cons, List.map_cons, List.map_cons, ← hashed, same,
      ih fun e member => consistent e (List.mem_cons_of_mem _ member)]

/-- What a source answers stays true of the source as it grows. -/
theorem Answers.serve {reads : MirrorReads Block} (answers : Answers ipld originSlot g reads)
    (precedes : Precedes originSlot g g') (consistent : Consistent kzg ipld g') :
    reads.Serve kzg originSlot (logOf g') where
  blobs slot blobs found := by
    obtain ⟨covers, named⟩ := answers slot blobs found
    refine ⟨precedes.covers slot covers, ?_⟩
    rw [← precedes.entries slot covers] at named
    exact hashes_of_named (consistent slot) named

def Faithful (pair : Pair σ τ) (g : Flat) (s : System fun _ : Unit => mirror kzg cfg) :
    Event (fun _ : Unit => mirror kzg cfg) → Prop :=
  s.Fair pair.mirrorParams.originSlot (fun _ => Exactly (logOf g).hashes)
    fun _ _ reads => MirrorReads.Serve kzg pair.sourceParams.originSlot (logOf g) reads

theorem Copying.faithful (copying : Copying kzg ipld pair.sourceParams.originSlot g e)
    (precedes : Precedes pair.sourceParams.originSlot g g') (consistent : Consistent kzg ipld g') :
    Faithful pair g' s e := by
  cases e with
  | plan | fetch | fetchAhead | post => exact Answers.serve copying precedes consistent
  | deliver | truncate | setManifest => exact copying.elim
  | prefetch | await | acknowledge | giveUp | restart | expire => trivial

theorem Copying.apart (copying : Copying kzg ipld originSlot g e) : ¬ e.reachesHead := by
  cases e <;> first | exact id | exact fun _ => copying.elim

structure Mirrored (kzg : Kzg Commitment Block) (ipld : Codec) (pair : Pair σ τ) (cfg : MirrorConfig)
    (s : System fun _ : Unit => mirror kzg cfg) (w : World σ) (f : Flat) (v : World τ) (g : Flat) :
    Prop where
  mirrorRun : Run ipld pair.mirrorConfig pair.mirrorPresent pair.mirrorParams w f
  sourceRun : Run ipld pair.sourceConfig pair.sourcePresent pair.sourceParams v g
  log : s.log = logOf f
  consistent : Consistent kzg ipld f
  /-- the indexer's side, judged by any head the source grows into -/
  reached : ∀ g', Precedes pair.sourceParams.originSlot g g' → Consistent kzg ipld g' →
    System.Reaches pair.mirrorParams.originSlot (Faithful pair g') (System.fresh _ none) s

theorem grows_precedes (durable : Durable ipld pair.sourceConfig pair.sourcePresent)
    (run : Run ipld pair.sourceConfig pair.sourcePresent pair.sourceParams v g) (rows : List RefRow)
    (syncedTo : Nat) :
    Precedes pair.sourceParams.originSlot g
      (g.after (answers pair.sourceConfig v.shared) (.applyRefs rows syncedTo)
        ((Call.applyRefs rows syncedTo).perform ipld pair.sourceConfig v).1) := by
  rcases performed : (Call.applyRefs rows syncedTo).perform ipld pair.sourceConfig v with ⟨outcome, v'⟩
  cases outcome with
  | error e => exact Precedes.refl _ _
  | ok u =>
    rw [Call.perform, Fallible.bind_ok_iff] at performed
    obtain ⟨r, middle, ran, -⟩ := performed
    exact Run.applyRefs_precedes run durable ran

theorem MirrorRun.mirrored (run : MirrorRun kzg ipld pair cfg s w f v g)
    (durable : Durable ipld pair.mirrorConfig pair.mirrorPresent)
    (sourceDurable : Durable ipld pair.sourceConfig pair.sourcePresent)
    (catalogued : Catalogued kzg ipld pair.mirrorConfig) : Mirrored kzg ipld pair cfg s w f v g := by
  induction run with
  | start made source =>
    refine ⟨.new made, source, rfl, fun slot e member => ?_, fun _ _ _ => .refl⟩
    cases member
  | indexer run copying taken ih =>
    refine { ih with log := ?_, reached := fun g' precedes consistent => ?_ }
    · rw [← ih.log]
      exact (System.step_log copying.apart taken).1
    · exact (ih.reached g' precedes consistent).step (copying.faithful precedes consistent) taken
  | accepted run member bound ran ih =>
    rename_i s w f v g request b r w'
    obtain ⟨m, represents, agrees⟩ := ih.mirrorRun.represents durable
    have applied := applyRefs_log durable.upholds (present_unobserved _) represents agrees ran
    refine ⟨(ih.mirrorRun.applied durable ran).1, ih.sourceRun, rfl,
      ih.consistent.apply catalogued _ _ _, fun g' precedes consistent => ?_⟩
    refine (ih.reached g' precedes consistent).step (e := .deliver request b) trivial ?_
    simp only [System.step, if_pos member, System.receive, bound, ih.log, applied, Option.map_some]
  | refused run ran ih =>
    rename_i s w f v g b e w'
    have performed : (Call.applyRefs b.rows b.last).perform ipld pair.mirrorConfig w =
        (.error e, w') := by
      rw [Call.perform, Fallible.bind_run, ran]
    have called := ih.mirrorRun.call (.applyRefs b.rows b.last)
    rw [performed] at called
    exact { ih with mirrorRun := called }
  | around run shared history kept ih =>
    exact { ih with mirrorRun := ih.mirrorRun.around shared history kept }
  | reopened run loaded ih => exact { ih with mirrorRun := ih.mirrorRun.reopened loaded }
  | grows run rows syncedTo ih =>
    refine { ih with
      sourceRun := ih.sourceRun.call (.applyRefs rows syncedTo)
      reached := fun g' precedes consistent => ?_ }
    exact ih.reached g' ((grows_precedes sourceDurable ih.sourceRun rows syncedTo).trans precedes)
      consistent
  | sourceAround run shared history kept ih =>
    exact { ih with sourceRun := ih.sourceRun.around shared history kept }
  | sourceReopened run loaded ih => exact { ih with sourceRun := ih.sourceRun.reopened loaded }

theorem Mirrored.entries (mirrored : Mirrored kzg ipld pair cfg s w f v g)
    (injective : ∀ a b vh, kzg.versionedHash a = .ok vh → kzg.versionedHash b = .ok vh → a = b)
    (consistent : Consistent kzg ipld g)
    (readsOrigin : cfg.originSlot = pair.mirrorParams.originSlot) (synced : f.synced = some t) :
    (∃ far, g.synced = some far ∧ t ≤ far) ∧
      ∀ slot, pair.mirrorParams.originSlot ≤ slot → slot ≤ t → f.entries slot = g.entries slot := by
  have contract : Contract (mirror kzg cfg) cfg.originSlot (fun _ => Exactly (logOf g).hashes)
      (fun slot => (logOf g).Covers pair.sourceParams.originSlot slot)
      (fun _ reads => reads.Serve kzg pair.sourceParams.originSlot (logOf g)) :=
    mirrorContract kzg cfg (fun reads serve slot vhs => serve.hashes)
      fun reads serve slot blobs answer => (serve.blobs slot blobs answer).1
  rw [readsOrigin] at contract
  have reached := mirrored.reached g (Precedes.refl _ _) consistent
  have sound : s.Sound fun _ : Unit => contract :=
    System.Reaches.sound reached (System.sound_fresh _ none)
  have head : s.log.synced = some t := by rw [mirrored.log]; exact synced
  constructor
  · obtain ⟨far, le, -, end_, at_end, within⟩ := sound.within t head
    exact ⟨end_, at_end, Nat.le_trans le within⟩
  · intro slot ge le
    have hashes := sound.records slot ⟨ge, t, head, le⟩
    rw [mirrored.log] at hashes
    exact entries_eq_of_hashes injective (mirrored.consistent slot) (consistent slot) hashes

/-- A mirror with its source's parameters is the source, cut where the mirror ends. -/
theorem Mirrored.cut (mirrored : Mirrored kzg ipld pair cfg s w f v g)
    (durable : Durable ipld pair.mirrorConfig pair.mirrorPresent)
    (sourceDurable : Durable ipld pair.sourceConfig pair.sourcePresent)
    (same : pair.mirrorParams = pair.sourceParams) (synced : f.synced = some t)
    (entries : ∀ slot, pair.mirrorParams.originSlot ≤ slot → slot ≤ t →
      f.entries slot = g.entries slot) : f = g.cut t := by
  ext1
  · exact synced
  · funext slot
    simp only [Flat.cut]
    by_cases inside : slot ≤ t
    · rw [if_pos inside]
      by_cases before : slot < pair.mirrorParams.originSlot
      · -- neither head has anything below the origin
        rw [Run.entries_outside mirrored.mirrorRun durable fun covers => by have := covers.1; omega]
        rw [Run.entries_outside mirrored.sourceRun sourceDurable fun covers => by
          have := covers.1; rw [← same] at this; omega]
      · exact entries slot (Nat.le_of_not_lt before) inside
    · rw [if_neg inside]
      refine Run.entries_outside mirrored.mirrorRun durable ?_
      rintro ⟨-, end_, at_end, le⟩
      cases synced.symm.trans at_end
      exact inside le

/-- Mirror mode reproduces its source: whatever the order of its steps, its failures and its
restarts, and however the source grows meanwhile, its rows are the source's; with the source's
parameters its root is that of the source cut where the mirror ends. -/
theorem mirror_reproduces_source (run : MirrorRun kzg ipld pair cfg s w f v g)
    (durable : Durable ipld pair.mirrorConfig pair.mirrorPresent)
    (sourceDurable : Durable ipld pair.sourceConfig pair.sourcePresent)
    (catalogued : Catalogued kzg ipld pair.mirrorConfig)
    (injective : ∀ a b vh, kzg.versionedHash a = .ok vh → kzg.versionedHash b = .ok vh → a = b)
    (consistent : Consistent kzg ipld g) (readsOrigin : cfg.originSlot = pair.mirrorParams.originSlot)
    {t : Nat} (synced : f.synced = some t) :
    (∀ slot, pair.mirrorParams.originSlot ≤ slot → slot ≤ t → f.entries slot = g.entries slot) ∧
      (pair.mirrorParams = pair.sourceParams →
        f = g.cut t ∧
        (∀ root v', truncate ipld pair.sourceConfig t v = (.ok root, v') → w.cur.root = root) ∧
        (g.synced = some t → w.cur.root = v.cur.root)) := by
  have mirrored := run.mirrored durable sourceDurable catalogued
  obtain ⟨within, entries⟩ := mirrored.entries injective consistent readsOrigin synced
  refine ⟨entries, fun same => ?_⟩
  have cut := mirrored.cut durable sourceDurable same synced entries
  have sourceRun : Run ipld pair.sourceConfig pair.sourcePresent pair.mirrorParams v g :=
    same ▸ mirrored.sourceRun
  refine ⟨cut, ?_, ?_⟩
  · intro root v' truncated
    obtain ⟨cutRun, rfl⟩ := sourceRun.truncated sourceDurable truncated
    rw [← cut] at cutRun
    rw [mirrored.mirrorRun.cur_eq durable cutRun sourceDurable]
  · intro caughtUp
    have whole : g.cut t = g := by
      ext1
      · exact caughtUp.symm
      · funext slot
        simp only [Flat.cut]
        split
        · rfl
        · rename_i past
          refine (Run.entries_outside sourceRun sourceDurable ?_).symm
          rintro ⟨-, end_, at_end, le⟩
          cases caughtUp.symm.trans at_end
          exact past le
    rw [← whole, ← cut] at sourceRun
    rw [mirrored.mirrorRun.cur_eq durable sourceRun sourceDurable]

/-! ### A mirror in memory -/

def plainBytes (block : Block) : Bytes :=
  block.filterMap fun
    | .byte value => some value
    | .digest _ _ => none

/-- A toy hashing: a blob is the bytes of its own hash. -/
def blockKzg : Kzg Unit Block where
  versionedHashFromCommitment _ := sampleHash
  versionedHash block :=
    if h : (plainBytes block).length = versionedHashSize ∧ (plainBytes block).map Octet.byte = block
    then .ok ⟨plainBytes block, h.1⟩ else .error "not a blob"

theorem blockKzg_ok {block : Block} {vh : VersionedHash}
    (hashed : blockKzg.versionedHash block = .ok vh) : block = sampleBlob vh := by
  simp only [blockKzg] at hashed
  split at hashed
  · rename_i plain
    cases hashed
    exact plain.2.symm
  · cases hashed

theorem plainBytes_sampleBlob (vh : VersionedHash) : plainBytes (sampleBlob vh) = vh.bytes := by
  simp [plainBytes, sampleBlob, List.filterMap_map]

theorem blockKzg_sampleBlob (vh : VersionedHash) :
    blockKzg.versionedHash (sampleBlob vh) = .ok vh := by
  have plain := plainBytes_sampleBlob vh
  simp only [blockKzg, plain]
  rw [dif_pos ⟨vh.size_eq, rfl⟩]

def samplePair : Pair (List Block) (List Block) where
  mirrorConfig := Archive.sampleConfig
  mirrorPresent := InMemory DagCbor.codec
  mirrorParams := sampleParams
  sourceConfig := Archive.sampleConfig
  sourcePresent := InMemory DagCbor.codec
  sourceParams := sampleParams

def sampleMirror : MirrorConfig :=
  { originSlot := 5, batchSize := 10, fetchConcurrency := 1, maxPutBlobs := 64 }

def sampleSource : MirrorReads Block where
  originSlot := .ok 5
  finalizedSlot := .ok (some 9)
  blobs slot :=
    if 5 ≤ slot ∧ slot ≤ 9 then .found (if slot = 7 then [sampleBlob sampleHash] else [])
    else .notYetCovered
  putBlobs _ := .ok [sampleHash]

theorem sampleSource_answers : Answers DagCbor.codec 5 sampleFlat sampleSource := by
  intro slot blobs found
  simp only [sampleSource] at found
  split at found
  · rename_i inside
    cases found
    refine ⟨⟨inside.1, 9, rfl, inside.2⟩, ?_⟩
    by_cases at_row : slot = 7
    · subst at_row
      exact .cons rfl .nil
    · have none : sampleFlat.entries slot = [] := by
        simp [sampleFlat, Flat.extend, Flat.empty, blobRows, sampleRows, Ne.symm at_row]
      rw [none, if_neg at_row]
      exact .nil
  · cases found

theorem sampleFlat_consistent : Consistent blockKzg DagCbor.codec sampleFlat := by
  intro slot e member
  simp only [sampleFlat, Flat.extend] at member
  split at member
  · rename_i r found
    obtain ⟨refRow, -, rfl⟩ := List.mem_map.mp (List.mem_of_find?_eq_some found)
    obtain ⟨vh, -, rfl⟩ := List.mem_map.mp member
    exact ⟨sampleBlob vh, blockKzg_sampleBlob vh, rfl⟩
  · cases member

theorem sampleConfig_catalogued : Catalogued blockKzg DagCbor.codec Archive.sampleConfig := by
  intro resolve vh shared c after resolver asked
  cases resolver
  cases asked
  exact ⟨sampleBlob vh, blockKzg_sampleBlob vh, rfl⟩

theorem MirrorRun.indexers {events : List (Event fun _ : Unit => mirror kzg cfg)}
    {s' : System fun _ : Unit => mirror kzg cfg} (run : MirrorRun kzg ipld pair cfg s w f v g)
    (copying : ∀ e ∈ events, Copying kzg ipld pair.sourceParams.originSlot g e)
    (ran : System.run pair.mirrorParams.originSlot events s = some s') :
    MirrorRun kzg ipld pair cfg s' w f v g := by
  induction events generalizing s with
  | nil =>
    cases ran
    exact run
  | cons e rest ih =>
    obtain ⟨middle, taken, later⟩ := Option.bind_eq_some_iff.mp ran
    exact ih (run.indexer (copying e List.mem_cons_self) taken)
      (fun e member => copying e (List.mem_cons_of_mem _ member)) later

def samplePass : List (Event fun _ : Unit => mirror blockKzg sampleMirror) :=
  [.plan () sampleSource, .fetch () sampleSource, .post () sampleSource]

def sampleBatch : Batch :=
  { start := 5, last := 9, rows := sampleRows, expectedManifest := none }

theorem samplePass_posted : (System.run 5 samplePass (System.fresh _ none)).map
    (fun s => (s.posted, s.tip)) = some ([(0, sampleBatch)], none) := by
  decide +kernel

theorem sampleMirror_run : ∃ s w v,
    MirrorRun blockKzg DagCbor.codec samplePair sampleMirror s w sampleFlat v sampleFlat := by
  let w := (Archive.new DagCbor.codec Archive.sampleConfig sampleParams (newHead [] sampleParams)).2
  have made : Archive.new DagCbor.codec Archive.sampleConfig sampleParams (newHead [] sampleParams) =
      (.ok (), w) := returned (by decide +kernel)
  have started : MirrorRun blockKzg DagCbor.codec samplePair sampleMirror (System.fresh _ none) w
    .empty sampleApplied sampleFlat := .start made sampleApplied_run
  obtain ⟨s, ran, posted⟩ := Option.map_eq_some_iff.mp samplePass_posted
  have copying : ∀ e ∈ samplePass, Copying blockKzg DagCbor.codec 5 sampleFlat e := by
    intro e member
    simp only [samplePass, List.mem_cons, List.not_mem_nil, or_false] at member
    rcases member with rfl | rfl | rfl <;> exact sampleSource_answers
  have scanned := started.indexers copying ran
  have kept : ∀ c, InMemory DagCbor.codec w.shared c →
      InMemory DagCbor.codec (sampleBlob sampleHash :: w.shared) c :=
    fun c ⟨b, member, same⟩ => ⟨b, List.mem_cons_of_mem _ member, same⟩
  have supplied := scanned.around (sampleBlob sampleHash :: w.shared) [] kept
  obtain ⟨result, answer⟩ := Option.isSome_iff_exists.mp (show
    (applyRefs DagCbor.codec Archive.sampleConfig sampleRows 9
      { w with shared := sampleBlob sampleHash :: w.shared, history := [] }).1.toOption.isSome from
    by decide +kernel)
  have applied := returned (ok_of_toOption answer)
  have answered : answers Archive.sampleConfig (sampleBlob sampleHash :: w.shared) sampleRows =
      blobRows DagCbor.codec sampleBlob sampleRows := by decide +kernel
  have member : (0, sampleBatch) ∈ s.posted := by rw [(Prod.mk.inj posted).1]; simp
  have bound : checkManifestBinding s.tip sampleBatch.expectedManifest = .ok () := by
    rw [(Prod.mk.inj posted).2]; rfl
  have landed := supplied.accepted member bound applied
  simp only [samplePair, sampleBatch, answered] at landed
  exact ⟨_, _, _, landed⟩

theorem mirror_reproduces_source_sample : ∃ s w v,
    MirrorRun blockKzg DagCbor.codec samplePair sampleMirror s w sampleFlat v sampleFlat ∧
      w.cur.root = v.cur.root := by
  obtain ⟨s, w, v, run⟩ := sampleMirror_run
  have durable := (memory_reliable DagCbor.codec sampleBlob).toDurable
  have same := mirror_reproduces_source run durable durable sampleConfig_catalogued
    (fun a b vh left right => (blockKzg_ok left).trans (blockKzg_ok right).symm)
    sampleFlat_consistent rfl (t := 9) rfl
  exact ⟨s, w, v, run, (same.2 rfl).2.2 rfl⟩

end Mirrors

end Bloar.Beacon
