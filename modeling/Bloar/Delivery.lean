import Bloar.Refinement

/-!
Delivery of batches at least once. A writer that does not know whether a batch was accepted
sends it again; the head answers an accepted batch with a no-op at its current root, however far
it has grown in the meantime, and it tells a replay from a batch that contradicts it.
-/

namespace Bloar.Archive
open Ipld Schema Fallible
variable {σ : Type}

/-! ### Reads -/

/-- Nothing of the head has changed; the store around it may have noticed the reads. -/
def ReadsOnly (w w' : World σ) : Prop := w' = { w with shared := w'.shared }

instance readsOnly_preorder : Fallible.Preorder (ReadsOnly : World σ → World σ → Prop) where
  refl _ := rfl
  trans := by
    intro a b c first second
    unfold ReadsOnly at *
    rw [second, first]

theorem getBlock_reads (cfg : Config σ) (c : Cid) : Keeps ReadsOnly (getBlock cfg c) := by
  intro w
  rcases getBlock_cases cfg c w with ⟨block, -, ran⟩ | ⟨e, ran⟩
  · rw [ran]
    rfl
  · rw [ran]
    rfl

/-! ### Batches -/

structure Sent where
  rows : List RefRow
  newSyncedTo : Nat
  deriving DecidableEq, Repr

def Sent.call (b : Sent) : Call := .applyRefs b.rows b.newSyncedTo

def Flat.Stores (f : Flat) (rows : List RefRow) : Prop :=
  ∀ r ∈ rows, (f.entries r.slot).map RefEntry.vh = r.vhs

instance (f : Flat) (rows : List RefRow) : Decidable (f.Stores rows) :=
  inferInstanceAs (Decidable (∀ r ∈ rows, _))

/-- A head of a run, with the batches that it has accepted since some point of the run, none of
which a truncation has come after. Batches that are refused and batches that are sent again are
among those sent. -/
inductive Delivered (ipld : Codec) (cfg : Config σ) (present : σ → Cid → Prop) (params : Params) :
    World σ → Flat → List Sent → Prop where
  | start {w : World σ} {f : Flat} (run : Run ipld cfg present params w f) :
      Delivered ipld cfg present params w f []
  | sent {w : World σ} {f : Flat} {accepted : List Sent}
      (before : Delivered ipld cfg present params w f accepted) (b : Sent) :
      Delivered ipld cfg present params (b.call.perform ipld cfg w).2
        (f.after (answers cfg w.shared) b.call (b.call.perform ipld cfg w).1)
        (match (b.call.perform ipld cfg w).1 with
          | .ok _ => b :: accepted
          | .error _ => accepted)
  | around {w : World σ} {f : Flat} {accepted : List Sent}
      (before : Delivered ipld cfg present params w f accepted) (shared : σ) (history : List Event)
      (kept : ∀ c, present w.shared c → present shared c) :
      Delivered ipld cfg present params { w with shared, history } f accepted
  | reopened {w w' : World σ} {f : Flat} {accepted : List Sent}
      (before : Delivered ipld cfg present params w f accepted)
      (loaded : load ipld cfg w.cur.root (newHead w.shared params) = (.ok (), w')) :
      Delivered ipld cfg present params w' f accepted

section Delivery
variable {ipld : Codec} {cfg : Config σ} {present : σ → Cid → Prop} {params : Params}
variable {w w' : World σ} {f : Flat} {m : Contents} {accepted : List Sent}
variable {rows : List RefRow} {newSyncedTo : Nat}

theorem Delivered.run (delivered : Delivered ipld cfg present params w f accepted) :
    Run ipld cfg present params w f := by
  induction delivered with
  | start run => exact run
  | sent before b ih => exact ih.call b.call
  | around before shared history kept ih => exact ih.around shared history kept
  | reopened before loaded ih => exact ih.reopened loaded

theorem Agrees.stores_iff (agrees : Agrees m f) (valid : m.Valid params)
    (filled : ∀ r ∈ rows, 0 < r.vhs.length) : f.Stores rows ↔ Carries m rows := by
  refine forall₂_congr fun r member => ?_
  rw [carries_row_iff valid.ascending, agrees.entries]
  have some_vh := filled r member
  cases found : m.rows.find? fun row => row.slot = r.slot with
  | none =>
    simp only [Option.map_none, Option.getD_none, List.map_nil]
    constructor
    · intro none
      rw [← none] at some_vh
      cases some_vh
    · rintro ⟨row, impossible, -⟩
      cases impossible
  | some row => simp

def Recorded (params : Params) (m : Contents) (b : Sent) : Prop :=
  Shaped params.originSlot b.newSyncedTo b.rows ∧ Replays m b.rows b.newSyncedTo

theorem Carries.append (carries : Carries m rows) (coverage : Option Nat) (out : List Row) :
    Carries ⟨coverage, m.rows ++ out⟩ rows := by
  intro r member
  obtain ⟨row, inside, same⟩ := carries r member
  exact ⟨row, List.mem_append_left _ inside, same⟩

theorem carries_resolved {out : List Row} (resolved : List.Forall₂ Resolved rows out)
    (coverage : Option Nat) (before : List Row) : Carries ⟨coverage, before ++ out⟩ rows := by
  intro r member
  obtain ⟨i, bound, rfl⟩ := List.getElem_of_mem member
  have bound' : i < out.length := resolved.length_eq ▸ bound
  have same := resolved.get bound bound'
  exact ⟨out[i], List.mem_append_right _ (List.getElem_mem bound'), same.slot, same.vhs⟩

theorem applyRefs_shaped {r : ApplyResult}
    (ran : applyRefs ipld cfg rows newSyncedTo w = (.ok r, w')) :
    Shaped w.cur.params.originSlot newSyncedTo rows := by
  rw [applyRefs, bind_ok_iff] at ran
  obtain ⟨_, _, ⟨⟩, ran⟩ := ran
  rw [bind_ok_iff] at ran
  obtain ⟨u, middle, shape, -⟩ := ran
  rw [← validateShape_ok_iff (u := u)]
  cases checked : validateShape w.cur rows newSyncedTo with
  | ok u => rfl
  | error e =>
    rw [checked] at shape
    cases shape

theorem Recorded.sent (durable : Durable ipld cfg present)
    (represents : Represents ipld params (Present present) w m) (agrees : Agrees m f) {b : Sent}
    (ran : b.call.perform ipld cfg w = (.ok (), w')) :
    ∃ m', Agrees m' (f.step (answers cfg w.shared) b.call) ∧ m'.Valid params ∧
      Recorded params m' b ∧ ∀ earlier, Recorded params m earlier → Recorded params m' earlier := by
  simp only [Sent.call, Call.perform, bind_ok_iff] at ran
  obtain ⟨r, after, applied, ⟨⟩⟩ := ran
  have shaped := applyRefs_shaped applied
  rw [represents.toIndexed.params_eq] at shaped
  rcases post_ok (durable.upholds.applyRefs_spec (present_unobserved present) represents) applied with
    ⟨-, replays, -, -, -⟩ | ⟨-, -, -, out, middle, resolved, extended⟩
  · refine ⟨m, ?_, represents.valid, ⟨shaped, replays⟩, fun _ kept => kept⟩
    rw [Sent.call, Flat.step, agrees.apply_replays replays]
    exact agrees
  · refine ⟨_, ?_, extended.represents.valid,
      ⟨shaped, ⟨_, rfl, le_rfl⟩, carries_resolved extended.resolved _ _⟩, ?_⟩
    · rw [Sent.call, Flat.step, resolveRows_answers resolved, agrees.apply_extends extended.advances]
      exact agrees.extend represents.valid extended.resolved extended.advances
    · rintro earlier ⟨shape, ⟨s, covered, back⟩, carries⟩
      have grown := (extended.advances s covered).1
      exact ⟨shape, ⟨_, rfl, back.trans grown.le⟩, carries.append _ _⟩

theorem Delivered.kept (delivered : Delivered ipld cfg present params w f accepted)
    (durable : Durable ipld cfg present) :
    ∃ m, Agrees m f ∧ m.Valid params ∧ ∀ b ∈ accepted, Recorded params m b := by
  induction delivered with
  | start run =>
    obtain ⟨m, represents, agrees⟩ := run.represents durable
    exact ⟨m, agrees, represents.valid, by simp⟩
  | @sent w f accepted before b ih =>
    obtain ⟨m, agrees, valid, kept⟩ := ih
    obtain ⟨m', represents, agrees'⟩ := before.run.represents durable
    -- the contents are a function of the flat map
    obtain rfl := agrees'.unique agrees represents.valid valid
    rcases ran : b.call.perform ipld cfg w with ⟨outcome, after⟩
    cases outcome with
    | ok u =>
      obtain ⟨m'', grown, valid', new, old⟩ := Recorded.sent durable represents agrees ran
      refine ⟨m'', grown, valid', fun b' member => ?_⟩
      rcases List.mem_cons.mp member with rfl | earlier
      · exact new
      · exact old b' (kept b' earlier)
    | error e => exact ⟨m', agrees, valid, kept⟩
  | around before shared history unchanged ih => exact ih
  | reopened before loaded ih => exact ih

theorem Upholds.applyRefs_replays {holds : World σ → Cid → Prop} {unread flaky : Prop}
    (up : Upholds ipld cfg holds unread flaky) (represents : Represents ipld params holds w m)
    (shaped : Shaped params.originSlot newSyncedTo rows) (replays : Replays m rows newSyncedTo) :
    Post (applyRefs ipld cfg rows newSyncedTo) w
      (fun r after => r = ⟨w.cur.syncedTo, w.cur.root, true, ⟨0, []⟩⟩ ∧ ReadsOnly w after)
      (fun _ => unread) := by
  have indexed := represents.toIndexed
  obtain ⟨⟨s, covered, back⟩, carries⟩ := replays
  have shape : validateShape w.cur rows newSyncedTo = .ok () := by
    rw [validateShape_ok_iff, indexed.params_eq]
    exact shaped
  have inside : ∀ r ∈ rows, r.slot ≤ s := fun r member => (shaped.before_end r member).trans back
  refine post_get_bind (post_ofExcept_bind (by simp [shape]) fun _ _ => ?_)
  refine post_ite (fun _ => ?_) fun extends_ => absurd ?_ extends_
  · refine post_bind (verifyReplay_keeps (getBlock_reads cfg) _ _) (post_raised (up.verifyReplay_spec indexed
      covered shaped.after_origin inside) fun _ raised => ?_) ?_
    · exact raised.resolve_right fun missing => missing carries
    · intro _ after _ reads
      exact post_pure ⟨rfl, reads⟩
  · rw [indexed.syncedTo_eq covered, indexed.covered_eq, covered]
    exact ⟨rfl, back, lastSlot_le inside⟩

def Conflicts (x : Except Error Unit) : Prop := ∀ e, x = .error e → ∃ reason, e = .conflict reason

theorem conflicts_unless (holds : Prop) [Decidable holds] (reason : String) :
    Conflicts (conflictUnless holds reason) := by
  intro e raised
  unfold conflictUnless at raised
  split at raised
  · cases raised
  · cases raised
    exact ⟨reason, rfl⟩

theorem Conflicts.bind {x : Except Error Unit} {next : Unit → Except Error Unit} (first : Conflicts x)
    (second : Conflicts (next ())) : Conflicts (x >>= next) := by
  cases x with
  | ok u => exact second
  | error e =>
    rintro e' ⟨⟩
    exact first e rfl

theorem validateShapeFrom_conflicts (originSlot newSyncedTo : Nat) (rows : List RefRow) (i : Nat)
    (previous : Option Nat) : Conflicts (validateShapeFrom originSlot newSyncedTo i previous rows) := by
  induction rows generalizing i previous with
  | nil => simp [Conflicts, validateShapeFrom]
  | cons r rest ih =>
    refine (conflicts_unless _ _).bind ((conflicts_unless _ _).bind ((conflicts_unless _ _).bind ?_))
    exact (conflicts_unless _ _).bind ((conflicts_unless _ _).bind (ih _ _))

theorem overlap_conflicts (syncedTo newSyncedTo : Nat) (rows : List RefRow) (i : Nat) :
    Conflicts (overlap syncedTo newSyncedTo i rows) := by
  induction rows generalizing i with
  | nil => simp [Conflicts, overlap]
  | cons r rest ih => exact (conflicts_unless _ _).bind (ih _)

/-- A batch that goes over the end of coverage from within is refused before anything is read. -/
theorem applyRefs_straddles (isCovered : w.cur.covered = true)
    (beyond : w.cur.syncedTo < newSyncedTo) (touches : ∃ r ∈ rows, r.slot ≤ w.cur.syncedTo) :
    ∃ reason, applyRefs ipld cfg rows newSyncedTo w = (.error (.conflict reason), w) := by
  have start : applyRefs ipld cfg rows newSyncedTo w =
      (ofExcept (validateShape w.cur rows newSyncedTo) >>= fun _ =>
        (if w.cur.covered = true ∧ newSyncedTo ≤ w.cur.syncedTo ∧ lastSlot rows ≤ w.cur.syncedTo then do
          verifyReplay ipld cfg w.cur rows
          pure { syncedTo := w.cur.syncedTo, root := w.cur.root, noOp := true, index := ⟨0, []⟩ }
        else do
          ofExcept (if w.cur.covered then overlap w.cur.syncedTo newSyncedTo 0 rows else .ok ())
          let resolved ← resolveRows cfg rows
          applyResolved ipld cfg w.cur resolved newSyncedTo)) w := rfl
  rw [start]
  cases shape : validateShape w.cur rows newSyncedTo with
  | error e =>
    have conflicts : Conflicts (validateShape w.cur rows newSyncedTo) :=
      (conflicts_unless _ _).bind (validateShapeFrom_conflicts _ _ _ _ _)
    obtain ⟨reason, rfl⟩ := conflicts e shape
    exact ⟨reason, rfl⟩
  | ok u =>
    rw [bind_of_ok (show (ofExcept (.ok u) : Engine σ Unit) w = (.ok u, w) from rfl)]
    rw [if_neg (fun back => absurd back.2.1 (by omega)), isCovered, if_pos rfl]
    cases overlaps : overlap w.cur.syncedTo newSyncedTo 0 rows with
    | ok u =>
      obtain ⟨r, member, inside⟩ := touches
      have outside := overlap_ok_iff.mp overlaps r member
      omega
    | error e =>
      obtain ⟨reason, rfl⟩ := overlap_conflicts _ _ _ _ e overlaps
      exact ⟨reason, rfl⟩

theorem Agrees.covered {s : Nat} (agrees : Agrees m f)
    (represents : Represents ipld params (Present present) w m) (synced : f.synced = some s) :
    w.cur.covered = true ∧ w.cur.syncedTo = s := by
  have coverage : m.coverage = some s := agrees.synced.symm.trans synced
  exact ⟨by rw [represents.toIndexed.covered_eq, coverage]; rfl,
    represents.toIndexed.syncedTo_eq coverage⟩

/-- Batches can be delivered more than once. A batch that was accepted, or that is well shaped
and holds nothing but stored rows, is answered with a no-op at the current root, and nothing of
the head changes; a no-op is only ever the answer to stored rows; and a batch that touches
covered slots and would advance coverage is refused. -/
theorem resent_batch_noOp (reliable : Reliable ipld cfg present)
    (delivered : Delivered ipld cfg present params w f accepted) (b : Sent) :
    ((b ∈ accepted ∨ Shaped params.originSlot b.newSyncedTo b.rows ∧ f.Stores b.rows ∧
        ∃ s, f.synced = some s ∧ b.newSyncedTo ≤ s) →
      ∃ s after, f.synced = some s ∧ applyRefs ipld cfg b.rows b.newSyncedTo w =
        (.ok ⟨s, w.cur.root, true, ⟨0, []⟩⟩, after) ∧ ReadsOnly w after) ∧
    (∀ r after, applyRefs ipld cfg b.rows b.newSyncedTo w = (.ok r, after) → r.noOp = true →
      f.Stores b.rows) ∧
    ∀ s, f.synced = some s → s < b.newSyncedTo → (∃ r ∈ b.rows, r.slot ≤ s) →
      ∃ reason, applyRefs ipld cfg b.rows b.newSyncedTo w = (.error (.conflict reason), w) := by
  obtain ⟨m, agrees, valid, kept⟩ := delivered.kept reliable.toDurable
  obtain ⟨m', represents, agrees'⟩ := delivered.run.represents reliable.toDurable
  obtain rfl := agrees'.unique agrees represents.valid valid
  refine ⟨fun resent => ?_, fun r after ran noOp => ?_, fun s synced beyond touches => ?_⟩
  · have replayed : Recorded params m' b := by
      rcases resent with member | ⟨shaped, stores, s, synced, back⟩
      · exact kept b member
      · exact ⟨shaped, ⟨s, agrees.synced.symm.trans synced, back⟩,
          (agrees.stores_iff valid shaped.filled).mp stores⟩
    obtain ⟨shaped, replays⟩ := replayed
    obtain ⟨r, after, ran, rfl, reads⟩ := post_returns
      (reliable.upholds.applyRefs_replays represents shaped replays) fun _ impossible => impossible
    obtain ⟨s, coverage, -⟩ := replays.1
    have synced : f.synced = some s := agrees.synced.trans coverage
    refine ⟨s, after, synced, ?_, reads⟩
    rw [ran, (agrees.covered represents synced).2]
  · have shaped := applyRefs_shaped ran
    rcases post_ok (reliable.upholds.applyRefs_spec (present_unobserved present) represents) ran with
      ⟨-, replays, -⟩ | ⟨extended, -⟩
    · exact (agrees.stores_iff valid shaped.filled).mpr replays.2
    · rw [noOp] at extended
      cases extended
  · obtain ⟨isCovered, same⟩ := agrees.covered represents synced
    subst same
    exact applyRefs_straddles isCovered beyond touches

theorem sampleDelivered : ∃ w, Delivered DagCbor.codec sampleConfig (InMemory DagCbor.codec)
    sampleParams w sampleFlat [⟨sampleRows, 9⟩] := by
  have sent := (Delivered.start sampleNew_run).sent ⟨sampleRows, 9⟩
  have ran : ((Call.applyRefs sampleRows 9).perform DagCbor.codec sampleConfig sampleNew).1 = .ok () := by
    decide +kernel
  have answered : answers sampleConfig sampleNew.shared sampleRows =
      blobRows DagCbor.codec sampleBlob sampleRows := by decide +kernel
  rw [Sent.call, ran] at sent
  simp only [Flat.after, Flat.step] at sent
  rw [answered] at sent
  exact ⟨_, sent⟩

theorem resent_batch_noOp_sample : ∃ w s after,
    Delivered DagCbor.codec sampleConfig (InMemory DagCbor.codec) sampleParams w sampleFlat
      [⟨sampleRows, 9⟩] ∧
    applyRefs DagCbor.codec sampleConfig sampleRows 9 w =
      (.ok ⟨s, w.cur.root, true, ⟨0, []⟩⟩, after) ∧ ReadsOnly w after := by
  obtain ⟨w, delivered⟩ := sampleDelivered
  obtain ⟨resent, -, -⟩ := resent_batch_noOp (memory_reliable DagCbor.codec sampleBlob) delivered
    ⟨sampleRows, 9⟩
  obtain ⟨s, after, -, ran, reads⟩ := resent (.inl (by simp))
  exact ⟨w, s, after, delivered, ran, reads⟩

/-- Stored rows alone do not make a replay: a batch that ends before its own last row is not
well shaped, and it is refused. -/
theorem stored_rows_refused : ∃ w,
    Delivered DagCbor.codec sampleConfig (InMemory DagCbor.codec) sampleParams w sampleFlat
      [⟨sampleRows, 9⟩] ∧
    sampleFlat.Stores sampleRows ∧ sampleFlat.synced = some 9 ∧
    ∀ r after, applyRefs DagCbor.codec sampleConfig sampleRows 6 w ≠ (.ok r, after) := by
  obtain ⟨w, delivered⟩ := sampleDelivered
  refine ⟨w, delivered, by decide, rfl, fun r after ran => ?_⟩
  have shaped := applyRefs_shaped ran
  have late := shaped.before_end ⟨7, [sampleHash]⟩ (by simp [sampleRows])
  simp at late

end Delivery

end Bloar.Archive
