import Bloar.Collector
import Bloar.Presence

/-!
What staging promises a writer: a blob whose put has returned stays until its row
expires or the writer's refs have landed. Rows are keyed by blob alone, so the refs
of one writer drop the row that another writer relies on. `Run` keeps, beside the
node, the puts that have returned and whose refs have not landed.
-/

namespace Bloar.Pinning
open Ipld Archive Store

/-- A put that has returned and whose refs have not landed; the expiry is that of the
row it wrote. -/
structure Debt where
  writer : Nat
  cid : Cid
  expiry : Nat

def debtsOf (setup : Setup) (v : Vault) (writer : Nat) (blobs : List PutBlob) : List Debt :=
  blobs.map fun b => ⟨writer, setup.ipld.sum raw b.data, (v.now + setup.ttl) / 1000000000⟩

def settleDebts (debts : List Debt) (writer : Nat) (rows : List Cid) : List Debt :=
  debts.filter fun d => ¬ (d.writer = writer ∧ d.cid ∈ rows)

abbrev RefsRule := Vault → List Debt → Nat → List Cid → Prop

/-- The interleavings of puts, publications with their drops, and everything else a node
does, in which every batch of refs meets the rule. A drop that fails is only logged. -/
inductive Run (setup : Setup) (rule : RefsRule) : Vault → List Debt → Prop where
  | start {v : Vault} (idle : v.collector = .idle) (quiet : v.epochs.active = none) :
      Run setup rule v []
  | put {v : Vault} {debts : List Debt} (run : Run setup rule v debts) (writer : Nat)
      (blobs : List PutBlob) (pinned : Bool) :
      Run setup rule (v.putBlobs setup blobs pinned).2
        (if (v.putBlobs setup blobs pinned).1 then debtsOf setup v writer blobs ++ debts else debts)
  | refs {v : Vault} {debts : List Debt} (run : Run setup rule v debts) (writer : Nat)
      (name : String) (r : Option Registration) (ops : List Op)
      (app : ∀ op ∈ ops, op.OfApplication)
      (may : (v.serveAll ops).MayRetarget setup.ipld name r) (rows : List Cid) (dropped : Bool)
      (meets : rule v debts writer rows) :
      Run setup rule
        (if dropped then ((v.serveAll ops).setHead name r).drop rows
          else (v.serveAll ops).setHead name r)
        (settleDebts debts writer rows)
  | work {v v' : Vault} {debts : List Debt} (run : Run setup rule v debts)
      (work : v.Work setup v') : Run setup rule v' debts

def anyRefs : RefsRule := fun _ _ _ _ => True

/-- No batch names a blob that another writer has put and not yet referenced, unless the
row of that put has expired. -/
def ownRefs : RefsRule := fun v debts writer rows =>
  ∀ d ∈ debts, d.cid ∈ rows → ¬ Vault.Expired v.now (some d.expiry) → d.writer = writer

section Promise
variable {setup : Setup} {rule : RefsRule} {v v' : Vault} {debts : List Debt}

theorem Run.reached (run : Run setup rule v debts) : v.Reached setup := by
  induction run with
  | start idle quiet => exact .start idle quiet
  | put _ writer blobs pinned ih => exact .step ih (.putBlobs blobs pinned)
  | refs _ writer name r ops app may rows dropped _ ih =>
    have published : ((_ : Vault).setHead name r).Reached setup :=
      .step ih (.work (.retarget name r ops app may))
    cases dropped with
    | true => exact .step published (.drop rows)
    | false => exact published
  | work _ work ih => exact .step ih (.work work)

theorem Run.steps (run : Run setup rule v debts) (steps : v.Steps setup v') :
    Run setup rule v' debts := by
  induction steps with
  | refl => exact run
  | tail _ work ih => exact .work ih work

variable {now a : Nat} {c : Cid} {expiry : Nat} {d : Debt}

theorem Vault.Expired.mono {b : Nat} (expired : Vault.Expired now (some b)) (le : a ≤ b) :
    Vault.Expired now (some a) :=
  Nat.le_trans (Nat.mul_le_mul_right _ le) expired

theorem Vault.Expired.later (expired : Vault.Expired now (some a)) (time : Nat) :
    Vault.Expired (now + time) (some a) :=
  Nat.le_add_right_of_le expired

theorem Vault.serveAll_same (ops : List Op) (v : Vault) :
    (v.serveAll ops).staging = v.staging ∧ (v.serveAll ops).now = v.now := by
  induction ops generalizing v with
  | nil => exact ⟨rfl, rfl⟩
  | cons op rest ih => exact ih (v.serve op)

theorem Vault.putBlocks_same (setup : Setup) (blobs : List PutBlob) (v : Vault) :
    (putBlocks setup blobs v).2.staging = v.staging ∧ (putBlocks setup blobs v).2.now = v.now := by
  induction blobs generalizing v with
  | nil => exact ⟨rfl, rfl⟩
  | cons b rest ih =>
    unfold putBlocks
    dsimp only
    split
    · exact ih _
    · exact ⟨rfl, rfl⟩

def Vault.Staged (v : Vault) (c : Cid) (expiry : Nat) : Prop :=
  ∃ later, v.staging c = some (some later) ∧ expiry ≤ later

theorem Vault.Staged.live (staged : v.Staged c expiry)
    (fresh : ¬ Vault.Expired v.now (some expiry)) (ipld : Codec) : v.Live ipld c.hash := by
  obtain ⟨later, row, le⟩ := staged
  exact .inr ⟨c, some later, row, fun expired => fresh (expired.mono le), rfl⟩

theorem Vault.Staged.dropExpired (staged : v.Staged c expiry)
    (fresh : ¬ Vault.Expired v.now (some expiry)) : v.dropExpired.Staged c expiry := by
  obtain ⟨later, row, le⟩ := staged
  have kept : ¬ Vault.Expired v.now (some later) := fun expired => fresh (expired.mono le)
  exact ⟨later, by simp [Vault.dropExpired, row, kept], le⟩

/-- Work keeps the rows that have not expired, and time goes on. -/
theorem Vault.Staged.work (staged : v.Staged c expiry) (work : v.Work setup v')
    (fresh : ¬ Vault.Expired v.now (some expiry)) : v'.Staged c expiry := by
  cases work with
  | cut | expire => exact staged.dropExpired fresh
  | retarget name r ops =>
    obtain ⟨later, row, le⟩ := staged
    exact ⟨later, (congrFun (v.serveAll_same ops).1 c).trans row, le⟩
  | _ => exact staged

theorem Vault.Work.now_le (work : v.Work setup v') : ∃ time, v'.now = v.now + time := by
  cases work with
  | tick time => exact ⟨time, rfl⟩
  | retarget name r ops => exact ⟨0, (v.serveAll_same ops).2⟩
  | _ => exact ⟨0, rfl⟩

structure Vault.Honours (setup : Setup) (v : Vault) (d : Debt) : Prop where
  written : d.expiry ≤ (v.now + setup.ttl) / 1000000000
  staged : ¬ Vault.Expired v.now (some d.expiry) → v.Staged d.cid d.expiry
  present : ¬ Vault.Expired v.now (some d.expiry) → (v.epochs.blocks d.cid.hash).isSome

theorem Vault.Honours.work (honours : v.Honours setup d) (reached : v.Reached setup)
    (work : v.Work setup v') : v'.Honours setup d := by
  obtain ⟨time, elapsed⟩ := work.now_le
  have before (fresh : ¬ Vault.Expired v'.now (some d.expiry)) :
      ¬ Vault.Expired v.now (some d.expiry) := fun expired => fresh (elapsed ▸ expired.later time)
  refine ⟨?_, fun fresh => (honours.staged (before fresh)).work work (before fresh), fun fresh => ?_⟩
  · rw [elapsed]
    exact Nat.le_trans honours.written (Nat.div_le_div_right (by omega))
  · have live := (honours.staged (before fresh)).live (before fresh) setup.ipld
    exact Vault.work_keeps_held reached.inv work live.held (honours.present (before fresh))

theorem Vault.putBlocks_present (setup : Setup) (blobs : List PutBlob) (v : Vault)
    (stored : (putBlocks setup blobs v).1 = true) :
    ∀ b ∈ blobs, ((putBlocks setup blobs v).2.epochs.blocks
      (setup.ipld.sum raw b.data).hash).isSome := by
  induction blobs generalizing v with
  | nil => simp
  | cons b rest ih =>
    unfold putBlocks at stored ⊢
    by_cases went : (b.fails.isNone && b.catalogued) = true
    · simp only [went, if_true] at stored ⊢
      rw [List.forall_mem_cons]
      refine ⟨?_, ih _ stored⟩
      refine (putBlocks_widens setup rest _).1.store.present _ ?_
      rw [Bool.and_eq_true, Option.isNone_iff_eq_none] at went
      simp [Vault.serve, Op.perform, Epochs.put, went.1, Epochs.store]
    · simp [went] at stored

/-- A put keeps the promises there are: a row that is written again lasts longer. -/
theorem Vault.Honours.put (honours : v.Honours setup d) (blobs : List PutBlob) (pinned : Bool) :
    (v.putBlobs setup blobs pinned).2.Honours setup d := by
  have present := fun fresh => (putBlobs_widens setup v blobs pinned).store.present _
    (honours.present fresh)
  obtain ⟨rows, now⟩ := putBlocks_same setup blobs v
  unfold putBlobs at present ⊢
  rcases stored : putBlocks setup blobs v with ⟨ok, after⟩
  rw [stored] at rows now present
  have staged (fresh : ¬ Vault.Expired after.now (some d.expiry)) : after.Staged d.cid d.expiry := by
    obtain ⟨later, row, le⟩ := honours.staged (now ▸ fresh)
    exact ⟨later, (congrFun rows d.cid).trans row, le⟩
  have written : d.expiry ≤ (after.now + setup.ttl) / 1000000000 := by
    rw [now]
    exact honours.written
  cases ok with
  | false => exact ⟨written, staged, fun fresh => present (now ▸ fresh)⟩
  | true =>
    dsimp only at present ⊢
    split
    · rename_i none
      rw [if_pos none] at present
      exact ⟨written, staged, fun fresh => present (now ▸ fresh)⟩
    · rename_i some
      rw [if_neg some] at present
      split
      · rename_i ok
        rw [if_pos ok] at present
        refine ⟨written, fun fresh => ?_, fun fresh => present (now ▸ fresh)⟩
        by_cases member : d.cid ∈ blobs.map fun b => setup.ipld.sum raw b.data
        · exact ⟨_, if_pos member, written⟩
        · obtain ⟨later, row, le⟩ := staged fresh
          exact ⟨later, (if_neg member).trans row, le⟩
      · rename_i failed
        rw [if_neg failed] at present
        exact ⟨written, staged, fun fresh => present (now ▸ fresh)⟩

theorem Vault.Honours.of_put {blobs : List PutBlob} {pinned : Bool} {writer : Nat}
    (success : (v.putBlobs setup blobs pinned).1 = true)
    (member : d ∈ debtsOf setup v writer blobs) :
    (v.putBlobs setup blobs pinned).2.Honours setup d := by
  obtain ⟨b, inside, rfl⟩ := List.mem_map.mp member
  have some : blobs ≠ [] := List.ne_nil_of_mem inside
  obtain ⟨-, now⟩ := putBlocks_same setup blobs v
  have present := putBlocks_present setup blobs v
  unfold putBlobs at success ⊢
  rcases stored : putBlocks setup blobs v with ⟨ok, after⟩
  rw [stored] at success now present
  cases ok with
  | false => cases success
  | true =>
    cases pinned with
    | false => simp [some] at success
    | true =>
      dsimp only at now present ⊢
      rw [if_neg some, if_pos rfl]
      have written : (v.now + setup.ttl) / 1000000000 ≤ (after.now + setup.ttl) / 1000000000 := by
        rw [now]
      refine ⟨written, fun _ => ⟨_, if_pos ?_, written⟩, fun _ => present rfl b inside⟩
      exact List.mem_map_of_mem (f := fun b : PutBlob => setup.ipld.sum raw b.data) inside

theorem Vault.Honours.drop (honours : v.Honours setup d) {rows : List Cid}
    (other : d.cid ∈ rows → Vault.Expired v.now (some d.expiry)) :
    (v.drop rows).Honours setup d := by
  refine ⟨honours.written, fun fresh => ?_, honours.present⟩
  obtain ⟨later, row, le⟩ := honours.staged fresh
  exact ⟨later, (if_neg fun named => fresh (other named)).trans row, le⟩

/-- Where every batch of refs names only blobs that nobody else waits for, all debts are
honoured. -/
theorem Run.honours (run : Run setup ownRefs v debts) : ∀ d ∈ debts, v.Honours setup d := by
  induction run with
  | start => simp
  | put _ writer blobs pinned ih =>
    intro d member
    split at member
    · rename_i success
      rcases List.mem_append.mp member with new | old
      · exact .of_put success new
      · exact (ih d old).put blobs pinned
    · exact (ih d member).put blobs pinned
  | refs run writer name r ops app may rows dropped meets ih =>
    intro d member
    obtain ⟨old, unsettled⟩ := List.mem_filter.mp member
    have published := (ih d old).work run.reached (.retarget name r ops app may)
    split
    · refine published.drop fun named => ?_
      by_contra fresh
      have now : ∀ v : Vault, ((v.serveAll ops).setHead name r).now = v.now := fun v =>
        (v.serveAll_same ops).2
      rw [now] at fresh
      exact of_decide_eq_true unsettled ⟨meets d old named fresh, named⟩
    · exact published
  | work run work ih => exact fun d member => (ih d member).work run.reached work

/-- Where no batch of refs names a blob that another writer has put and not yet
referenced, a blob stays until its row expires or its refs land. -/
theorem staging_keeps (run : Run setup ownRefs v debts) :
    ∀ d ∈ debts, ¬ Vault.Expired v.now (some d.expiry) →
      (v.epochs.blocks d.cid.hash).isSome :=
  fun d member => (run.honours d member).present

/-- Writer 1's refs land while writer 2 still waits for its own. -/
theorem staging_keeps_other : ∃ v debts, Run sampleSetup ownRefs v debts ∧
    (∃ d ∈ debts, d.writer = 2) ∧ ∀ d ∈ debts, ¬ Vault.Expired v.now (some d.expiry) →
      (v.epochs.blocks d.cid.hash).isSome := by
  have first : Run sampleSetup ownRefs _ _ := .put (.start (v := sampleVault) rfl rfl) 1
    [⟨[.byte 1], none, true⟩] true
  have second := first.put 2 [⟨[.byte 2], none, true⟩] true
  have apart : DagCbor.codec.sum raw [.byte 2] ≠ DagCbor.codec.sum raw [.byte 1] := by
    intro same
    have data := DagCbor.codec.sha256_injective (congrArg (fun c => c.hash.digest) same)
    cases data
  have run := second.refs 1 "first" none [] (by simp) (fun active => by cases active)
    [DagCbor.codec.sum raw [.byte 1]] true (by
      intro d member named _
      rcases List.mem_cons.mp member with rfl | old
      · exact absurd (List.mem_singleton.mp named) apart
      · rw [List.mem_singleton.mp old])
  refine ⟨_, _, run, ⟨⟨2, DagCbor.codec.sum raw [.byte 2], 2⟩, ?_, rfl⟩, staging_keeps run⟩
  refine List.mem_filter.mpr ⟨List.mem_cons_self .., ?_⟩
  simp

end Promise

/-! ### Two writers of one blob -/

section Shared

def sharedCid : Cid := DagCbor.codec.sum raw (sampleBlob sampleHash)

def indexVault : Vault :=
  { epochs := newEpochs (storeOf (contentOf sampleConfig (made smallParams 6 smallRows)))
    heads := fun _ => none
    ledger := fun _ _ => none
    staging := fun _ => none
    now := 0
    collector := .idle
    used := fun _ => False }

def putShared (v : Vault) : Bool × Vault :=
  v.putBlobs sampleSetup [⟨sampleBlob sampleHash, none, true⟩] true

def settledHead : Registration := ⟨openedRoot, nonePolicy, none, false, false⟩

/-- Both writers put the blob; then the first publishes a head that retains no blobs, and
its refs drop the row. -/
def settledVault : Vault :=
  (((putShared (putShared indexVault).2).2.serveAll []).setHead "first" (some settledHead)).drop
    [sharedCid]

theorem settledVault_run : ∃ debts, Run sampleSetup anyRefs settledVault debts ∧
    ⟨2, sharedCid, 2⟩ ∈ debts := by
  have first : Run sampleSetup anyRefs _ _ := .put (.start (v := indexVault) rfl rfl) 1
    [⟨sampleBlob sampleHash, none, true⟩] true
  have second := first.put 2 [⟨sampleBlob sampleHash, none, true⟩] true
  refine ⟨_, second.refs 1 "first" (some settledHead) [] (by simp)
    (fun active => by cases active) [sharedCid] true trivial, ?_⟩
  have went : (putShared (putShared indexVault).2).1 = true := rfl
  refine List.mem_filter.mpr ⟨?_, by simp⟩
  have now : (putShared indexVault).2.now = 0 := rfl
  unfold putShared at went now
  rw [if_pos went, debtsOf, now]
  exact List.mem_append_left _ (List.mem_singleton.mpr rfl)

def settledPins : List Pin := [⟨.root, openedRoot, false⟩, ⟨.openWindow, openedSegment, false⟩]

theorem settledHead_wants : settledHead.Wants DagCbor.codec settledPins := by
  obtain ⟨h, es, isHead, admissible, -, wanted⟩ := opened_wanted
  exact ⟨h, es, isHead, admissible, wanted⟩

def settledCut : Cut sampleSetup settledVault where
  names := ["first"]
  registered := by
    intro other
    change _ ↔ (Function.update (fun _ => none) "first" (some settledHead) other).isSome
    rw [Function.update_apply, List.mem_singleton]
    split <;> simp_all
  wants := fun _ => settledPins
  held := fun _ => []
  passes := by
    intro other reg registered
    change Function.update (fun _ => none) "first" (some settledHead) other = some reg at registered
    rw [Function.update_apply] at registered
    split at registered
    · cases registered
      have empty : Lists (fun _ => none) [] := ⟨by simp, List.nodup_nil⟩
      exact ⟨settledHead_wants, empty⟩
    · cases registered
  entries := fun _ => settledPins.dedup
  listed := fun _ _ => first_pass_lists settledHead_wants.consistent
  staged := []
  staged_iff := by
    intro c
    change _ ↔ ((if c ∈ [sharedCid] then none else if c ∈ [sharedCid] then some (some 2) else
      if c ∈ [sharedCid] then some (some 2) else none).filter _).isSome
    split <;> simp

/-- The refs of one writer take away what protects the blob of the other: the next
collection deletes it, before its row would have expired. -/
theorem staging_loses : ∃ v debts d, Run sampleSetup anyRefs v debts ∧ d ∈ debts ∧
    ¬ Vault.Expired v.now (some d.expiry) ∧ v.epochs.blocks d.cid.hash = none := by
  obtain ⟨debts, run, owed⟩ := settledVault_run
  obtain ⟨marked, dead, steps⟩ := settledCut.sweeps rfl rfl rfl (c := sharedCid) (by decide +kernel)
    (by decide +kernel)
  have swept := (run.steps steps).work (.sweep sharedCid none rfl dead)
  have gone : (settledCut.after.epochs.deleteCandidate 0 sharedCid none).2.blocks sharedCid.hash =
      none := by decide +kernel
  exact ⟨_, debts, _, swept, owed, show ¬ Vault.Expired 0 (some 2) by decide, gone⟩

end Shared

end Bloar.Pinning
