import Bloar.ChainSpec

/-!
Manifest upgrades next to running chain indexers. A publisher reads the head, places its end
on the chain, checks that the new schedule treats everything before it alike, and posts the new
manifest under the tip and the root that it read. The server compares both.
-/

namespace Bloar.Chain
open Ipld Schema Archive Indexing Loops

variable {Blob : Type} (cfg : Config) (reads : Reads Blob)

/-! ### Publishing -/

def positionOfSlot (syncedTo : Nat) : Except String Nat := do
  match ← reads.latest with
  | none => .error "chain: no finalized L1 block to map the head's position onto"
  | some latest =>
    if 2 ^ 64 ≤ latest.number then
      .error "chain: no finalized L1 block to map the head's position onto"
    else
      let firstBeyond ← blockAtOrAfterSlot cfg reads (Beacon.uint64 (syncedTo + 1)) latest.number
      if firstBeyond = 0 then pure 0
      else if latest.number < firstBeyond then do
        let latestSlot ← slotOf cfg latest
        if latestSlot < syncedTo then
          let latestNum := latest.number
          .error (s!"chain: this L1 node's finalized view is behind the head's coverage: its finalized " ++
            s!"block {latestNum} is at slot {latestSlot}, but the head's synced_to is slot {syncedTo}, so the head has frozen data past this " ++
            "node's finalized tag and its L1 position cannot be placed. Retry when this node catches up")
        else pure (firstBeyond - 1)
      else pure (firstBeyond - 1)

/-- The append-only check of `preflightManifest`, where the head has a tip. -/
def checkUpgrade (published proposed : List Source) : Option Nat → Except String Unit
  | none => pure ()
  | some syncedTo => do
      let position ← positionOfSlot cfg reads syncedTo
      match validateUpgrade published proposed position with
      | .error e =>
        .error s!"chain: the proposed schedule is not a legal successor of its published tip at L1 position {position}: {e}"
      | .ok _ => pure ()

/-- `PublishManifest` up to the request, with what it read of the head before: the link of
the new manifest. -/
def preflightManifest (syncedTo : Option Nat) (newSources : List Source) :
    Except String (Option Cid) := do
  validateSources newSources
  match ← reads.manifest 0 with
  | none => pure none
  | some (tip, published) => do
      checkUpgrade cfg reads published newSources syncedTo
      pure (some tip)

def setManifest {Root : Type} [DecidableEq Root] (manifestTip prev : Option Cid)
    (root expectedHeadRoot : Root) : Except String Unit :=
  if manifestTip ≠ prev then .error "server: manifest prev does not match the head's current tip"
  else if expectedHeadRoot ≠ root then
    .error "server: the head advanced between the append-only preflight and this POST"
  else pure ()

/-! ### The head, its indexers and its publishers -/

structure Manifest where
  sources : List Source
  prev : Option Cid

structure Proposal (Root : Type) where
  manifest : Cid
  prev : Option Cid
  expectedHeadRoot : Root
  deriving DecidableEq

structure Look (Root : Type) where
  root : Root
  syncedTo : Option Nat
  deriving DecidableEq

structure Upgrading (Root : Type) {ι : Type} (kind : ι → Indexing.Kind) where
  head : System kind
  looks : List (Look Root)
  proposals : List (Proposal Root)
  /-- the tips that the head has had, the current one first -/
  tips : List Cid

inductive UpgradeEvent (Root Blob : Type) {ι : Type} (kind : ι → Indexing.Kind) where
  | indexer (e : Event kind)
  /-- a publisher reads the head -/
  | look
  /-- a publisher checks a new manifest against what it read of the head, and posts it -/
  | preflight (cfg : Config) (seen : Look Root) (reads : Reads Blob) (manifest : Cid)
  /-- a posted manifest reaches the server, now or again -/
  | publish (p : Proposal Root)

section System

variable {ι Root : Type} [DecidableEq ι] [DecidableEq Root] {kind : ι → Indexing.Kind}
variable (rootOf : Indexing.Log → Root) (manifests : Cid → Manifest)

def Upgrading.fresh (Root : Type) (kind : ι → Indexing.Kind) : Upgrading Root kind :=
  { head := System.fresh kind none, looks := [], proposals := [], tips := [] }

def Upgrading.step (originSlot : Nat) (u : Upgrading Root kind) :
    UpgradeEvent Root Blob kind → Option (Upgrading Root kind)
  | .indexer e => (u.head.step originSlot e).map fun head => { u with head }
  | .look =>
    some { u with looks := { root := rootOf u.head.log, syncedTo := u.head.log.synced } :: u.looks }
  | .preflight cfg seen reads manifest =>
    if seen ∈ u.looks then
      match preflightManifest cfg reads seen.syncedTo (manifests manifest).sources with
      | .error _ => none
      | .ok prev =>
        if (manifests manifest).prev = prev then
          some { u with
            proposals := { manifest, prev, expectedHeadRoot := seen.root } :: u.proposals }
        else none
    else none
  | .publish p =>
    if p ∈ u.proposals then
      match setManifest u.head.tip p.prev (rootOf u.head.log) p.expectedHeadRoot with
      | .error _ => none
      | .ok _ =>
        some { u with
          head := { u.head with tip := some p.manifest }, tips := p.manifest :: u.tips }
    else none

inductive Upgrading.Reaches (originSlot : Nat)
    (allowed : Upgrading Root kind → UpgradeEvent Root Blob kind → Prop) :
    Upgrading Root kind → Prop where
  | fresh : Upgrading.Reaches originSlot allowed (Upgrading.fresh Root kind)
  | step {u u' : Upgrading Root kind} {e : UpgradeEvent Root Blob kind}
      (before : Upgrading.Reaches originSlot allowed u) (met : allowed u e)
      (taken : u.step rootOf manifests originSlot e = some u') : Upgrading.Reaches originSlot allowed u'

def Upgrading.run (originSlot : Nat) :
    List (UpgradeEvent Root Blob kind) → Upgrading Root kind → Option (Upgrading Root kind)
  | [], u => some u
  | e :: rest, u => (u.step rootOf manifests originSlot e).bind (Upgrading.run originSlot rest)

variable {rootOf manifests}

theorem Upgrading.Reaches.run {originSlot : Nat}
    {allowed : Upgrading Root kind → UpgradeEvent Root Blob kind → Prop} {u u' : Upgrading Root kind}
    {events : List (UpgradeEvent Root Blob kind)}
    (before : Upgrading.Reaches rootOf manifests originSlot allowed u)
    (met : ∀ e ∈ events, ∀ state, allowed state e)
    (ran : Upgrading.run rootOf manifests originSlot events u = some u') :
    Upgrading.Reaches rootOf manifests originSlot allowed u' := by
  induction events generalizing u with
  | nil =>
    cases ran
    exact before
  | cons e rest ih =>
    obtain ⟨middle, taken, later⟩ := Option.bind_eq_some_iff.mp ran
    exact ih (before.step (met e List.mem_cons_self u) taken)
      (fun e member => met e (List.mem_cons_of_mem _ member)) later

/-! ### The chain of manifests -/

def Linked (manifests : Cid → Manifest) : List Cid → Prop
  | [] => True
  | tip :: older => (manifests tip).prev = older.head? ∧ Linked manifests older

theorem Linked.eq_of_head {xs ys : List Cid} (linked : Linked manifests xs)
    (linked' : Linked manifests ys) (same : xs.head? = ys.head?) : xs = ys := by
  induction xs generalizing ys with
  | nil =>
    cases ys with
    | nil => rfl
    | cons y rest => cases same
  | cons x rest ih =>
    cases ys with
    | nil => cases same
    | cons y others =>
      cases same
      rw [ih linked.2 linked'.2 (linked.1.symm.trans linked'.1)]

theorem Linked.of_append {xs ys : List Cid} (linked : Linked manifests (xs ++ ys)) :
    Linked manifests ys := by
  induction xs with
  | nil => exact linked
  | cons x rest ih => exact ih linked.2

theorem Linked.nodup {tips : List Cid} (linked : Linked manifests tips) : tips.Nodup := by
  induction tips with
  | nil => exact .nil
  | cons tip older ih =>
    refine List.nodup_cons.mpr ⟨fun again => ?_, ih linked.2⟩
    obtain ⟨newer, oldest, split⟩ := List.append_of_mem again
    have suffix : Linked manifests (tip :: oldest) := by
      have rest := linked.2
      rw [split] at rest
      exact rest.of_append
    have same := congrArg List.length (linked.eq_of_head suffix rfl)
    rw [split] at same
    simp only [List.length_cons, List.length_append] at same
    omega

end System

/-! ### Placing the head on the chain -/

section Position

variable {cfg : Config} {reads : Reads Blob} {chain : L1} {schedule : Cid → List Source}

/-- The numbers that a publisher computes with do not overflow: the time of the slot after the
head's last one, and the length of the search for it. -/
def Fits (cfg : Config) (reads : Reads Blob) (syncedTo : Option Nat) : Prop :=
  (∀ h, reads.latest = .ok (some h) → h.number + 1 < 2 ^ 63) ∧
    ∀ s, syncedTo = some s → cfg.genesisTime + (s + 1) * cfg.secondsPerSlot < 2 ^ 64

theorem time_lt_of_slot_le {c : ChainBlock} {genesisTime secondsPerSlot s : Nat}
    (positive : 0 < secondsPerSlot) (late : genesisTime ≤ c.time)
    (le : c.slot genesisTime secondsPerSlot ≤ s) :
    c.time < genesisTime + (s + 1) * secondsPerSlot := by
  have bound : c.time - genesisTime < (s + 1) * secondsPerSlot :=
    (Nat.div_lt_iff_lt_mul positive).mp (Nat.lt_succ_of_le le)
  omega

/-- All blocks of the slots that the head covers lie at the position or before it. -/
theorem positionOfSlot_spec {syncedTo position : Nat} {c : ChainBlock}
    (follow : reads.Follow chain schedule) (positive : 0 < cfg.secondsPerSlot)
    (single : chain.OnePerSlot cfg.genesisTime cfg.secondsPerSlot)
    (fits : Fits cfg reads (some syncedTo))
    (placed : positionOfSlot cfg reads syncedTo = .ok position)
    (member : c ∈ chain.blocks) (late : cfg.genesisTime ≤ c.time)
    (covered : c.slot cfg.genesisTime cfg.secondsPerSlot ≤ syncedTo) : c.number ≤ position := by
  unfold positionOfSlot at placed
  obtain ⟨read, isRead, placed⟩ := bind_ok_iff.mp placed
  cases read with
  | none => cases placed
  | some latest =>
    dsimp only at placed
    split at placed
    · cases placed
    obtain ⟨r, found, placed⟩ := bind_ok_iff.mp placed
    have exact := fits.2 syncedTo rfl
    have small : syncedTo + 1 < 2 ^ 64 := by
      have := Nat.le_mul_of_pos_right (syncedTo + 1) positive
      omega
    have short := fits.1 latest isRead
    obtain ⟨last, atLatest, isHeader⟩ := follow.latest latest isRead
    have there := L1.getElem?_number member
    have older := time_lt_of_slot_le positive late covered
    obtain ⟨-, border, bound⟩ := blockAtOrAfterSlot_border follow found
    have length : searchLength latest.number = latest.number + 1 := if_pos short
    have slot : Beacon.uint64 (syncedTo + 1) = syncedTo + 1 := Nat.mod_eq_of_lt small
    have target : Beacon.uint64 (cfg.genesisTime + (syncedTo + 1) * cfg.secondsPerSlot) =
      cfg.genesisTime + (syncedTo + 1) * cfg.secondsPerSlot := Nat.mod_eq_of_lt exact
    rw [slot, target, length] at border
    rw [length] at bound
    -- what the node sees of the covered blocks lies before `r`
    have before : c.number ≤ latest.number → c.number < r := by
      intro seen
      by_contra after
      have notBefore := border c.number (by omega) (by omega) c there
      omega
    -- and it sees all of them once it sees a later block
    have sees : r ≤ latest.number → c.number ≤ latest.number := by
      intro inside
      by_contra unseen
      have notBefore := border latest.number inside (by omega) last atLatest
      have newer := chain.increasing _ _ last c atLatest there (by omega)
      omega
    split at placed
    · have := sees (by omega)
      have := before this
      omega
    split at placed
    · obtain ⟨latestSlot, isSlot, placed⟩ := bind_ok_iff.mp placed
      obtain ⟨lateLast, isLatest⟩ := slotOf_ok isSlot
      split at placed
      · cases placed
      cases pure_ok_iff.mp placed
      have seen : c.number ≤ latest.number := by
        by_contra unseen
        subst isHeader
        have slots := @L1.slot_le chain _ _ last c cfg.genesisTime cfg.secondsPerSlot atLatest there
          (by omega)
        have isSlot : latestSlot = last.slot cfg.genesisTime cfg.secondsPerSlot := isLatest
        have same := single last (List.mem_of_getElem? atLatest) c member lateLast late (by omega)
        exact unseen (same ▸ Nat.le_refl _)
      have := before seen
      omega
    · cases pure_ok_iff.mp placed
      have := before (sees (by omega))
      omega

/-- A manifest that passes the preflight reads every block of a covered slot like its
predecessor. -/
theorem preflightManifest_keeps {syncedTo : Option Nat} {newSources : List Source}
    {prev : Option Cid} (follow : reads.Follow chain schedule) (positive : 0 < cfg.secondsPerSlot)
    (single : chain.OnePerSlot cfg.genesisTime cfg.secondsPerSlot) (fits : Fits cfg reads syncedTo)
    (passed : preflightManifest cfg reads syncedTo newSources = .ok prev) {tip : Cid}
    (isPrev : prev = some tip) {synced slot : Nat} (isSynced : syncedTo = some synced)
    (covered : slot ≤ synced) :
    chain.row cfg.genesisTime cfg.secondsPerSlot (schedule tip) slot =
      chain.row cfg.genesisTime cfg.secondsPerSlot newSources slot := by
  subst isPrev isSynced
  unfold preflightManifest at passed
  obtain ⟨_, _, passed⟩ := bind_ok_iff.mp passed
  obtain ⟨read, isRead, passed⟩ := bind_ok_iff.mp passed
  cases read with
  | none => cases pure_ok_iff.mp passed
  | some found =>
    obtain ⟨tip', published⟩ := found
    obtain ⟨_, checked, passed⟩ := bind_ok_iff.mp passed
    cases pure_ok_iff.mp passed
    obtain ⟨position, placed, checked⟩ := bind_ok_iff.mp checked
    cases follow.manifest 0 tip published isRead
    have legal : validateUpgrade (schedule tip) newSources position = .ok () := by
      split at checked
      · cases checked
      · rename_i valid
        exact valid
    unfold L1.row
    cases at_slot : chain.blockAt cfg.genesisTime cfg.secondsPerSlot slot with
    | none => rfl
    | some c =>
      obtain ⟨member, late, here⟩ := L1.blockAt_some at_slot
      have behind := positionOfSlot_spec follow positive single fits placed member late
        (Nat.le_trans (Nat.le_of_eq here) covered)
      exact ChainBlock.row_alike (validateUpgrade_alike legal behind)

end Position

/-! ### Upgrades next to indexers -/

section Runs

variable {ι Root Blob : Type} [DecidableEq ι] [DecidableEq Root]

/-- What the outside may do: nodes follow the chain, only publishers post manifests, and the
head is truncated only while no scan is in flight. -/
def Upgrading.Fair (chain : L1) (manifests : Cid → Manifest)
    (genesisTime secondsPerSlot originSlot : Nat) {cfgs : ι → Config}
    (u : Upgrading Root fun i => @chainIndexer Blob (cfgs i)) :
    UpgradeEvent Root Blob (fun i => @chainIndexer Blob (cfgs i)) → Prop
  | .indexer (.plan _ reads) | .indexer (.fetch _ reads) | .indexer (.fetchAhead _ reads)
  | .indexer (.post _ reads) => Reads.Follow chain (fun tip => (manifests tip).sources) reads
  | .indexer (.truncate _) => u.head.Quiet
  | .indexer (.setManifest _) => False
  | .preflight cfg _ reads _ => Shared genesisTime secondsPerSlot originSlot cfg ∧
      reads.Follow chain (fun tip => (manifests tip).sources)
  | _ => True

def UpgradeEvent.Fits {kind : ι → Indexing.Kind} : UpgradeEvent Root Blob kind → Prop
  | .preflight cfg seen reads _ => Chain.Fits cfg reads seen.syncedTo
  | _ => True

section Invariant

variable {chain : L1} {manifests : Cid → Manifest} {genesisTime secondsPerSlot originSlot : Nat}
variable {rootOf : Indexing.Log → Root} {cfgs : ι → Config}

/-- A posted manifest was checked against a head with the root that it expects. -/
structure Proposal.Sound (chain : L1) (manifests : Cid → Manifest)
    (genesisTime secondsPerSlot : Nat) (rootOf : Indexing.Log → Root) (p : Proposal Root) : Prop where
  prev : (manifests p.manifest).prev = p.prev
  keeps : ∃ log, p.expectedHeadRoot = rootOf log ∧ ∀ tip, p.prev = some tip →
    ∀ synced slot, log.synced = some synced → slot ≤ synced →
      chain.row genesisTime secondsPerSlot (manifests tip).sources slot =
        chain.row genesisTime secondsPerSlot (manifests p.manifest).sources slot

variable {honest : (i : ι) → Errand → (@chainIndexer Blob (cfgs i)).Reads → Prop} {reach : Nat → Prop}
variable (contracts : (i : ι) → Contract (@chainIndexer Blob (cfgs i)) originSlot
  (rules chain (fun tip => (manifests tip).sources) genesisTime secondsPerSlot) reach (honest i))

structure Upgrading.Sound (rootOf : Indexing.Log → Root)
    (u : Upgrading Root fun i => @chainIndexer Blob (cfgs i)) : Prop where
  head : u.head.Sound contracts
  looks : ∀ look ∈ u.looks, ∃ log, look.root = rootOf log ∧ look.syncedTo = log.synced
  proposals : ∀ p ∈ u.proposals, p.Sound chain manifests genesisTime secondsPerSlot rootOf
  linked : Linked manifests u.tips
  tip : u.head.tip = u.tips.head?

omit [DecidableEq ι] [DecidableEq Root] in
theorem Upgrading.sound_fresh : (Upgrading.fresh Root _).Sound contracts rootOf where
  head := System.sound_fresh contracts none
  looks look member := by cases member
  proposals p member := by cases member
  linked := trivial
  tip := rfl

theorem setManifest_ok {manifestTip prev : Option Cid} {root expectedHeadRoot : Root} {done : Unit}
    (ok : setManifest manifestTip prev root expectedHeadRoot = .ok done) :
    manifestTip = prev ∧ expectedHeadRoot = root := by
  unfold setManifest at ok
  split at ok
  · cases ok
  split at ok
  · cases ok
  rename_i tips roots
  exact ⟨not_not.mp tips, not_not.mp roots⟩

variable {contracts} {u u' : Upgrading Root fun i => @chainIndexer Blob (cfgs i)}

variable (sound : u.Sound contracts rootOf)
include sound

theorem Upgrading.Sound.publish (faithful : ∀ a b, rootOf a = rootOf b → a.synced = b.synced)
    {p : Proposal Root}
    (taken : u.step rootOf manifests originSlot (.publish p : UpgradeEvent Root Blob _) = some u') :
    u'.Sound contracts rootOf := by
  simp only [Upgrading.step] at taken
  split at taken
  · rename_i posted
    obtain ⟨link, log, isRoot, keeps⟩ := sound.proposals p posted
    split at taken
    · cases taken
    · rename_i done accepted
      obtain ⟨isTip, root⟩ := setManifest_ok accepted
      cases taken
      refine { sound with
        head := sound.head.setManifest ?_ rfl
        linked := ⟨link.trans (isTip.symm.trans sound.tip), sound.linked⟩
        tip := rfl }
      intro slot covers truth
      obtain ⟨-, synced, isSynced, le⟩ := covers
      have seen : log.synced = some synced :=
        (faithful log u.head.log (isRoot.symm.trans root)).trans isSynced
      -- a head without a tip has no rows to keep
      cases before : u.head.tip with
      | none =>
        rw [before] at truth
        exact truth.elim
      | some tip =>
        rw [before] at truth
        have same := keeps tip (isTip.symm.trans before) synced slot seen le
        exact Eq.trans truth same
  · cases taken

theorem Upgrading.Sound.preflight (single : chain.OnePerSlot genesisTime secondsPerSlot)
    (positive : 0 < secondsPerSlot) {cfg : Config} {seen : Look Root} {reads : Reads Blob}
    {manifest : Cid} (shared : Shared genesisTime secondsPerSlot originSlot cfg)
    (follow : reads.Follow chain fun tip => (manifests tip).sources)
    (fits : Chain.Fits cfg reads seen.syncedTo)
    (taken : u.step rootOf manifests originSlot (.preflight cfg seen reads manifest) = some u') :
    u'.Sound contracts rootOf := by
  obtain ⟨rfl, rfl, rfl⟩ := shared
  simp only [Upgrading.step] at taken
  split at taken
  · rename_i looked
    obtain ⟨log, isRoot, isSynced⟩ := sound.looks seen looked
    split at taken
    · cases taken
    · rename_i prev passed
      split at taken
      · rename_i link
        cases taken
        refine { sound with proposals := fun p member => ?_ }
        rcases List.mem_cons.mp member with rfl | earlier
        · refine ⟨link, log, isRoot, fun tip isTip synced slot covered le => ?_⟩
          exact preflightManifest_keeps follow positive single fits passed isTip
            (isSynced.trans covered) le
        · exact sound.proposals p earlier
      · cases taken
  · cases taken

theorem Upgrading.Sound.indexer {e : Event fun i => @chainIndexer Blob (cfgs i)}
    (fair : u.head.Fair originSlot
      (rules chain (fun tip => (manifests tip).sources) genesisTime secondsPerSlot) honest e)
    (other : ∀ tip, e ≠ .setManifest tip)
    (taken : u.step rootOf manifests originSlot (.indexer e : UpgradeEvent Root Blob _) = some u') :
    u'.Sound contracts rootOf := by
  obtain ⟨head, moved, rfl⟩ := Option.map_eq_some_iff.mp taken
  exact { sound with
    head := sound.head.step fair moved
    tip := (System.step_tip other moved).trans sound.tip }

end Invariant

theorem Upgrading.Reaches.sound {chain : L1} {manifests : Cid → Manifest}
    {genesisTime secondsPerSlot originSlot : Nat}
    (single : chain.OnePerSlot genesisTime secondsPerSlot) (positive : 0 < secondsPerSlot)
    {rootOf : Indexing.Log → Root} (faithful : ∀ a b, rootOf a = rootOf b → a.synced = b.synced)
    {cfgs : ι → Config} {reach : Nat → Prop}
    (contracts : (i : ι) → Contract (@chainIndexer Blob (cfgs i)) originSlot
      (rules chain (fun tip => (manifests tip).sources) genesisTime secondsPerSlot) reach
      (fun _ reads => Reads.Follow chain (fun tip => (manifests tip).sources) reads))
    {u : Upgrading Root fun i => @chainIndexer Blob (cfgs i)}
    (reached : Upgrading.Reaches rootOf manifests originSlot (fun u e =>
      Upgrading.Fair chain manifests genesisTime secondsPerSlot originSlot u e ∧
        UpgradeEvent.Fits e) u) :
    u.Sound contracts rootOf := by
  induction reached with
  | fresh => exact Upgrading.sound_fresh contracts
  | @step u u' e before met taken ih =>
    obtain ⟨fair, fits⟩ := met
    cases e with
    | look =>
      cases taken
      refine { ih with looks := fun look member => ?_ }
      rcases List.mem_cons.mp member with rfl | earlier
      · exact ⟨_, rfl, rfl⟩
      · exact ih.looks look earlier
    | preflight cfg seen reads manifest =>
      exact ih.preflight single positive fair.1 fair.2 fits taken
    | publish p => exact ih.publish faithful taken
    | indexer e =>
      refine ih.indexer ?_ ?_ taken
      · cases e with
        | setManifest tip => exact fair.elim
        | _ => exact fair
      · rintro tip rfl
        exact fair

theorem scan_block {cfg : Config} {chain : L1} {schedule : Cid → List Source} {reads : Reads Blob}
    (single : chain.OnePerSlot cfg.genesisTime cfg.secondsPerSlot)
    (follow : reads.Follow chain schedule) {first last : Nat} {rows : List RefRow}
    (scanned : scan cfg reads first last = .ok rows) {c : ChainBlock} (member : c ∈ chain.blocks)
    (late : cfg.genesisTime ≤ c.time) (inside : first ≤ c.number ∧ c.number ≤ last) :
    rowAt rows (c.slot cfg.genesisTime cfg.secondsPerSlot) = c.row cfg.sources := by
  have only : ∀ d, chain.blockAt cfg.genesisTime cfg.secondsPerSlot
      (c.slot cfg.genesisTime cfg.secondsPerSlot) = some d → d = c := by
    intro d found
    obtain ⟨there, lateD, here⟩ := L1.blockAt_some found
    exact single d there c member lateD late here
  rw [scan_rowAt follow single scanned fun d found => only d found ▸ inside,
    L1.row_slot single member late]

/-- A legal upgrade leaves what a scan yields for every block at or below the position. And
where no publisher computes past its numbers, a head whose coverage began under its genesis
manifest holds at every moment what a scan under its current tip yields; its tips form one
chain; and what was scanned under an older one is refused. -/
theorem upgrades_keep_history {chain : L1} {manifests : Cid → Manifest}
    {genesisTime secondsPerSlot originSlot : Nat}
    (single : chain.OnePerSlot genesisTime secondsPerSlot) (positive : 0 < secondsPerSlot)
    {rootOf : Indexing.Log → Root} (faithful : ∀ a b, rootOf a = rootOf b → a.synced = b.synced)
    {cfgs : ι → Config} (shared : ∀ i, Shared genesisTime secondsPerSlot originSlot (cfgs i)) :
    (∀ current proposed position, validateSources current = .ok () →
      validateSources proposed = .ok () → validateUpgrade current proposed position = .ok () →
      (∀ c ∈ chain.blocks, c.number ≤ position → c.row current = c.row proposed) ∧
      ∀ (cfg : Config) (reads reads' : Reads Blob) (first last first' last' : Nat)
        (rows rows' : List RefRow), Shared genesisTime secondsPerSlot originSlot cfg →
        reads.Follow chain (fun tip => (manifests tip).sources) →
        reads'.Follow chain (fun tip => (manifests tip).sources) →
        scan { cfg with sources := current } reads first last = .ok rows →
        scan { cfg with sources := proposed } reads' first' last' = .ok rows' →
        ∀ c ∈ chain.blocks, genesisTime ≤ c.time → c.number ≤ position →
          first ≤ c.number ∧ c.number ≤ last → first' ≤ c.number ∧ c.number ≤ last' →
          rowAt rows (c.slot genesisTime secondsPerSlot) =
            rowAt rows' (c.slot genesisTime secondsPerSlot)) ∧
    ∀ u : Upgrading Root fun i => @chainIndexer Blob (cfgs i),
      Upgrading.Reaches rootOf manifests originSlot (fun u e =>
        Upgrading.Fair chain manifests genesisTime secondsPerSlot originSlot u e ∧
          UpgradeEvent.Fits e) u →
      (∀ slot, u.head.log.Covers originSlot slot → ∃ tip, u.head.tip = some tip ∧
        u.head.log.hashes slot =
          chain.row genesisTime secondsPerSlot (manifests tip).sources slot) ∧
      (u.head.tip = u.tips.head? ∧ Linked manifests u.tips ∧ u.tips.Nodup) ∧
      (∀ request b, (request, b) ∈ u.head.posted →
        Tells (rules chain (fun tip => (manifests tip).sources) genesisTime secondsPerSlot
          b.expectedManifest) b.start b.last b.rows) ∧
      ∀ old ∈ u.tips.tail, ∀ request b, b.expectedManifest = some old →
        u.step rootOf manifests originSlot
          (.indexer (.deliver request b) : UpgradeEvent Root Blob _) = none := by
  refine ⟨fun current proposed position _ _ legal => ?_, fun u reached => ?_⟩
  · have rows : ∀ c : ChainBlock, c.number ≤ position → c.row current = c.row proposed :=
      fun c behind => ChainBlock.row_alike (validateUpgrade_alike legal behind)
    refine ⟨fun c _ => rows c, ?_⟩
    intro cfg reads reads' first last first' last' found found' clock follow follow' scanned
      scanned' c member late behind inside inside'
    obtain ⟨rfl, rfl, rfl⟩ := clock
    have before := @scan_block Blob { cfg with sources := current } _ _ _ single follow _ _ _
      scanned _ member late inside
    have after := @scan_block Blob { cfg with sources := proposed } _ _ _ single follow' _ _ _
      scanned' _ member late inside'
    exact before.trans ((rows c behind).trans after.symm)
  · let contracts := fun i => Classical.choice
      (@chainContract_shared Blob _ _ _ _ _ (shared i) (fun tip => (manifests tip).sources) single)
    have sound := Upgrading.Reaches.sound single positive faithful contracts reached
    have distinct := sound.linked.nodup
    refine ⟨fun slot covers => ?_, ⟨sound.tip, sound.linked, distinct⟩,
      fun request b member => (sound.head.posted request b member).2.1.tells,
      fun old superseded request b scanned => ?_⟩
    · have records := sound.head.records slot covers
      cases isTip : u.head.tip with
      | none =>
        rw [isTip] at records
        exact records.elim
      | some tip =>
        rw [isTip] at records
        exact ⟨tip, rfl, records⟩
    · rcases Option.eq_none_or_eq_some
        (u.step rootOf manifests originSlot
          (.indexer (.deliver request b) : UpgradeEvent Root Blob _)) with refused | ⟨u', taken⟩
      · exact refused
      · obtain ⟨head, moved, -⟩ := Option.map_eq_some_iff.mp taken
        simp only [System.step] at moved
        split at moved
        · -- an accepted batch names the tip, which is not among the older ones
          have current := (receive_accepted moved).1
          rw [sound.tip, scanned] at current
          have again : old ∉ u.tips.tail := by
            cases isTips : u.tips with
            | nil => simp
            | cons tip older =>
              rw [isTips] at current distinct
              cases current
              exact (List.nodup_cons.mp distinct).1
          exact (again superseded).elim
        · cases moved

/-! ### An account that hands over to another -/

def nextTip : Cid :=
  { version := 1, codec := dagCBOR, hash := { code := sha2_256, length := 32, digest := ⟨1⟩ } }

def soleSource : List Source :=
  [{ type := .blobTxs, address := 1, topic := 0, senders := [2], fromBlock := 0
     untilBlock := 0, openEnded := true }]

def handedOver (block : Nat) : List Source :=
  [{ type := .blobTxs, address := 1, topic := 0, senders := [2], fromBlock := 0
     untilBlock := block, openEnded := false },
   { type := .blobTxs, address := 1, topic := 0, senders := [9], fromBlock := block + 1
     untilBlock := 0, openEnded := true }]

def twoManifests (block : Nat) (tip : Cid) : Manifest :=
  if tip = sampleTip then { sources := soleSource, prev := none }
  else { sources := handedOver block, prev := some sampleTip }

def pairBlocks (early late : Nat) : List ChainBlock :=
  [{ hash := 10, block := { header := { number := 0, time := early }, transactions := [] }, logs := [] },
   { hash := 11, block := { header := { number := 1, time := late }, transactions := [sampleTx] }
     logs := [] }]

def pairL1 (early late : Nat) (lt : early < late) : L1 where
  blocks := pairBlocks early late
  numbered n b found := by
    match n with
    | 0 | 1 => cases found; rfl
    | n + 2 => cases found
  increasing m n b c found found' before := by
    match m, n with
    | 0, 1 => cases found; cases found'; exact lt
    | 0, 0 | 1, 0 | 1, 1 => omega
    | m + 2, _ => cases found
    | _, n + 2 => cases found'
  hashed := by simp [pairBlocks]
  signed := by simp [pairBlocks]
  logged := by simp [pairBlocks]
  ordered := by simp [pairBlocks]

section Pair

variable {early late block : Nat} {lt : early < late}

theorem pairL1_single {genesisTime secondsPerSlot : Nat}
    (apart : (early - genesisTime) / secondsPerSlot ≠ (late - genesisTime) / secondsPerSlot) :
    (pairL1 early late lt).OnePerSlot genesisTime secondsPerSlot := by
  intro b member c member' _ _ same
  have here : b ∈ pairBlocks early late := member
  have there : c ∈ pairBlocks early late := member'
  simp only [pairBlocks, List.mem_cons, List.not_mem_nil, or_false] at here there
  rcases here with rfl | rfl <;> rcases there with rfl | rfl
  · rfl
  · exact (apart same).elim
  · exact (apart same.symm).elim
  · rfl

def pairConfig (originSlot : Nat) : Config :=
  { originSlot, sources := soleSource, genesisTime := 1, secondsPerSlot := 12
    fetchBlobs := false, blockRange := 1000, rpcBatchSize := 1, maxPutBlobs := 64 }

def pairReads (early late : Nat) (published : Option (Cid × List Source)) : Reads Unit where
  manifest _ := .ok published
  latest := .ok (some { number := 1, time := late })
  header n := ((pairBlocks early late)[n]?.map fun b => b.block.header).elim (.error "not found") .ok
  headerByHash _ := .error "not found"
  filterLogs _ _ _ _ := .error "not found"
  transactionByHash _ := .error "not found"
  blockByNumber n := .ok ((pairBlocks early late)[n]?.map ChainBlock.block)
  blobs _ := .unknown
  putBlobs _ _ := .error "unused"
  allSyncedTo := .ok (some late)

theorem pairReads_follow {published : Option (Cid × List Source)}
    (honest : ∀ tip sources, published = some (tip, sources) →
      sources = (twoManifests block tip).sources) :
    (pairReads early late published).Follow (pairL1 early late lt)
      (fun tip => (twoManifests block tip).sources) where
  manifest i tip sources read := honest tip sources (Except.ok.inj read)
  latest h read := by
    cases read
    exact ⟨_, rfl, rfl⟩
  header n h read := by
    obtain ⟨b, found, isHeader⟩ := Option.map_eq_some_iff.mp (ok_of_elim read)
    exact ⟨b, found, isHeader⟩
  headerByHash x h read := by cases read
  filterLogs lo hi address topic logs read := by cases read
  transactionByHash x tx pending read := by cases read
  blockByNumber n block read _ := by
    obtain ⟨b, found, isBlock⟩ := Option.map_eq_some_iff.mp (Except.ok.inj read)
    exact ⟨b, found, isBlock⟩

def handOver (early late originSlot last : Nat) :
    List (UpgradeEvent (Option Nat) Unit fun _ : Unit => @chainIndexer Unit (pairConfig originSlot)) :=
  let reads := pairReads early late (some (sampleTip, soleSource))
  [.look,
    .preflight (pairConfig originSlot) ⟨none, none⟩ (pairReads early late none) sampleTip,
    .publish ⟨sampleTip, none, none⟩,
    .indexer (.plan () reads), .indexer (.fetch () reads), .indexer (.post () reads),
    .indexer (.deliver 0 { start := originSlot, last, rows := [⟨last, [sampleHash]⟩]
                           expectedManifest := some sampleTip }),
    .indexer (.acknowledge ()),
    .look,
    .preflight (pairConfig originSlot) ⟨some last, some last⟩ reads nextTip,
    .publish ⟨nextTip, some sampleTip, some last⟩]

theorem handOver_fair {originSlot last : Nat} {e : UpgradeEvent (Option Nat) Unit
      fun _ : Unit => @chainIndexer Unit (pairConfig originSlot)}
    (member : e ∈ handOver early late originSlot last)
    (u : Upgrading (Option Nat) fun _ : Unit => @chainIndexer Unit (pairConfig originSlot)) :
    Upgrading.Fair (pairL1 early late lt) (twoManifests block) 1 12 originSlot u e := by
  have before : (pairReads early late none).Follow (pairL1 early late lt)
      (fun tip => (twoManifests block tip).sources) :=
    pairReads_follow fun tip sources isPublished => by cases isPublished
  have after : (pairReads early late (some (sampleTip, soleSource))).Follow (pairL1 early late lt)
      (fun tip => (twoManifests block tip).sources) :=
    pairReads_follow fun tip sources isPublished => by cases isPublished; rfl
  simp only [handOver, List.mem_cons, List.not_mem_nil, or_false] at member
  rcases member with rfl | rfl | rfl | rfl | rfl | rfl | rfl | rfl | rfl | rfl | rfl
  · trivial
  · exact ⟨⟨rfl, rfl, rfl⟩, before⟩
  · trivial
  · exact after
  · exact after
  · exact after
  · trivial
  · trivial
  · trivial
  · exact ⟨⟨rfl, rfl, rfl⟩, after⟩
  · trivial

end Pair

theorem upgrades_keep_history_sample :
    ∃ u, Upgrading.run Indexing.Log.synced (twoManifests 1) 0 (handOver 13 25 0 2)
        (Upgrading.fresh _ _) = some u ∧
      u.head.log.synced = some 2 ∧ u.head.tip = some nextTip ∧
      ∀ slot, u.head.log.Covers 0 slot → ∃ tip, u.head.tip = some tip ∧
        u.head.log.hashes slot = (pairL1 13 25 (by decide)).row 1 12 (twoManifests 1 tip).sources slot := by
  have ends : (Upgrading.run Indexing.Log.synced (twoManifests 1) 0 (handOver 13 25 0 2)
      (Upgrading.fresh _ _)).map (fun u => (u.head.log.synced, u.head.tip)) =
        some (some 2, some nextTip) := by decide +kernel
  obtain ⟨u, ran, isEnd⟩ := Option.map_eq_some_iff.mp ends
  have reached : Upgrading.Reaches Indexing.Log.synced (twoManifests 1) 0 (fun u e =>
      Upgrading.Fair (pairL1 13 25 (by decide)) (twoManifests 1) 1 12 0 u e ∧ UpgradeEvent.Fits e) u := by
    refine Upgrading.Reaches.fresh.run (fun e member state => ⟨handOver_fair member state, ?_⟩) ran
    simp only [handOver, List.mem_cons, List.not_mem_nil, or_false] at member
    have short : ∀ h : Header, (pairReads 13 25 none).latest = .ok (some h) → h.number + 1 < 2 ^ 63 := by
      intro h read
      cases read
      decide
    rcases member with rfl | rfl | rfl | rfl | rfl | rfl | rfl | rfl | rfl | rfl | rfl
    · trivial
    · exact ⟨short, fun s synced => by cases synced⟩
    · trivial
    · trivial
    · trivial
    · trivial
    · trivial
    · trivial
    · trivial
    · exact ⟨short, fun s synced => by cases synced; decide⟩
    · trivial
  obtain ⟨-, keeps⟩ := @upgrades_keep_history Unit (Option Nat) Unit _ _ (pairL1 13 25 (by decide))
    (twoManifests 1) 1 12 0 (pairL1_single (by decide)) (by decide) Indexing.Log.synced
    (fun a b same => same) (fun _ => pairConfig 0) (fun _ => ⟨rfl, rfl, rfl⟩)
  exact ⟨u, ran, congrArg Prod.fst isEnd, congrArg Prod.snd isEnd, (keeps u reached).1⟩

/-- Where the time of the slot after the head's last one wraps, the search finds an early
block, and a manifest that rewrites a covered block passes. -/
theorem upgrade_rewrites_wrapped :
    ∃ u : Upgrading (Option Nat) fun _ : Unit => @chainIndexer Unit (pairConfig 1537228672809129300),
      (pairL1 5 18446744073709551615 (by decide)).OnePerSlot 1 12 ∧
      Upgrading.Reaches Indexing.Log.synced (twoManifests 0) 1537228672809129300
        (Upgrading.Fair (pairL1 5 18446744073709551615 (by decide)) (twoManifests 0) 1 12
          1537228672809129300) u ∧
      u.head.log.Covers 1537228672809129300 1537228672809129301 ∧
      u.head.tip = some nextTip ∧
      u.head.log.hashes 1537228672809129301 = [sampleHash] ∧
      (pairL1 5 18446744073709551615 (by decide)).row 1 12 (twoManifests 0 nextTip).sources
        1537228672809129301 = [] := by
  have ends : (Upgrading.run Indexing.Log.synced (twoManifests 0) 1537228672809129300
      (handOver 5 18446744073709551615 1537228672809129300 1537228672809129301)
      (Upgrading.fresh _ _)).map (fun u => (u.head.log.synced, u.head.tip,
        u.head.log.hashes 1537228672809129301)) =
        some (some 1537228672809129301, some nextTip, [sampleHash]) := by decide +kernel
  obtain ⟨u, ran, isEnd⟩ := Option.map_eq_some_iff.mp ends
  simp only [Prod.mk.injEq] at isEnd
  obtain ⟨synced, tip, hashes⟩ := isEnd
  refine ⟨u, pairL1_single (by decide), ?_, ⟨by decide, _, synced, Nat.le_refl _⟩, tip, hashes, ?_⟩
  · exact Upgrading.Reaches.fresh.run (fun e member state => handOver_fair member state) ran
  · decide +kernel

end Runs

end Bloar.Chain
