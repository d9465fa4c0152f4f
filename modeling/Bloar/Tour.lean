import Bloar.IndexTree

/-!
The setting of a walk. A `Ground` is a root with the store and the cache a walk
uses, and what it may rely on there. A `Tour` is a covered head over its ground,
within the budgets that its geometry needs. `Walked` is the invariant of the walk
itself: what its tables say is true of the CIDs they name, everything it counted
is an index block of the root, and the bytes it read are those of the blocks that
had no current proof.
-/

namespace Bloar.Archive
open Ipld Schema Arith Fallible RadixList

variable {σ α : Type}

open Classical in
noncomputable def sizeOf (ipld : Codec) (c : Cid) : Nat :=
  if named : ∃ block, c = ipld.nodeCID block then size named.choose else 0

theorem sizeOf_nodeCID (ipld : Codec) (block : Block) :
    sizeOf ipld (ipld.nodeCID block) = size block := by
  have named : ∃ other, ipld.nodeCID block = ipld.nodeCID other := ⟨block, rfl⟩
  rw [sizeOf, dif_pos named, ← ipld.nodeCID_injective named.choose_spec]

def BytesWithin (ipld : Codec) (P : Cid → Prop) (limit : Nat) : Prop :=
  ∀ cs : Finset Cid, (∀ c ∈ cs, P c) → ∑ c ∈ cs, sizeOf ipld c ≤ limit

theorem BytesWithin.mono {ipld : Codec} {P Q : Cid → Prop} {limit : Nat}
    (within : BytesWithin ipld Q limit) (sub : ∀ c, P c → Q c) : BytesWithin ipld P limit :=
  fun cs each => within cs fun c member => sub c (each c member)

def ProofOf (ipld : Codec) (c : Cid) (proof : SegmentProof) : Prop :=
  ∃ s, IsSegment ipld c s ∧ proof = proofOf s

def Current (generation : Nat) (generationKnown : Bool) (p : CachedSegmentProof) : Prop :=
  generationKnown = true ∧ p.generationKnown = true ∧ p.generation = generation

structure Ground (σ : Type) where
  ipld : Codec
  cfg : Config σ
  /-- What holds of the shared state throughout. -/
  inv : σ → Prop
  /-- The blocks known to be present. -/
  seen : σ → Cid → Prop
  /-- The segments with a current proof in the cache. -/
  fresh : Cid → Prop
  /-- What may go wrong around the walk. -/
  fault : Prop
  root : Cid
  generation : Nat
  generationKnown : Bool
  get_inv : ∀ {c s}, inv s → inv (cfg.get c s).2
  get_keeps : ∀ {c d s}, inv s → seen s d → seen (cfg.get c s).2 d
  get_seen : ∀ {block s s'}, inv s → cfg.get (ipld.nodeCID block) s = (.ok block, s') →
    seen s' (ipld.nodeCID block)
  get_index : ∀ {block kind s}, inv s → Reaches ipld root kind (ipld.nodeCID block) →
    fault ∨ (cfg.get (ipld.nodeCID block) s).1 = .ok block
  read_inv : ∀ {cache s}, cfg.structureCache = some cache → inv s → inv (cache.read s).2
  read_keeps : ∀ {cache d s}, cfg.structureCache = some cache → inv s → seen s d →
    seen (cache.read s).2 d
  read_proof : ∀ {cache c p s}, cfg.structureCache = some cache → inv s →
    (cache.read s).1.lookup c = some p → ProofOf ipld c p.proof
  read_current : ∀ {cache c p s}, cfg.structureCache = some cache → inv s →
    (cache.read s).1.lookup c = some p → Current generation generationKnown p →
    fresh c ∧ seen (cache.read s).2 c
  read_stale : ∀ {cache c s}, cfg.structureCache = some cache → inv s →
    (∀ p, (cache.read s).1.lookup c = some p → ¬ Current generation generationKnown p) →
    fault ∨ ¬ fresh c
  uncached : cfg.structureCache = none → ∀ c, fault ∨ ¬ fresh c
  fresh_segment : ∀ {c}, fresh c → fault ∨ ∃ s, IsSegment ipld c s

namespace Ground
variable (t : Ground σ)

def Index (c : Cid) : Prop := ∃ kind, Reaches t.ipld t.root kind c

def Over : Prop :=
  ¬ BytesWithin t.ipld (fun c => t.Index c ∧ ¬ t.fresh c) maxEnumerationDecodedBytes

def Fails : Prop := t.fault ∨ t.Over

/-- The bytes a walk has read are those of the blocks without a current proof. -/
structure Charged (budget : EnumerationBudget) : Prop where
  read : ∃ read ⊆ budget.unique, budget.decodedByte = ∑ c ∈ read, sizeOf t.ipld c ∧
    (∀ c ∈ read, t.fault ∨ ¬ t.fresh c) ∧ ∀ c ∈ budget.unique, c ∉ read → t.fresh c
  within : budget.decodedByte ≤ maxEnumerationDecodedBytes

structure ReadTo (c : Cid) (s : Walking σ) (data : Block) (s' : Walking σ) : Prop where
  new : c ∉ s.walker.budget.unique
  named : c = t.ipld.nodeCID data
  small : size data ≤ maxEnumerationNodeBytes
  within : s.walker.budget.decodedByte + size data ≤ maxEnumerationDecodedBytes
  inv : t.inv s'.world.shared
  kept : ∀ d, t.seen s.world.shared d → t.seen s'.world.shared d
  seen : t.seen s'.world.shared c
  world : s'.world = { s.world with shared := s'.world.shared }
  walker : s'.walker = { s.walker with budget := { s.walker.budget with
    unique := insert c s.walker.budget.unique
    decodedByte := s.walker.budget.decodedByte + size data } }

def ReadFault (c : Cid) (budget : EnumerationBudget) : Prop :=
  ∀ block kind, c = t.ipld.nodeCID block → size block ≤ maxEnumerationNodeBytes →
    Reaches t.ipld t.root kind c →
    t.fault ∨ c ∈ budget.unique ∨ maxEnumerationUniqueNodes ≤ budget.unique.card ∨
      maxEnumerationDecodedBytes < budget.decodedByte + size block

end Ground

structure Tour (σ : Type) extends Ground σ where
  world : World σ
  head : Schema.Head
  openOrd : Nat
  sealedCount : Nat
  holds : inv world.shared
  isHead : IsHead ipld root head
  loaded : world.cur = State.ofHead head (some root)
  fanout_pos : 0 < head.fanoutBits
  fanout_le : head.fanoutBits ≤ 32
  openOrd_eq : openOrd = ord (head.syncedTo.getD 0 + 1) head.segBits
  window_count : ord head.originSlot head.segBits + sealedCount = openOrd
  sealed_le : sealedCount ≤ maxEnumerationOutputs
  depth : IsDepth head.fanoutBits sealedCount head.dirDepth
  paths_le : ∀ level, head.dirDepth = level + 1 →
    pathsOf (2 ^ head.fanoutBits) level sealedCount ≤ maxEnumerationPaths

namespace Tour
variable (t : Tour σ)

def params : Params := t.world.cur.params

def base : Nat := t.world.cur.dirBase

def radix : Nat := 2 ^ t.params.fanoutBits

theorem params_eq : t.params =
    { name := t.head.name, net := t.head.net, originSlot := t.head.originSlot
      segBits := t.head.segBits, fanoutBits := t.head.fanoutBits } := by
  rw [params, t.loaded]
  rfl

theorem radix_pos : 0 < t.radix := Nat.two_pow_pos _

theorem base_add : t.base + t.sealedCount = t.openOrd := by
  rw [base, State.dirBase, t.loaded]
  exact t.window_count

theorem window_small {window : Nat} (before : window ≤ t.openOrd) :
    window * 2 ^ t.params.segBits ≤ 2 ^ 63 := by
  have synced : t.head.syncedTo.getD 0 ≤ maxInt64 := by
    obtain ⟨block, -, -, decoded⟩ := t.isHead
    have limit := (decodeHead_encodable decoded).syncedInt
    cases found : t.head.syncedTo with
    | none => simp
    | some s => exact limit s found
  have start : t.openOrd * 2 ^ t.head.segBits ≤ t.head.syncedTo.getD 0 + 1 := by
    rw [← le_ord_iff, ← t.openOrd_eq]
  have lower : window * 2 ^ t.head.segBits ≤ t.openOrd * 2 ^ t.head.segBits :=
    Nat.mul_le_mul_right _ before
  rw [params_eq]
  dsimp only
  rw [maxInt64_eq] at synced
  omega

structure Laid (level : Nat) (c : Cid) (start : Nat) (es : List Link) : Prop where
  page : PageAt t.ipld t.radix level c es
  sealed : SealedAt t.ipld t.params (t.base + start) es

structure Walked (offset : Nat) (s : Walking σ) : Prop where
  world : s.world = { t.world with shared := s.world.shared }
  inv : t.inv s.world.shared
  st : s.walker.st = t.world.cur
  generation : s.walker.generation = t.generation
  generationKnown : s.walker.generationKnown = t.generationKnown
  offset_le : offset ≤ t.sealedCount
  counted : ∀ c, c ∈ s.walker.budget.unique ↔
    c = t.root ∨ c ∈ s.walker.out.dirPages ∨ c ∈ s.walker.segments
  index : ∀ c ∈ s.walker.budget.unique, t.seen s.world.shared c ∧ t.Index c
  charged : t.Charged s.walker.budget
  node : ∀ {c page}, s.walker.dirNodes.lookup c = some page → IsPage t.ipld c page
  nodes : ∀ c, c ∈ s.walker.dirNodes ↔ c ∈ s.walker.out.dirPages
  pages_le : s.walker.out.dirPages.length ≤ s.walker.budget.paths
  paths_le : s.walker.budget.paths ≤ maxEnumerationPaths
  segment : ∀ {c win}, s.walker.segments.lookup c = some win →
    (∃ upper opened sg, SegmentAt t.ipld t.params c win upper opened sg) ∧
      (win = t.openOrd ∨ win < t.base + offset)
  segments_le : s.walker.segments.keys.card ≤ offset + 1
  memo : ∀ {c depth entries summary}, s.walker.dirMemo.lookup ⟨c, depth, entries⟩ = some summary →
    ∃ level start es, depth = level + 1 ∧ es.length = entries ∧ t.Laid level c start es ∧
      start + entries ≤ offset ∧ summary.paths = pathsOf t.radix level entries ∧
      summary.segments = es.countP Option.isSome ∧
      ∀ p ∈ pagesUnder t.ipld level c, p ∈ s.walker.out.dirPages
  contains : ∀ {c}, s.walker.dirContains.lookup c = some true →
    ∃ (level start : Nat) (es : List Link) (i : Nat) (link : Cid), t.Laid level c start es ∧
      start + es.length ≤ offset ∧ es[i]? = some (some link)
  proofs : ∀ {c p}, s.walker.newProofs.lookup c = some p →
    ProofOf t.ipld c p.proof ∧ p.generation = t.generation ∧
      p.generationKnown = t.generationKnown ∧ c ∈ s.walker.segments
  proved : ∀ c ∈ s.walker.segments, c ∈ s.walker.newProofs ∨ t.fresh c
  outputs : s.walker.budget.outputs = s.walker.out.sealed.length
  outputs_le : s.walker.budget.outputs ≤ offset

/-- Everything but the blocks counted, the segments and their proofs is as before. -/
structure Beside (s s' : Walking σ) : Prop where
  paths : s'.walker.budget.paths = s.walker.budget.paths
  outputs : s'.walker.budget.outputs = s.walker.budget.outputs
  out : s'.walker.out = s.walker.out
  active : s'.walker.dirActive = s.walker.dirActive
  segments : ∀ c ∈ s.walker.segments, c ∈ s'.walker.segments

end Tour

/-! ### Steps of a walk -/

section Steps
variable {t : Tour σ} {s : Walking σ}

theorem post_onHead {x : Engine σ α} {Q : α → World σ → Prop} {E : Error → Prop}
    (ran : Post x s.world Q E) :
    Post (onHead x) s (fun value s' => Q value s'.world ∧ s'.walker = s.walker) E := by
  unfold Post onHead at *
  rcases run : x s.world with ⟨outcome, w⟩
  rw [run] at ran
  cases outcome with
  | ok value => exact ⟨ran, rfl⟩
  | error e => exact ran

theorem post_charge {f : EnumerationBudget → Except Error (α × EnumerationBudget)}
    {Q : α → Walking σ → Prop} {E : Error → Prop}
    (ok : ∀ value budget, f s.walker.budget = .ok (value, budget) →
      Q value { s with walker := { s.walker with budget } })
    (error : ∀ e, f s.walker.budget = .error e → E e) : Post (charge f) s Q E := by
  unfold Post charge
  rcases charged : f s.walker.budget with e | ⟨value, budget⟩
  · exact error e charged
  · exact ok value budget charged

variable {b : EnumerationBudget} {c : Cid} {budget : EnumerationBudget}

theorem addUnique_ok {b' : EnumerationBudget} {new : Bool} (added : b.addUnique c = .ok (new, b')) :
    (new = true ↔ c ∉ b.unique) ∧ b' = { b with unique := insert c b.unique } := by
  unfold EnumerationBudget.addUnique at added
  by_cases old : c ∈ b.unique
  · rw [if_pos old] at added
    cases added
    simp [old, Finset.insert_eq_of_mem old]
  · rw [if_neg old] at added
    by_cases full : b.unique.card ≥ maxEnumerationUniqueNodes
    · rw [if_pos full] at added
      cases added
    · rw [if_neg full] at added
      cases added
      simp [old]

theorem addUnique_error {e : Error} (refused : b.addUnique c = .error e) :
    maxEnumerationUniqueNodes ≤ b.unique.card := by
  unfold EnumerationBudget.addUnique at refused
  by_cases old : c ∈ b.unique
  · rw [if_pos old] at refused
    cases refused
  · rw [if_neg old] at refused
    by_contra room
    rw [if_neg (by omega)] at refused
    cases refused

theorem admitBytes_ok_iff {kind : String} {bytes : Nat} {u : Unit} :
    b.admitBytes kind bytes = .ok u ↔
      bytes ≤ maxEnumerationNodeBytes ∧ bytes ≤ maxEnumerationDecodedBytes - b.decodedByte := by
  simp only [EnumerationBudget.admitBytes, refuse_ok_iff, Nat.not_lt]
  simp

theorem admitBytes_error {kind : String} {bytes : Nat} {e : Error}
    (refused : b.admitBytes kind bytes = .error e) (small : bytes ≤ maxEnumerationNodeBytes) :
    maxEnumerationDecodedBytes < b.decodedByte + bytes := by
  by_contra room
  have ok : b.admitBytes kind bytes = .ok () := admitBytes_ok_iff.mpr ⟨small, by omega⟩
  rw [ok] at refused
  cases refused

theorem Ground.getBlock_post (t : Ground σ) {w : World σ} (inv : t.inv w.shared) (c : Cid) :
    Post (getBlock t.cfg c) w
      (fun data after => t.inv after.shared ∧ (∀ d, t.seen w.shared d → t.seen after.shared d) ∧
        (c = t.ipld.nodeCID data → t.seen after.shared c) ∧
        after = { w with shared := after.shared } ∧
        ∀ block kind, c = t.ipld.nodeCID block → Reaches t.ipld t.root kind c →
          t.fault ∨ data = block)
      (fun _ => ∀ block kind, c = t.ipld.nodeCID block → Reaches t.ipld t.root kind c →
        t.fault) := by
  have stays := t.get_inv inv (c := c)
  have keeps := fun d => t.get_keeps inv (c := c) (d := d)
  unfold Post getBlock
  rcases read : t.cfg.get c w.shared with ⟨outcome, shared⟩
  rw [read] at stays keeps
  cases outcome with
  | ok data =>
    refine ⟨stays, keeps, fun named => ?_, rfl, fun block kind named reached => ?_⟩
    · subst named
      exact t.get_seen inv read
    · subst named
      refine (t.get_index inv reached).imp id fun found => ?_
      rw [read] at found
      exact Except.ok.inj found
  | error e =>
    intro block kind named reached
    subst named
    rcases t.get_index inv reached with failed | found
    · exact failed
    · rw [read] at found
      cases found

theorem Ground.readNode_spec (t : Ground σ) (inv : t.inv s.world.shared)
    (cbor : HasPrefix dagCBOR c) (charged : t.Charged s.walker.budget) (what : String) :
    Post (readNode t.ipld t.cfg c what) s (t.ReadTo c s)
      (fun _ => t.ReadFault c s.walker.budget) := by
  refine post_then (post_charge (fun new budget added => ?_) fun e refused => ?_)
    (P := fun new s' => (new = true ↔ c ∉ s.walker.budget.unique) ∧
      s' = { s with walker := { s.walker with budget :=
        { s.walker.budget with unique := insert c s.walker.budget.unique } } }) ?_
  · obtain ⟨fresh, rfl⟩ := addUnique_ok added
    exact ⟨fresh, rfl⟩
  · intro block kind named small reached
    exact .inr (.inr (.inl (addUnique_error refused)))
  rintro new _ ⟨fresh, rfl⟩
  refine post_guard_bind (fun twice block kind named small reached => .inr (.inl ?_)) fun isNew => ?_
  · by_contra absent
    rw [fresh.mpr absent] at twice
    cases twice
  have absent := fresh.mp isNew
  refine post_then (post_raised (post_onHead (post_within (t.getBlock_post inv c)))
    fun _ failed block kind named _ reached =>
      .inl (failed block kind named reached)) ?_
  rintro data ⟨after, _⟩ ⟨⟨stays, keeps, seen, sameWorld, honest⟩, rfl⟩
  refine post_get_bind ?_
  refine post_ofExcept_bind (fun e refused block kind named small reached => ?_) fun _ admitted => ?_
  · rcases honest block kind named reached with failed | rfl
    · exact .inl failed
    · exact .inr (.inr (.inr (admitBytes_error refused small)))
  obtain ⟨small, room⟩ := admitBytes_ok_iff.mp admitted
  dsimp only at room
  refine post_ofExcept_bind (fun e refused block kind named _ reached => ?_) fun _ verified => ?_
  · refine .inl ((honest block kind named reached).resolve_right fun same => ?_)
    have ok : verifyBlockCID t.ipld c data = .ok () :=
      (verifyBlockCID_ok_iff cbor).mpr (same ▸ named)
    rw [ok] at refused
    cases refused
  have named := (verifyBlockCID_ok_iff cbor).mp (mapError_ok_iff.mp verified)
  have total := charged.within
  exact post_modify_bind (post_pure ⟨absent, named, small, by omega, stays, keeps, seen named,
    sameWorld, rfl⟩)

/-! ### Budgets of a walk -/

theorem Ground.Charged.read_more {t : Ground σ} (charged : t.Charged budget) {data : Block}
    (named : c = t.ipld.nodeCID data) (new : c ∉ budget.unique) (stale : t.fault ∨ ¬ t.fresh c)
    (within : budget.decodedByte + size data ≤ maxEnumerationDecodedBytes) :
    t.Charged { budget with unique := insert c budget.unique
                            decodedByte := budget.decodedByte + size data } := by
  obtain ⟨read, sub, bytes, each, others⟩ := charged.read
  refine ⟨⟨insert c read, Finset.insert_subset_insert c sub, ?_, ?_, ?_⟩, within⟩
  · rw [Finset.sum_insert fun inside => new (sub inside), named, sizeOf_nodeCID, bytes, Nat.add_comm]
  · intro d member
    rcases Finset.mem_insert.mp member with rfl | old
    · exact stale
    · exact each d old
  · intro d member out
    rw [Finset.mem_insert, not_or] at out
    exact others d ((Finset.mem_insert.mp member).resolve_left out.1) out.2

theorem Ground.Charged.count_fresh {t : Ground σ} (charged : t.Charged budget) (fresh : t.fresh c) :
    t.Charged { budget with unique := insert c budget.unique } := by
  obtain ⟨read, sub, bytes, each, others⟩ := charged.read
  refine ⟨⟨read, sub.trans (Finset.subset_insert _ _), bytes, each, fun d member out => ?_⟩,
    charged.within⟩
  rcases Finset.mem_insert.mp member with rfl | old
  · exact fresh
  · exact others d old out

/-- Reading one more index block goes over the limit only if the head is. -/
theorem Ground.Charged.fails {t : Ground σ} (charged : t.Charged budget)
    (index : ∀ c ∈ budget.unique, t.Index c) {block : Block} (named : c = t.ipld.nodeCID block)
    (new : c ∉ budget.unique) (reached : t.Index c) (stale : t.fault ∨ ¬ t.fresh c)
    (exceeds : maxEnumerationDecodedBytes < budget.decodedByte + size block) : t.Fails := by
  obtain ⟨read, sub, bytes, each, -⟩ := charged.read
  by_cases failed : t.fault
  · exact .inl failed
  refine .inr fun within => ?_
  have bound := within (insert c read) fun d member => by
    rcases Finset.mem_insert.mp member with rfl | old
    · exact ⟨reached, stale.resolve_left failed⟩
    · exact ⟨index d (sub old), (each d old).resolve_left failed⟩
  rw [Finset.sum_insert fun inside => new (sub inside), ← bytes, named, sizeOf_nodeCID] at bound
  omega

variable {offset : Nat}

theorem Tour.Walked.unique_room (walked : t.Walked offset s) :
    s.walker.budget.unique.card < maxEnumerationUniqueNodes := by
  have sub : s.walker.budget.unique ⊆
      insert t.root (s.walker.out.dirPages.toFinset ∪ s.walker.segments.keys) := by
    intro c member
    simpa [Finmap.mem_keys] using (walked.counted c).mp member
  have count := (Finset.card_le_card sub).trans (Finset.card_insert_le _ _)
  have parts := Finset.card_union_le s.walker.out.dirPages.toFinset s.walker.segments.keys
  have pages := List.toFinset_card_le s.walker.out.dirPages
  have pages_le := walked.pages_le
  have paths_le := walked.paths_le
  have segments_le := walked.segments_le
  have offset_le := Nat.le_trans walked.offset_le t.sealed_le
  have outputs : maxEnumerationOutputs = 1048576 := rfl
  have paths : maxEnumerationPaths = 2097152 := rfl
  have unique : maxEnumerationUniqueNodes = 4194304 := rfl
  omega

theorem Tour.Walked.readFault_fails (walked : t.Walked offset s) {c : Cid} {block : Block}
    {kind : Kind} (named : c = t.ipld.nodeCID block) (small : size block ≤ maxEnumerationNodeBytes)
    (reached : Reaches t.ipld t.root kind c) (new : c ∉ s.walker.budget.unique)
    (stale : t.fault ∨ ¬ t.fresh c) (fault : t.ReadFault c s.walker.budget) : t.Fails := by
  rcases fault block kind named small reached with failed | old | full | exceeds
  · exact .inl failed
  · exact absurd old new
  · exact absurd walked.unique_room (Nat.not_lt.mpr full)
  · exact walked.charged.fails (fun c member => (walked.index c member).2) named new ⟨kind, reached⟩
      stale exceeds

end Steps

end Bloar.Archive
