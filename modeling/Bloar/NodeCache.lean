import Bloar.Lru
import Bloar.Readers

/-!
The node stores of a head with the cache they share (`core/core.go`, `core/cache.go`). It
has decoded nodes of every type under the CIDs they were read at.
-/

namespace Bloar.Archive
open Ipld Schema Fallible Lru

variable {σ ι : Type} {T : ι → Type}

/-- The node is what the block of the CID decodes to. -/
def Decodes (ipld : Codec) (codec : (i : ι) → NodeCodec σ (T i)) (c : Cid) (v : Sigma T)
    (bytes : Nat) : Prop :=
  ∃ block, verifyBlockCID ipld c block = .ok () ∧ (codec v.1).decode block = .ok v.2 ∧
    bytes = size block

/-- The caches of a process. The lookups and insertions of concurrent calls come in any
order; the world in which a node was read may be another one by then. -/
inductive CacheReached (cfg : Config σ) (codec : (i : ι) → NodeCodec σ (T i)) :
    Cache Cid (Sigma T) → Prop where
  | new (budget : Nat) : CacheReached cfg codec ⟨[], 0, budget⟩
  | lookup {cache} (reached : CacheReached cfg codec cache) (c : Cid) :
      CacheReached cfg codec (cache.get c).2
  | insert {cache i c v bytes w after} (reached : CacheReached cfg codec cache)
      (read : decodeBlock cfg (codec i) c w = (.ok (v, bytes), after)) :
      CacheReached cfg codec (cache.add c ⟨i, v⟩ bytes)
  | purge {cache} (reached : CacheReached cfg codec cache) : CacheReached cfg codec cache.purge

variable {ipld : Codec} {base : Config σ} {codec : (i : ι) → NodeCodec σ (T i)} {i : ι} {c : Cid}
variable {w after : World σ} {bytes : Nat} {cache : Cache Cid (Sigma T)}

theorem decodeBlock_decodes {v : T i}
    (read : decodeBlock (validating ipld base) (codec i) c w = (.ok (v, bytes), after)) :
    Decodes ipld codec c ⟨i, v⟩ bytes := by
  rw [decodeBlock, bind_ok_iff] at read
  obtain ⟨block, middle, got, read⟩ := read
  have verified : verifyBlockCID ipld c block = .ok () := by
    unfold getBlock at got
    split at got
    · next answer =>
      cases got
      exact validating_verifies answer
    · cases got
  cases decoded : (codec i).decode block with
  | ok found =>
    rw [decoded] at read
    cases read
    exact ⟨block, verified, decoded, rfl⟩
  | error text =>
    rw [decoded] at read
    cases read

theorem Decodes.unique {v v' : T i} {bytes' : Nat} (first : Decodes ipld codec c ⟨i, v⟩ bytes)
    (second : Decodes ipld codec c ⟨i, v'⟩ bytes') : v = v' := by
  obtain ⟨block, verified, decoded, -⟩ := first
  obtain ⟨block', verified', decoded', -⟩ := second
  have digests := (verifyBlockCID_digest verified).trans (verifyBlockCID_digest verified').symm
  rw [ipld.sha256_injective digests, decoded'] at decoded
  exact (Except.ok.inj decoded).symm

theorem CacheReached.balanced (reached : CacheReached (validating ipld base) codec cache) :
    Balanced (Decodes ipld codec) cache := by
  induction reached with
  | new budget => exact ⟨rfl, Nat.zero_le _, by simp⟩
  | lookup reached c ih => exact ih.get c
  | insert reached read ih => exact ih.add (decodeBlock_decodes read)
  | purge reached ih => exact ⟨rfl, Nat.zero_le _, by simp [Cache.purge]⟩

variable [DecidableEq ι]

/-- The assertion that a cached node is of the type of the node store. -/
def assertType (i : ι) (v : Sigma T) : Option (T i) :=
  if same : v.1 = i then some (same ▸ v.2) else none

theorem assertType_some {x : Sigma T} {v : T i} (hit : assertType i x = some v) : x = ⟨i, v⟩ := by
  unfold assertType at hit
  split at hit
  · next same =>
    subst same
    cases hit
    rfl
  · cases hit

/-- `GetNode` with a cache. -/
def getCached (cfg : Config σ) (codec : (i : ι) → NodeCodec σ (T i)) (i : ι) (c : Link)
    (cache : Cache Cid (Sigma T)) (w : World σ) :
    Except Error (T i) × Cache Cid (Sigma T) × World σ :=
  match c with
  | none => (.error (.plain "core: GetNode on an undefined CID"), cache, w)
  | some c =>
    match (cache.get c).1.bind (assertType i) with
    | some v => (.ok v, (cache.get c).2, w)
    | none =>
      match decodeBlock cfg (codec i) c w with
      | (.ok (v, bytes), after) => (.ok v, (cache.get c).2.add c ⟨i, v⟩ bytes, after)
      | (.error e, after) => (.error e, (cache.get c).2, after)

theorem CacheReached.getCached {cfg : Config σ} (reached : CacheReached cfg codec cache) (i : ι)
    (c : Link) (w : World σ) : CacheReached cfg codec (getCached cfg codec i c cache w).2.1 := by
  unfold Archive.getCached
  split
  · exact reached
  · split
    · exact reached.lookup _
    · split
      · next read => exact (reached.lookup _).insert read
      · exact reached.lookup _

theorem getCached_cases (base : Config σ) (balanced : Balanced (Decodes ipld codec) cache) (i : ι)
    (c : Cid) (w : World σ) :
    let r := getCached (validating ipld base) codec i (some c) cache w
    (∃ v bytes, r.1 = .ok v ∧ Decodes ipld codec c ⟨i, v⟩ bytes) ∨
      ∃ e after, r.1 = .error e ∧
        decodeBlock (validating ipld base) (codec i) c w = (.error e, after) := by
  dsimp only [getCached]
  split
  · next v hit =>
    obtain ⟨x, found, same⟩ := Option.bind_eq_some_iff.mp hit
    obtain ⟨bytes, rule⟩ := balanced.get_rule found
    rw [assertType_some same] at rule
    exact .inl ⟨v, bytes, rfl, rule⟩
  · split
    · next v bytes after read => exact .inl ⟨v, bytes, rfl, decodeBlock_decodes read⟩
    · next e after read => exact .inr ⟨e, after, rfl, read⟩

/-- The cache stays within its budget and changes nothing that is read: a node store answers
as one without a cache or, where a read fails, with the node of the block that the CID
names. -/
theorem cached_getNode_agrees (reached : CacheReached (validating ipld base) codec cache) (i : ι)
    (c : Link) (w : World σ) :
    cache.bytes = (cache.entries.map Entry.cost).sum ∧ cache.bytes ≤ cache.budget ∧
      ((getCached (validating ipld base) codec i c cache w).1 =
          (getNode (validating ipld base) (codec i) c w).1 ∨
        ∃ id block v e, c = some id ∧ verifyBlockCID ipld id block = .ok () ∧
          (codec i).decode block = .ok v ∧
          (getCached (validating ipld base) codec i c cache w).1 = .ok v ∧
          (getNode (validating ipld base) (codec i) c w).1 = .error e) := by
  have balanced := reached.balanced
  refine ⟨balanced.bytes, balanced.bounded, ?_⟩
  cases c with
  | none => exact .inl rfl
  | some c =>
    obtain ⟨v, bytes, answer, rule⟩ | ⟨e, after, answer, failed⟩ :=
      getCached_cases base balanced i c w
    · rw [answer]
      rcases plain : getNode (validating ipld base) (codec i) (some c) w with ⟨e | found, after⟩
      · obtain ⟨block, verified, decoded, -⟩ := rule
        exact .inr ⟨c, block, v, e, rfl, verified, decoded, rfl, rfl⟩
      · rw [getNode, bind_ok_iff] at plain
        obtain ⟨⟨_, bytes'⟩, _, read, ⟨⟩⟩ := plain
        exact .inl (congrArg _ (rule.unique (decodeBlock_decodes read)))
    · left
      simp [answer, getNode, bind_run, failed]

theorem cached_getNode_agrees_sample : ∃ cache,
    CacheReached (validating DagCbor.codec sampleConfig) (fun _ : Unit => segs DagCbor.codec) cache ∧
      cache.entries.length = 1 ∧ cache.bytes ≤ cache.budget := by
  have reached : CacheReached (validating DagCbor.codec sampleConfig)
      (fun _ : Unit => segs DagCbor.codec) _ :=
    (CacheReached.new 4096).getCached () sampleApplied.cur.openCid sampleApplied
  exact ⟨_, reached, by decide +kernel, (cached_getNode_agrees reached () none sampleApplied).2.1⟩

end Bloar.Archive
