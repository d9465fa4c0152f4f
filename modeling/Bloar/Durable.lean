import Bloar.IndexSize
import Bloar.Load

/-!
Stores a head can rely on. A durable store keeps what is present and answers a
read of an index block with that block, but may fail at any access; a reliable
one also reads what is present.
-/

namespace Bloar.Archive
open Ipld Schema Fallible
variable {σ : Type}

/-- A content-addressed store that keeps what is present, with a resolver beside
it. Any access may fail. -/
structure Durable (ipld : Codec) (cfg : Config σ) (present : σ → Cid → Prop) : Prop where
  get_keeps : ∀ {c d s}, present s d → present (cfg.get c s).2 d
  put_keeps : ∀ {c block d s}, present s d → present (cfg.put c block s).2 d
  resolve_keeps : ∀ {resolve vh d s}, cfg.resolver = some resolve → present s d →
    present (resolve vh s).2 d
  put_present : ∀ {block s s'}, cfg.put (ipld.nodeCID block) block s = (.ok (), s') →
    present s' (ipld.nodeCID block)
  get_honest : ∀ {block found s s'}, cfg.get (ipld.nodeCID block) s = (.ok found, s') → found = block

structure Reliable (ipld : Codec) (cfg : Config σ) (present : σ → Cid → Prop) : Prop
    extends Durable ipld cfg present where
  get_present : ∀ {c s}, present s c → ∃ block s', cfg.get c s = (.ok block, s')

section Storage
variable {ipld : Codec} {cfg : Config σ} {present : σ → Cid → Prop} {w : World σ}

def Present (present : σ → Cid → Prop) (w : World σ) (c : Cid) : Prop := present w.shared c

theorem present_unobserved (present : σ → Cid → Prop) : Unobserved (Present present) :=
  fun _ _ _ held => held

theorem getBlock_cases (cfg : Config σ) (c : Cid) (w : World σ) :
    (∃ block, cfg.get c w.shared = (.ok block, (cfg.get c w.shared).2) ∧
      getBlock cfg c w = (.ok block, { w with shared := (cfg.get c w.shared).2 })) ∨
    ∃ e, getBlock cfg c w = (.error e, { w with shared := (cfg.get c w.shared).2 }) := by
  unfold getBlock
  rcases ran : cfg.get c w.shared with ⟨outcome, s⟩
  cases outcome with
  | ok block => exact .inl ⟨block, rfl, rfl⟩
  | error e => exact .inr ⟨_, rfl⟩

theorem putBlock_cases (cfg : Config σ) (c : Cid) (block : Block) (w : World σ) :
    (cfg.put c block w.shared = (.ok (), (cfg.put c block w.shared).2) ∧
      putBlock cfg c block w = (.ok (), { w with shared := (cfg.put c block w.shared).2
                                                 history := .put c :: w.history })) ∨
    ∃ e, putBlock cfg c block w =
      (.error e, { w with shared := (cfg.put c block w.shared).2 }) := by
  unfold putBlock
  rcases ran : cfg.put c block w.shared with ⟨outcome, s⟩
  cases outcome with
  | ok u => exact .inl ⟨rfl, rfl⟩
  | error e => exact .inr ⟨_, rfl⟩

variable (durable : Durable ipld cfg present)
include durable

theorem Durable.getBlock_honest (block : Block) (w : World σ) :
    Post (getBlock cfg (ipld.nodeCID block)) w (fun found _ => found = block) (fun _ => True) := by
  unfold Post
  rcases getBlock_cases cfg (ipld.nodeCID block) w with ⟨found, read, ran⟩ | ⟨_, ran⟩ <;> rw [ran]
  · exact durable.get_honest read
  · trivial

/-- The engine's contract from that of the store, for presence. `unread` is false
where present blocks can be read. -/
theorem Durable.upholds_of {unread : Prop}
    (readable : ∀ {c s}, present s c → unread ∨ ∃ block s', cfg.get c s = (.ok block, s')) :
    Upholds ipld cfg (Present present) unread True where
  reads _ := trivial
  scratch := by
    intro w w' c same held
    unfold Present at held ⊢
    rw [same.shared]
    exact held
  get_keeps c w := by
    rcases getBlock_cases cfg c w with ⟨_, -, ran⟩ | ⟨_, ran⟩ <;> rw [ran] <;>
      exact ⟨fun _ held => durable.get_keeps held, rfl, [], rfl⟩
  put_keeps c block w := by
    rcases putBlock_cases cfg c block w with ⟨-, ran⟩ | ⟨_, ran⟩ <;> rw [ran]
    · exact ⟨fun _ held => durable.put_keeps held, rfl, [c], rfl⟩
    · exact ⟨fun _ held => durable.put_keeps held, rfl, [], rfl⟩
  resolve_keeps resolve resolver vh w :=
    ⟨fun _ held => durable.resolve_keeps resolver held, rfl, [], rfl⟩
  get_honest _ := durable.getBlock_honest _ _
  get_held := by
    intro c w held
    unfold Post
    rcases getBlock_cases cfg c w with ⟨found, -, ran⟩ | ⟨_, ran⟩
    · rw [ran]
      trivial
    · rcases readable held with failed | ⟨block, s', read⟩
      · split
        · trivial
        · exact failed
      · rw [getBlock, read] at ran
        cases ran
  put_held block w := by
    unfold Post
    rcases putBlock_cases cfg (ipld.nodeCID block) block w with ⟨put, ran⟩ | ⟨_, ran⟩ <;> rw [ran]
    · exact durable.put_present put
    · trivial

theorem Durable.upholds : Upholds ipld cfg (Present present) True True :=
  durable.upholds_of fun _ => .inl trivial

omit durable

theorem Reliable.upholds (reliable : Reliable ipld cfg present) :
    Upholds ipld cfg (Present present) False True :=
  reliable.toDurable.upholds_of fun held => .inr (reliable.get_present held)

/-- A store in memory that finds a block by its hash, with a resolver that knows a
blob for every hash. -/
def memory (ipld : Codec) (blob : VersionedHash → Block) : Config (List Block) where
  get c blocks :=
    match blocks.find? fun b => ipld.sum c.codec b = c with
    | some b => (.ok b, blocks)
    | none => (.error .notFound, blocks)
  put _ block blocks := (.ok (), block :: blocks)
  resolver := some fun vh blocks => (.ok (some (ipld.sum raw (blob vh)), true), blocks)
  structureCache := none
  collectionGeneration := none

def InMemory (ipld : Codec) (blocks : List Block) (c : Cid) : Prop :=
  ∃ b ∈ blocks, ipld.sum c.codec b = c

theorem memory_get (ipld : Codec) (blob : VersionedHash → Block) (c : Cid) (blocks : List Block) :
    ((memory ipld blob).get c blocks).2 = blocks := by
  simp only [memory]
  split <;> rfl

theorem memory_reliable (ipld : Codec) (blob : VersionedHash → Block) :
    Reliable ipld (memory ipld blob) (InMemory ipld) where
  get_keeps := by
    intro c d s held
    rw [memory_get]
    exact held
  put_keeps := by
    rintro c block d s ⟨b, member, same⟩
    exact ⟨b, List.mem_cons_of_mem _ member, same⟩
  resolve_keeps := by
    rintro resolve vh d s ⟨⟩ held
    exact held
  put_present := by
    rintro block s s' ⟨⟩
    exact ⟨block, by simp, rfl⟩
  get_honest := by
    intro block found s s' read
    simp only [memory] at read
    split at read
    · rename_i b same
      cases read
      have hash : ipld.sum (ipld.nodeCID block).codec found = ipld.nodeCID block := by
        simpa using List.find?_some same
      exact ipld.nodeCID_injective hash
    · cases read
  get_present := by
    rintro c s ⟨b, member, same⟩
    simp only [memory]
    cases found : s.find? fun b => ipld.sum c.codec b = c with
    | some other => exact ⟨other, s, rfl⟩
    | none =>
      rw [List.find?_eq_none] at found
      exact absurd same (by simpa using found b member)

theorem memory_upholds (ipld : Codec) (blob : VersionedHash → Block) :
    Upholds ipld (memory ipld blob) (Present (InMemory ipld)) False False :=
  { (memory_reliable ipld blob).upholds with
    reads := id
    put_held := fun block w => ⟨block, by simp, rfl⟩ }

/-! ### Progress in memory -/

def blobRows (ipld : Codec) (blob : VersionedHash → Block) (rows : List RefRow) : List Row :=
  rows.map fun r =>
    { slot := r.slot
      entries := r.vhs.map fun vh => { vh, blob := some (ipld.sum raw (blob vh)) } }

section Progress
variable {blob : VersionedHash → Block} {mw : World (List Block)} {params : Params} {m : Contents}
variable {rows : List RefRow} {newSyncedTo : Nat}

theorem memory_probeBlob (ipld : Codec) (blob : VersionedHash → Block) {block : Block}
    (stored : block ∈ mw.shared) :
    probeBlob (memory ipld blob) (ipld.sum raw block) mw = (.ok true, mw) := by
  obtain ⟨found, s, read⟩ := (memory_reliable ipld blob).get_present
    (⟨block, stored, rfl⟩ : InMemory ipld mw.shared (ipld.sum raw block))
  have kept := memory_get ipld blob (ipld.sum raw block) mw.shared
  rw [read] at kept
  simp only at kept
  rw [probeBlob, read, kept]

theorem memory_resolveVHs {vhs : List VersionedHash} (stored : ∀ vh ∈ vhs, blob vh ∈ mw.shared) :
    resolveVHs (memory ipld blob)
        (fun vh blocks => (.ok (some (ipld.sum raw (blob vh)), true), blocks)) vhs mw =
      (.ok ([], vhs.map fun vh => { vh, blob := some (ipld.sum raw (blob vh)) }), mw) := by
  induction vhs with
  | nil => rfl
  | cons vh rest ih =>
    have here := memory_probeBlob ipld blob (stored vh (by simp))
    rw [resolveVHs, bind_of_ok (show resolveBlob _ vh mw = (.ok _, mw) from rfl)]
    simp only
    rw [bind_of_ok here, bind_of_ok (ih fun other member => stored other (by simp [member]))]
    rfl

theorem memory_resolveRows (ipld : Codec) (stored : ∀ r ∈ rows, ∀ vh ∈ r.vhs, blob vh ∈ mw.shared) :
    resolveRows (memory ipld blob) rows mw = (.ok (blobRows ipld blob rows), mw) := by
  have resolved : resolveRowsFrom (memory ipld blob)
      (fun vh blocks => (.ok (some (ipld.sum raw (blob vh)), true), blocks)) rows mw =
      (.ok ([], blobRows ipld blob rows), mw) := by
    induction rows with
    | nil => rfl
    | cons r rest ih =>
      rw [resolveRowsFrom, bind_of_ok (memory_resolveVHs (stored r (by simp)))]
      simp only
      rw [bind_of_ok (ih fun other member => stored other (by simp [member]))]
      rfl
  unfold resolveRows
  simp only [memory] at resolved ⊢
  rw [bind_of_ok resolved]
  rfl

def Params.Brief (params : Params) : Prop :=
  220 + params.net.toByteArray.size + params.name.toByteArray.size ≤ maxIndexNodeBytes

instance (params : Params) : Decidable params.Brief := inferInstanceAs (Decidable (_ ≤ _))

section Flawless
variable {τ : Type} {store : Config τ} {holds : World τ → Cid → Prop} {tw : World τ}
variable {out : List Row} {middle : World τ}

variable (up : Upholds DagCbor.codec store holds False False)
include up

theorem Upholds.new_returns (unobserved : Unobserved holds) (usable : params.Usable)
    (brief : params.Brief) (shared : τ) :
    ∃ w, new DagCbor.codec store params (newHead shared params) = (.ok (), w) ∧
      Represents DagCbor.codec params holds w ⟨none, []⟩ := by
  obtain ⟨_, w, ran, represents, -⟩ := post_returns
    (up.new_spec unobserved params (newHead shared params)) (by
      rintro - (impossible | unusable | large)
      · exact impossible
      · exact unusable usable
      · exact absurd (Nat.le_trans (size_rootNode_le params _) brief) (Nat.not_le.mpr large))
  exact ⟨w, ran, represents⟩

theorem Upholds.applyRefs_returns (unobserved : Unobserved holds)
    (represents : Represents DagCbor.codec params holds tw m)
    (shaped : Shaped params.originSlot newSyncedTo rows) (advances : Advances m rows newSyncedTo)
    (resolved : resolveRows store rows tw = (.ok out, middle)) (bounded : newSyncedTo < maxInt64)
    (narrow : params.fanoutBits ≤ 15) (brief : params.Brief)
    (fits : ∀ win, size (DagCbor.encode (segmentNode (segOf params.segBits (m.rows ++ out) win))) ≤
      maxIndexNodeBytes) :
    ∃ r w, applyRefs DagCbor.codec store rows newSyncedTo tw = (.ok r, w) ∧
      Represents DagCbor.codec params holds w ⟨some newSyncedTo, m.rows ++ out⟩ := by
  obtain ⟨r, w, ran, replayed | extended⟩ := post_returns
    (up.applyRefs_spec unobserved represents) (by
      rintro - (impossible | wrong | ⟨stays, -⟩ | failed | ⟨other, fault⟩ | ⟨other, large⟩)
      · exact impossible
      · exact wrong shaped
      · exact stays advances
      · rw [resolved] at failed
        cases failed
      · obtain ⟨rfl, -⟩ : out = _ ∧ _ := by
          simpa only [resolved, Prod.mk.injEq, Except.ok.injEq] using other
        rcases fault with impossible | big | ⟨win, large⟩ | late
        · exact impossible
        · exact not_bigPage narrow big
        · exact absurd (fits win) (Nat.not_le.mpr large)
        · exact absurd (late _ rfl) (Nat.not_le.mpr bounded)
      · exact absurd (Nat.le_trans (size_rootNode_le params _) brief) (Nat.not_le.mpr large))
  · obtain ⟨-, ⟨⟨s, covered, back⟩, -⟩, -⟩ := replayed
    exact absurd (advances s covered).1 (Nat.not_lt.mpr back)
  · obtain ⟨-, -, -, out', middle', other, extended⟩ := extended
    obtain ⟨rfl, -⟩ : out = out' ∧ middle = middle' := by
      simpa only [resolved, Prod.mk.injEq, Except.ok.injEq] using other
    exact ⟨r, w, ran, extended.represents⟩

end Flawless

theorem memory_new (blob : VersionedHash → Block) (usable : params.Usable) (brief : params.Brief)
    (blocks : List Block) :
    ∃ w, new DagCbor.codec (memory DagCbor.codec blob) params (newHead blocks params) =
        (.ok (), w) ∧
      Represents DagCbor.codec params (Present (InMemory DagCbor.codec)) w ⟨none, []⟩ :=
  (memory_upholds DagCbor.codec blob).new_returns (present_unobserved _) usable brief blocks

theorem memory_applyRefs
    (represents : Represents DagCbor.codec params (Present (InMemory DagCbor.codec)) mw m)
    (shaped : Shaped params.originSlot newSyncedTo rows) (advances : Advances m rows newSyncedTo)
    (stored : ∀ r ∈ rows, ∀ vh ∈ r.vhs, blob vh ∈ mw.shared) (bounded : newSyncedTo < maxInt64)
    (narrow : params.fanoutBits ≤ 15) (brief : params.Brief)
    (fits : ∀ win, size (DagCbor.encode (segmentNode
      (segOf params.segBits (m.rows ++ blobRows DagCbor.codec blob rows) win))) ≤
        maxIndexNodeBytes) :
    ∃ r w, applyRefs DagCbor.codec (memory DagCbor.codec blob) rows newSyncedTo mw = (.ok r, w) ∧
      Represents DagCbor.codec params (Present (InMemory DagCbor.codec)) w
        ⟨some newSyncedTo, m.rows ++ blobRows DagCbor.codec blob rows⟩ :=
  (memory_upholds DagCbor.codec blob).applyRefs_returns (present_unobserved _) represents shaped
    advances (memory_resolveRows DagCbor.codec stored) bounded narrow brief fits

end Progress

end Storage

end Bloar.Archive
