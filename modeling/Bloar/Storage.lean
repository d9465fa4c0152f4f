import Bloar.Engine

/-!
What the engine may assume of its storage, and what its node operations then
guarantee. The assumption is a predicate `holds` on worlds and CIDs that the
store's operations never take back: that a block is present is one instance, that
a block was written by this call or belonged to the old root is another. `unread`
is the proposition that a read of a held block may fail, and `flaky` that any
access may; where they are false such accesses succeed.
-/

namespace Bloar.Archive
open Ipld Schema Arith Fallible

variable {σ α : Type}

/-- What any step short of publication does to a world: nothing held is lost,
the current state stays, and the only writes are blocks. -/
structure Grows (holds : World σ → Cid → Prop) (w w' : World σ) : Prop where
  kept : ∀ c, holds w c → holds w' c
  cur : w'.cur = w.cur
  puts : ∃ cs : List Cid, w'.history = cs.map Event.put ++ w.history

instance grows_preorder (holds : World σ → Cid → Prop) : Fallible.Preorder (Grows holds) where
  refl w := ⟨fun _ held => held, rfl, [], rfl⟩
  trans := by
    rintro a b c ⟨keptA, curA, putsA, historyA⟩ ⟨keptB, curB, putsB, historyB⟩
    refine ⟨fun x held => keptB x (keptA x held), curB.trans curA, putsB ++ putsA, ?_⟩
    rw [historyB, historyA, List.map_append, List.append_assoc]

theorem Grows.trans {holds : World σ → Cid → Prop} {a b c : World σ} (first : Grows holds a b)
    (second : Grows holds b c) : Grows holds a c :=
  (grows_preorder holds).trans first second

structure SameStorage (w w' : World σ) : Prop where
  shared : w'.shared = w.shared
  cur : w'.cur = w.cur
  history : w'.history = w.history

structure Upholds (ipld : Codec) (cfg : Config σ) (holds : World σ → Cid → Prop)
    (unread flaky : Prop) : Prop where
  reads : unread → flaky
  scratch : ∀ {w w' c}, SameStorage w w' → holds w c → holds w' c
  get_keeps : ∀ c, Keeps (Grows holds) (getBlock cfg c)
  put_keeps : ∀ c block, Keeps (Grows holds) (putBlock cfg c block)
  resolve_keeps : ∀ resolve, cfg.resolver = some resolve → ∀ vh (w : World σ),
    Grows holds w { w with shared := (resolve vh w.shared).2 }
  /-- What is handed out for a held CID is the block it names. -/
  get_honest : ∀ {block w}, holds w (ipld.nodeCID block) → Post (getBlock cfg (ipld.nodeCID block)) w
    (fun found _ => found = block) (fun _ => True)
  get_held : ∀ {c w}, holds w c → Post (getBlock cfg c) w (fun _ _ => True) (fun _ => unread)
  put_held : ∀ block w, Post (putBlock cfg (ipld.nodeCID block) block) w
    (fun _ after => holds after (ipld.nodeCID block)) (fun _ => flaky)

def cidOf (ipld : Codec) (n : Node) : Cid := ipld.nodeCID (ipld.encode n)

structure Stored (ipld : Codec) (holds : World σ → Cid → Prop) (w : World σ) (n : Node) : Prop where
  held : holds w (cidOf ipld n)
  fits : size (ipld.encode n) ≤ maxIndexNodeBytes

variable {ipld : Codec} {cfg : Config σ} {holds : World σ → Cid → Prop} {unread flaky : Prop}

section Nodes

theorem Stored.mono {w w' : World σ} {n : Node} (stored : Stored ipld holds w n)
    (grows : Grows holds w w') : Stored ipld holds w' n :=
  ⟨grows.kept _ stored.held, stored.fits⟩

theorem keeps_within {R : World σ → World σ → Prop} {text : String} {x : Engine σ α}
    (kept : Keeps R x) : Keeps R (within text x) :=
  keeps_mapError kept

theorem post_within {text : String} {x : Engine σ α} {w : World σ} {Q : α → World σ → Prop}
    {E : Prop} (ran : Post x w Q fun _ => E) : Post (within text x) w Q fun _ => E :=
  post_mapError ran fun _ raised => raised

variable (up : Upholds ipld cfg holds unread flaky)
include up

theorem Upholds.sameStorage {w w' : World σ} (same : SameStorage w w') : Grows holds w w' :=
  ⟨fun _ held => up.scratch same held, same.cur, [], same.history⟩

theorem Upholds.getBlock_spec {w : World σ} {n : Node} (stored : Stored ipld holds w n) :
    Post (getBlock cfg (cidOf ipld n)) w (fun block _ => block = ipld.encode n)
      (fun _ => unread) := by
  have honest := up.get_honest stored.held
  have found := up.get_held stored.held
  unfold Post at *
  unfold cidOf at *
  split at found
  · rename_i block after ran
    rw [ran] at honest
    exact honest
  · exact found

variable {T : Type} {codec : NodeCodec σ T}

section Reads
variable {R : World σ → World σ → Prop} [Fallible.Preorder R] (reads : ∀ c, Keeps R (getBlock cfg c))
include reads

omit up

theorem decodeBlock_keeps (c : Cid) : Keeps R (decodeBlock cfg codec c) := by
  refine keeps_bind (reads c) fun block => ?_
  cases codec.decode block with
  | ok v => exact keeps_pure _
  | error text => exact keeps_fail _

theorem getNode_keeps (c : Link) : Keeps R (getNode cfg codec c) := by
  cases c with
  | none => exact keeps_fail _
  | some c => exact keeps_bind (decodeBlock_keeps reads c) fun _ => keeps_pure _

theorem openOrd_keeps (st : State) : Keeps R (openOrd ipld cfg st) :=
  keeps_bind (keeps_within (getNode_keeps reads _)) fun _ => keeps_pure _

end Reads

section
variable (up : Upholds ipld cfg holds unread flaky)
include up

theorem Upholds.decodeBlock_spec {w : World σ} {n : Node}
    {v : T} (stored : Stored ipld holds w n) (decodes : codec.decode (ipld.encode n) = .ok v) :
    Post (decodeBlock cfg codec (cidOf ipld n)) w
      (fun r _ => r = (v, size (ipld.encode n))) (fun _ => unread) := by
  refine post_then (up.getBlock_spec stored) ?_
  rintro block after rfl
  rw [decodes]
  exact post_pure rfl

theorem Upholds.getNode_spec {w : World σ} {n : Node}
    {v : T} (stored : Stored ipld holds w n) (decodes : codec.decode (ipld.encode n) = .ok v) :
    Post (getNode cfg codec (some (cidOf ipld n))) w (fun found _ => found = v)
      (fun _ => unread) := by
  refine post_then (up.decodeBlock_spec stored decodes) ?_
  rintro _ after rfl
  exact post_pure rfl

end

/-- An encoder of nodes: it succeeds exactly on the encodable ones whose block is
within the limit. -/
structure Writes (ipld : Codec) (holds : World σ → Cid → Prop) (codec : NodeCodec σ T)
    (node : T → Node) (encodable : T → Prop) : Prop where
  keeps : ∀ v, Keeps (Grows holds) (codec.encode v)
  encode : ∀ v w, Post (codec.encode v) w
    (fun r _ => encodable v ∧ r = encodeNode ipld (node v) ∧
      size (ipld.encode (node v)) ≤ maxIndexNodeBytes)
    (fun _ => encodable v → maxIndexNodeBytes < size (ipld.encode (node v)))

def Refused (ipld : Codec) (flaky : Prop) (encodable : Prop) (n : Node) : Prop :=
  flaky ∨ (encodable → maxIndexNodeBytes < size (ipld.encode n))

variable {node : T → Node} {encodable : T → Prop}

include up

theorem Upholds.putNode_keeps (writes : Writes ipld holds codec node encodable) (v : T) :
    Keeps (Grows holds) (putNode cfg codec v) := by
  refine keeps_bind (writes.keeps v) fun r => ?_
  exact keeps_bind (up.put_keeps _ _) fun _ => keeps_pure _

theorem Upholds.putNode_spec (writes : Writes ipld holds codec node encodable) (v : T) (w : World σ) :
    Post (putNode cfg codec v) w
      (fun c after => c = cidOf ipld (node v) ∧ Stored ipld holds after (node v) ∧ encodable v)
      (fun _ => Refused ipld flaky (encodable v) (node v)) := by
  refine post_then (post_raised (writes.encode v w) fun _ raised => .inr raised) ?_
  rintro _ middle ⟨accepted, rfl, fits⟩
  refine post_then (post_raised (up.put_held _ middle) fun _ raised => .inl raised) ?_
  intro _ after held
  exact post_pure ⟨rfl, ⟨held, fits⟩, accepted⟩

end Nodes

/-! ### The three encoders -/

section Encoders

theorem encoded_keeps (holds : World σ → Cid → Prop) (result : Checked (Block × Cid)) :
    Keeps (Grows holds) (encoded result : Engine σ (Block × Cid)) := by
  cases result with
  | ok r => exact keeps_pure r
  | error text => exact keeps_fail _

theorem Upholds.admitEncodedIndex_keeps (up : Upholds ipld cfg holds unread flaky)
    (kind : IndexNodeKind) (encodedBytes rows refs : Nat) :
    Keeps (Grows holds) (admitEncodedIndex kind encodedBytes rows refs : Engine σ Unit) := by
  intro w
  unfold admitEncodedIndex
  split
  · exact (grows_preorder holds).refl w
  · exact up.sameStorage ⟨rfl, rfl, rfl⟩

theorem admitEncodedIndex_spec (kind : IndexNodeKind) (encodedBytes rows refs : Nat)
    (w : World σ) :
    Post (admitEncodedIndex kind encodedBytes rows refs) w
      (fun _ _ => encodedBytes ≤ maxIndexNodeBytes) (fun _ => maxIndexNodeBytes < encodedBytes) := by
  unfold Post admitEncodedIndex
  split
  · rename_i returned
    split at returned
    · cases returned
    · omega
  · rename_i raised
    split at raised
    · assumption
    · cases raised

section
variable (up : Upholds ipld cfg holds unread flaky)
include up

/-- An encoder that runs a schema encoder, notes something in the scratch fields
and admits the size: the shape of all three. -/
theorem Upholds.writes_of_admit {T : Type}
    {node : T → Node} {encodable : T → Prop} (encode : T → Checked (Block × Cid))
    (encode_ok_iff : ∀ v r, encode v = .ok r ↔ encodable v ∧ r = encodeNode ipld (node v))
    (note : T → Block → World σ → World σ) (scratch : ∀ v data w, SameStorage w (note v data w))
    (kind : IndexNodeKind) (rows refs : T → Nat) {decode : Block → Checked T} :
    Writes ipld holds
      { encode := fun v => do
          let (data, id) ← encoded (encode v)
          modify (note v data)
          admitEncodedIndex kind (size data) (rows v) (refs v)
          pure (data, id)
        decode := decode } node encodable := by
  constructor
  · intro v
    refine keeps_bind (encoded_keeps holds _) fun r => ?_
    refine keeps_bind (keeps_modify fun w => up.sameStorage (scratch v r.1 w)) fun _ => ?_
    exact keeps_bind (up.admitEncodedIndex_keeps _ _ _ _) fun _ => keeps_pure _
  · intro v w
    cases result : encode v with
    | error text =>
      refine post_bind (encoded_keeps holds _) (P := fun _ _ => False) ?_
        (fun _ _ impossible => impossible.elim)
      rw [result]
      refine post_fail fun accepted => ?_
      have succeeds := (encode_ok_iff v _).mpr ⟨accepted, rfl⟩
      rw [result] at succeeds
      cases succeeds
    | ok r =>
      obtain ⟨accepted, rfl⟩ := (encode_ok_iff v r).mp result
      refine post_bind (encoded_keeps holds _)
        (P := fun r' _ => r' = encodeNode ipld (node v)) ?_ ?_
      · rw [result]
        exact post_pure rfl
      · rintro _ middle rfl -
        refine post_then (P := fun _ _ => True) (post_modify trivial) fun _ noted _ => ?_
        refine post_then (post_raised (admitEncodedIndex_spec _ _ _ _ noted)
            fun _ large _ => large) fun _ after fits => ?_
        exact post_pure ⟨accepted, rfl, fits⟩

theorem Upholds.segs_writes :
    Writes ipld holds (segs ipld) segmentNode Segment.Encodable :=
  up.writes_of_admit (encodeSegment ipld) (fun _ _ => encodeSegment_ok_iff)
    (fun _ data w => { w with segmentEncodedBytes := size data }) (fun _ _ _ => ⟨rfl, rfl, rfl⟩)
    .segment (fun s => s.rows.length) (fun s => countRefs s.rows)

theorem Upholds.dirs_writes :
    Writes ipld holds (dirs ipld) dirNodeNode (fun _ => True) :=
  up.writes_of_admit (encodeDirNode ipld) (fun d r => by simp [eq_comm]) (fun _ _ w => w)
    (fun _ _ _ => ⟨rfl, rfl, rfl⟩) .dir (fun _ => 0) (fun _ => 0)

theorem Upholds.heads_writes :
    Writes ipld holds (heads ipld) headNode Head.Encodable :=
  up.writes_of_admit (encodeHead ipld) (fun _ _ => encodeHead_ok_iff) (fun _ _ w => w)
    (fun _ _ _ => ⟨rfl, rfl, rfl⟩) .head (fun _ => 0) (fun _ => 0)

end

end Encoders

/-! ### Pointers -/

section Pointers
variable {T : Type} {codec : NodeCodec σ T} {node : T → Node} {encodable : T → Prop}

section
variable (up : Upholds ipld cfg holds unread flaky)
include up

theorem Upholds.load_keeps (p : Pointer T) :
    Keeps (Grows holds) (p.load cfg codec) := by
  unfold Pointer.load
  cases p.val with
  | some v => exact keeps_pure _
  | none =>
    refine keeps_ite (fun _ => ?_) fun _ => keeps_fail _
    exact keeps_bind (getNode_keeps up.get_keeps _) fun _ => keeps_pure _

theorem Upholds.mutate_keeps (p : Pointer T) (edit : T → T) :
    Keeps (Grows holds) (p.mutate cfg codec edit) := by
  unfold Pointer.mutate
  refine keeps_ite (fun _ => ?_) fun _ => ?_
  · cases p.val with
    | some v => exact keeps_pure _
    | none => exact keeps_fail _
  · cases p.cid with
    | none => exact keeps_fail _
    | some c =>
      exact keeps_bind (decodeBlock_keeps up.get_keeps c) fun _ => keeps_pure _

theorem Upholds.commit_keeps (writes : Writes ipld holds codec node encodable) (p : Pointer T) :
    Keeps (Grows holds) (p.commit cfg codec) := by
  unfold Pointer.commit
  refine keeps_ite (fun _ => ?_) fun _ => ?_
  · cases p.val with
    | none => exact keeps_fail _
    | some v =>
      exact keeps_bind (keeps_within (up.putNode_keeps writes v)) fun _ => keeps_pure _
  · cases p.cid with
    | none => exact keeps_fail _
    | some c => exact keeps_pure _

theorem Upholds.commit_dirty_spec
    (writes : Writes ipld holds codec node encodable) {p : Pointer T} {v : T}
    (dirty : p.dirty = true) (val : p.val = some v) (w : World σ) :
    Post (p.commit cfg codec) w
      (fun r after => r.1 = cidOf ipld (node v) ∧ Stored ipld holds after (node v) ∧ encodable v)
      (fun _ => Refused ipld flaky (encodable v) (node v)) := by
  simp only [Pointer.commit, dirty, if_true, val]
  refine post_then (post_within (up.putNode_spec writes v w)) ?_
  rintro c after ⟨rfl, stored, accepted⟩
  exact post_pure ⟨rfl, stored, accepted⟩

end

/-- The pointer stands for the segment `s`: dirty with that value, or clean at its
stored block. -/
inductive Points (ipld : Codec) (holds : World σ → Cid → Prop) (w : World σ) :
    Pointer Segment → Segment → Prop where
  | dirty {cid : Link} {s : Segment} : Points ipld holds w ⟨cid, some s, true⟩ s
  | clean {val : Option Segment} {s : Segment} (loaded : val = none ∨ val = some s)
      (stored : Stored ipld holds w (segmentNode s)) (encodable : s.Encodable) :
      Points ipld holds w ⟨some (cidOf ipld (segmentNode s)), val, false⟩ s

variable {w : World σ} {p : Pointer Segment} {s : Segment}

variable (points : Points ipld holds w p s)

include points in
theorem Points.mono {w' : World σ} (grows : Grows holds w w') : Points ipld holds w' p s := by
  cases points with
  | dirty => exact .dirty
  | clean loaded stored encodable => exact .clean loaded (stored.mono grows) encodable

theorem decodable_eq : decodable = maxIndexNodeBytes := rfl

theorem Stored.decodes_segment (stored : Stored ipld holds w (segmentNode s))
    (encodable : s.Encodable) : decodeSegment ipld (ipld.encode (segmentNode s)) = .ok s :=
  decodeSegment_encode encodable (by rw [decodable_eq]; exact stored.fits)

theorem Stored.decodes_dirNode {d : DirNode} (stored : Stored ipld holds w (dirNodeNode d)) :
    decodeDirNode ipld (ipld.encode (dirNodeNode d)) =
      .ok { kids := trimTrailingNulls d.kids } :=
  decodeDirNode_encode (by rw [decodable_eq]; exact stored.fits)

variable (up : Upholds ipld cfg holds unread flaky)
include up

include points

theorem Upholds.load_spec :
    Post (p.load cfg (segs ipld)) w
      (fun r after => r.1 = s ∧ r.2.dirty = p.dirty ∧ Points ipld holds after r.2 s)
      (fun _ => unread) := by
  cases points with
  | dirty => exact post_pure ⟨rfl, rfl, .dirty⟩
  | clean loaded stored encodable =>
    rcases loaded with rfl | rfl
    · refine post_bind (getNode_keeps up.get_keeps _)
        (up.getNode_spec stored (stored.decodes_segment encodable)) ?_
      rintro _ after rfl grows
      exact post_pure ⟨rfl, rfl, .clean (.inr rfl) (stored.mono grows) encodable⟩
    · exact post_pure ⟨rfl, rfl, .clean (.inr rfl) stored encodable⟩

theorem Upholds.mutate_spec (edit : Segment → Segment) :
    Post (p.mutate cfg (segs ipld) edit) w
      (fun q after => Points ipld holds after q (edit s)) (fun _ => unread) := by
  cases points with
  | dirty => exact post_pure .dirty
  | clean loaded stored encodable =>
    refine post_then (up.decodeBlock_spec stored (stored.decodes_segment encodable)) ?_
    rintro _ after rfl
    exact post_pure .dirty

theorem Upholds.commit_spec :
    Post (p.commit cfg (segs ipld)) w
      (fun r after => r.1 = cidOf ipld (segmentNode s) ∧
        Stored ipld holds after (segmentNode s) ∧ s.Encodable)
      (fun _ => Refused ipld flaky s.Encodable (segmentNode s)) := by
  cases points with
  | dirty => exact up.commit_dirty_spec up.segs_writes rfl rfl w
  | clean loaded stored encodable => exact post_pure ⟨rfl, stored, encodable⟩

end Pointers

/-! ### Publication -/

section Publication

/-- What publishing `st` from `w` leaves: the blocks written, then the swap. -/
structure Published (ipld : Codec) (holds : World σ → Cid → Prop) (w w' : World σ)
    (st : State) : Prop where
  cur : w'.cur = st
  root : st.root = some (cidOf ipld (headNode st.headObject))
  stored : Stored ipld holds w' (headNode st.headObject)
  encodable : st.headObject.Encodable
  kept : ∀ c, holds w c → holds w' c
  puts : ∃ cs : List Cid, w'.history = Event.swap st.root :: (cs.map Event.put ++ w.history)

def Unobserved (holds : World σ → Cid → Prop) : Prop :=
  ∀ (w : World σ) (st : State) (c : Cid), holds w c →
    holds { w with cur := st, history := .swap st.root :: w.history } c

theorem Published.prepend {w middle after : World σ} {st : State} (grows : Grows holds w middle)
    (published : Published ipld holds middle after st) : Published ipld holds w after st := by
  refine ⟨published.cur, published.root, published.stored, published.encodable,
    fun c held => published.kept c (grows.kept c held), ?_⟩
  obtain ⟨first, historyFirst⟩ := grows.puts
  obtain ⟨second, historySecond⟩ := published.puts
  refine ⟨second ++ first, ?_⟩
  rw [historySecond, historyFirst, List.map_append, List.append_assoc]

section
variable (up : Upholds ipld cfg holds unread flaky)
include up

theorem Upholds.published_scratch
    {w after after' : World σ} {st : State} (published : Published ipld holds w after st)
    (same : SameStorage after after') : Published ipld holds w after' st :=
  ⟨same.cur.trans published.cur, published.root,
    published.stored.mono (up.sameStorage same), published.encodable,
    fun c held => up.scratch same (published.kept c held), by
      rw [same.history]
      exact published.puts⟩

theorem Upholds.publish_keepsOnError (st : State) :
    KeepsOnError (Grows holds) (publish ipld cfg st) := by
  refine keepsOnError_bind (keeps_within (up.commit_keeps up.heads_writes _)) ?_
  rintro ⟨root, _⟩ w e after raised
  cases raised

theorem Upholds.publish_spec (unobserved : Unobserved holds)
    (st : State) (w : World σ) :
    Post (publish ipld cfg st) w
      (fun st' after => st' = { st with root := some (cidOf ipld (headNode st.headObject)) } ∧
        Published ipld holds w after st')
      (fun _ => Refused ipld flaky st.headObject.Encodable (headNode st.headObject)) := by
  refine post_bind (keeps_within (up.commit_keeps up.heads_writes _))
    (post_within (up.commit_dirty_spec up.heads_writes rfl rfl w)) ?_
  rintro ⟨root, _⟩ middle ⟨rfl, stored, encodable⟩ grows
  refine ⟨rfl, rfl, rfl, ⟨unobserved _ _ _ stored.held, stored.fits⟩, encodable,
    fun c held => unobserved _ _ _ (grows.kept c held), ?_⟩
  obtain ⟨cs, history⟩ := grows.puts
  exact ⟨cs, by simp only [history]⟩

theorem Upholds.openOrd_spec {w : World σ} {st : State}
    {s : Segment} (at_open : st.openCid = some (cidOf ipld (segmentNode s)))
    (stored : Stored ipld holds w (segmentNode s)) (encodable : s.Encodable) :
    Post (openOrd ipld cfg st) w (fun n _ => n = ord s.slot0 st.params.segBits)
      (fun _ => unread) := by
  unfold openOrd
  rw [at_open]
  refine post_then (post_within (up.getNode_spec stored (stored.decodes_segment encodable))) ?_
  rintro _ after rfl
  exact post_pure rfl

end

end Publication

end Bloar.Archive
