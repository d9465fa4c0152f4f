import Bloar.Fixed
import Bloar.Epoch

/-!
Enumeration while others use the store. Between any two operations of an
enumeration, applications read and write, collections begin, delete and end, and
other enumerations update the shared structure cache. `Scene` is the state they
share, with a log of the blocks that an application has found or written at each
generation. A proof may be remembered for a generation only when the log has its
block there; every enumeration keeps to that rule.
-/

namespace Bloar.Archive
open Ipld Schema Fallible Store
inductive Move where
  | op (op : Op)
  | remember (proofs : StructureCache)

/-- What the others do before one operation of an enumeration, and whether the base
store then fails. -/
structure Turn where
  moves : List Move
  fails : Bool

structure Scene where
  epochs : Epochs
  cache : StructureCache
  log : Multihash → Nat → Prop
  turns : List Turn

namespace Scene
variable (ipld : Codec)

def does (s : Scene) (op : Op) : Scene :=
  { s with epochs := (op.perform s.epochs).2
           log := fun key count => s.log key count ∨
             (count = s.epochs.begun ∧ ∃ c : Cid, c.hash = key ∧ op.Shows s.epochs c) }

def Vouches (s : Scene) (proofs : StructureCache) : Prop :=
  ∀ c p, proofs.lookup c = some p → ProofOf ipld c p.proof ∧
    (p.generationKnown = true → ∃ count, p.generation = idOf count ∧ s.log c.hash count)

open Classical in
noncomputable def move (s : Scene) : Move → Scene
  | .op op => if op.Tame then s.does op else s
  | .remember proofs =>
    if s.Vouches ipld proofs then { s with cache := StructureCache.remember proofs s.cache } else s

noncomputable def interfere (s : Scene) : Scene :=
  match s.turns with
  | [] => s
  | turn :: rest => turn.moves.foldl (move ipld) { s with turns := rest }

def fails (s : Scene) : Bool :=
  match s.turns with
  | [] => false
  | turn :: _ => turn.fails

end Scene

/-- The machinery of a head in such a scene: every operation but the last waits for
the others' turn. -/
noncomputable def amid (ipld : Codec) : Config Scene where
  get c s :=
    let op := Op.get c s.fails
    let s := s.interfere ipld
    match (op.perform s.epochs).1 with
    | .block data => (.ok data, s.does op)
    | _ => (.error .notFound, s.does op)
  put c data s :=
    let op := Op.put c data (if s.fails then some false else none)
    let s := s.interfere ipld
    match (op.perform s.epochs).1 with
    | .done => (.ok (), s.does op)
    | _ => (.error "put failed", s.does op)
  resolver := none
  structureCache := some
    { read := fun s => ((s.interfere ipld).cache, s.interfere ipld)
      update := fun f s => { s with cache := f s.cache } }
  collectionGeneration := some fun s =>
    ((s.interfere ipld).epochs.collectionGeneration, s.interfere ipld)

structure Scene.Sound (ipld : Codec) (s : Scene) : Prop where
  numbered : s.epochs.nextID = idOf s.epochs.begun
  logged : ∀ key count, s.log key count →
    count ≤ s.epochs.begun ∧ (count = s.epochs.begun → s.epochs.Safe key)
  vouched : s.Vouches ipld s.cache

structure Scene.Follows (s t : Scene) : Prop where
  begun_le : s.epochs.begun ≤ t.epochs.begun
  log : ∀ key count, s.log key count → t.log key count

section Scenes
variable {ipld : Codec} {s t u : Scene} {op : Op}

theorem Scene.Follows.refl (s : Scene) : s.Follows s := ⟨Nat.le_refl _, fun _ _ logged => logged⟩

theorem Scene.Follows.trans (first : s.Follows t) (second : t.Follows u) : s.Follows u :=
  ⟨Nat.le_trans first.begun_le second.begun_le, fun key count logged =>
    second.log key count (first.log key count logged)⟩

theorem Scene.does_follows (s : Scene) (tame : op.Tame) : s.Follows (s.does op) :=
  ⟨(Op.effect tame).begun_le, fun _ _ logged => .inl logged⟩

theorem Scene.Vouches.follows {proofs : StructureCache} (vouches : s.Vouches ipld proofs)
    (follows : s.Follows t) : t.Vouches ipld proofs := by
  intro c p found
  obtain ⟨right, known⟩ := vouches c p found
  refine ⟨right, fun stamped => ?_⟩
  obtain ⟨count, same, logged⟩ := known stamped
  exact ⟨count, same, follows.log _ _ logged⟩

variable (sound : s.Sound ipld)
include sound

theorem Scene.Sound.does (tame : op.Tame) : (s.does op).Sound ipld := by
  have effect := Op.effect (s := s.epochs) tame
  refine ⟨effect.numbered sound.numbered, ?_, sound.vouched.follows (s.does_follows tame)⟩
  rintro key count (old | ⟨rfl, c, rfl, shows⟩)
  · obtain ⟨le, safe⟩ := sound.logged key count old
    have more : s.epochs.begun ≤ (op.perform s.epochs).2.begun := effect.begun_le
    refine ⟨Nat.le_trans le more, fun current => ?_⟩
    change count = (op.perform s.epochs).2.begun at current
    have back : (op.perform s.epochs).2.begun = s.epochs.begun := by omega
    exact (safe (by omega)).effect effect back
  · exact ⟨effect.begun_le, fun _ => shows.safe⟩

theorem Scene.Sound.remember {proofs : StructureCache} (vouches : s.Vouches ipld proofs) :
    { s with cache := StructureCache.remember proofs s.cache }.Sound ipld := by
  refine ⟨sound.numbered, sound.logged, fun c p found => ?_⟩
  rcases remember_lookup found with new | old
  · exact vouches c p new
  · exact sound.vouched c p old

theorem Scene.Sound.move (m : Move) : (s.move ipld m).Sound ipld ∧ s.Follows (s.move ipld m) := by
  cases m with
  | op op =>
    simp only [Scene.move]
    split
    · rename_i tame
      exact ⟨sound.does tame, s.does_follows tame⟩
    · exact ⟨sound, .refl s⟩
  | remember proofs =>
    simp only [Scene.move]
    split
    · rename_i vouches
      exact ⟨sound.remember vouches, Nat.le_refl _, fun _ _ logged => logged⟩
    · exact ⟨sound, .refl s⟩

theorem Scene.Sound.moves (moves : List Move) :
    (moves.foldl (Scene.move ipld) s).Sound ipld ∧ s.Follows (moves.foldl (Scene.move ipld) s) := by
  induction moves generalizing s with
  | nil => exact ⟨sound, .refl s⟩
  | cons m rest ih =>
    obtain ⟨first, follows⟩ := sound.move m
    obtain ⟨last, later⟩ := ih first
    exact ⟨last, follows.trans later⟩

theorem Scene.Sound.interfere : (s.interfere ipld).Sound ipld ∧ s.Follows (s.interfere ipld) := by
  unfold Scene.interfere
  cases s.turns with
  | nil => exact ⟨sound, .refl s⟩
  | cons turn rest =>
    have start : { s with turns := rest }.Sound ipld :=
      ⟨sound.numbered, sound.logged, sound.vouched⟩
    obtain ⟨after, follows⟩ := start.moves turn.moves
    exact ⟨after, follows.begun_le, follows.log⟩

end Scenes

/-! ### The ground of an enumeration -/

section Amid
variable {ipld : Codec} {s s' origin : Scene} {start : Nat}

/-- The block is one that was found or written at the generation the enumeration
began in, if that is still the one. -/
def Scene.SeenSince (start : Nat) (s : Scene) (c : Cid) : Prop :=
  s.epochs.begun < 2 ^ 64 → s.epochs.begun = start → s.log c.hash start

theorem Scene.SeenSince.follows {c : Cid} (seen : s.SeenSince start c) (le : start ≤ s.epochs.begun)
    (follows : s.Follows s') : s'.SeenSince start c := by
  intro bounded same
  have between := follows.begun_le
  exact follows.log _ _ (seen (by omega) (by omega))

structure Scene.Since (ipld : Codec) (origin s : Scene) : Prop where
  sound : s.Sound ipld
  follows : origin.Follows s

theorem Scene.Since.interfere (since : Scene.Since ipld origin s) :
    Scene.Since ipld origin (s.interfere ipld) ∧ s.Follows (s.interfere ipld) := by
  obtain ⟨sound, follows⟩ := since.sound.interfere
  exact ⟨⟨sound, since.follows.trans follows⟩, follows⟩

theorem amid_get_state (ipld : Codec) (s : Scene) (c : Cid) :
    ((amid ipld).get c s).2 = (s.interfere ipld).does (.get c s.fails) := by
  simp only [amid]
  split <;> rfl

theorem amid_get_ok {c : Cid} {data : Block} (read : ((amid ipld).get c s).1 = .ok data) :
    (Op.get c s.fails).Shows (s.interfere ipld).epochs c := by
  simp only [amid] at read
  refine ⟨rfl, fun failed => ?_⟩
  split at read
  · rename_i found
    rw [failed] at found
    cases found
  · cases read

theorem amid_get_follows (since : Scene.Since ipld origin s) (c : Cid) :
    Scene.Since ipld origin ((amid ipld).get c s).2 ∧ s.Follows ((amid ipld).get c s).2 := by
  obtain ⟨after, follows⟩ := since.interfere
  rw [amid_get_state]
  have tame : (Op.get c s.fails).Tame := trivial
  have later := (s.interfere ipld).does_follows tame
  exact ⟨⟨after.sound.does tame, after.follows.trans later⟩, follows.trans later⟩

noncomputable def amidGround (ipld : Codec) (root : Cid) (origin : Scene) : Ground Scene where
  ipld := ipld
  cfg := amid ipld
  inv := Scene.Since ipld origin
  seen := Scene.SeenSince origin.epochs.begun
  fresh := fun _ => True
  fault := True
  root := root
  generation := idOf origin.epochs.begun
  generationKnown := true
  get_inv := fun since => (amid_get_follows since _).1
  get_keeps := fun since seen => seen.follows since.follows.begun_le (amid_get_follows since _).2
  get_seen := by
    intro block s s' since read bounded same
    have state := amid_get_state ipld s (ipld.nodeCID block)
    rw [read] at state
    change s' = _ at state
    subst state
    have shows := amid_get_ok (congrArg Prod.fst read)
    obtain ⟨after, -⟩ := since.interfere
    have tame : (Op.get (ipld.nodeCID block) s.fails).Tame := trivial
    have later := (s.interfere ipld).does_follows tame
    have between := later.begun_le
    have stable := after.follows.begun_le
    change ((s.interfere ipld).does _).epochs.begun = origin.epochs.begun at same
    exact .inr ⟨by omega, _, rfl, shows⟩
  get_index := fun _ _ => .inl trivial
  read_inv := by
    rintro cache s ⟨⟩ since
    exact since.interfere.1
  read_keeps := by
    rintro cache d s ⟨⟩ since seen
    exact seen.follows since.follows.begun_le since.interfere.2
  read_proof := by
    rintro cache c p s ⟨⟩ since found
    exact (since.interfere.1.sound.vouched c p found).1
  read_current := by
    rintro cache c p s ⟨⟩ since found ⟨-, known, stamp⟩
    refine ⟨trivial, fun bounded same => ?_⟩
    have sound := since.interfere.1.sound
    obtain ⟨count, named, logged⟩ := (sound.vouched c p found).2 known
    have le := (sound.logged _ _ logged).1
    change (s.interfere ipld).epochs.begun < 2 ^ 64 at bounded
    change (s.interfere ipld).epochs.begun = origin.epochs.begun at same
    -- Too few collections have begun for an identifier to come back.
    have unique : origin.epochs.begun = count :=
      idOf_inj (same ▸ le) (same ▸ bounded) (stamp.symm.trans named)
    rw [unique]
    exact logged
  read_stale := fun _ _ _ => .inl trivial
  uncached := fun _ _ => .inl trivial
  fresh_segment := fun _ => .inl trivial

theorem amid_collectionGeneration (ipld : Codec) (w : World Scene) :
    collectionGeneration (amid ipld) w =
      (.ok ((w.shared.interfere ipld).epochs.collectionGeneration, true),
        { w with shared := w.shared.interfere ipld }) := rfl

theorem amid_checkGeneration {w : World Scene} (since : Scene.Since ipld origin w.shared) :
    Post (checkGeneration (amid ipld) (idOf origin.epochs.begun) true) w
      (fun _ w' => w' = { w with shared := w.shared.interfere ipld } ∧
        (w'.shared.epochs.begun < 2 ^ 64 → w'.shared.epochs.begun = origin.epochs.begun))
      (fun _ => True) := by
  unfold checkGeneration
  simp only [if_true]
  refine post_then (P := fun found w' =>
    found.1 = (w.shared.interfere ipld).epochs.collectionGeneration ∧
      w' = { w with shared := w.shared.interfere ipld }) ?_ ?_
  · rw [Post, amid_collectionGeneration]
    exact ⟨rfl, rfl⟩
  rintro ⟨current, known⟩ w' ⟨read, rfl⟩
  refine post_guard (fun passed => ⟨rfl, fun bounded => ?_⟩) fun _ => trivial
  obtain ⟨⟨sound, follows⟩, -⟩ := since.interfere
  have unchanged : current = idOf origin.epochs.begun := of_decide_eq_true passed
  have numbered : current = idOf (w.shared.interfere ipld).epochs.begun :=
    read.trans sound.numbered
  change (w.shared.interfere ipld).epochs.begun < 2 ^ 64 at bounded
  change (w.shared.interfere ipld).epochs.begun = origin.epochs.begun
  exact idOf_inj follows.begun_le bounded (numbered.symm.trans unchanged)

end Amid

/-! ### A successful enumeration -/

structure Scene.Enumerated (ipld : Codec) (root : Cid) (after : Scene) : Prop where
  sound : after.Sound ipld
  present : ∀ {kind c}, Reaches ipld root kind c → (after.epochs.blocks c.hash).isSome
  /-- Its own update of the cache is one that the others may rely on. -/
  update : ∃ (s : Scene) (proofs : StructureCache), s.Vouches ipld proofs ∧
    after = { s with cache := StructureCache.remember proofs s.cache }

section Enumerates
variable {ipld : Codec} {root : Cid} {h : Schema.Head} {w : World Scene} {origin : Scene}

/-- A block seen at the generation of the final check is there. -/
theorem Scene.SeenSince.present {s : Scene} {start : Nat} {c : Cid} (seen : s.SeenSince start c)
    (sound : s.Sound ipld) (bounded : s.epochs.begun < 2 ^ 64) (same : s.epochs.begun = start) :
    (s.epochs.blocks c.hash).isSome :=
  ((sound.logged _ _ (seen bounded same)).2 same.symm).present

theorem amid_finish_spec (opened : Opened ipld root h w)
    (since : Scene.Since ipld origin w.shared) {openOrd sealedCount : Nat}
    (spans : Spans (State.ofHead h (some root)) openOrd sealedCount) :
    Post (do
        let walker ← startWalk (startWalker w.cur openOrd (idOf origin.epochs.begun) true) (do
          let _ ← readNode ipld (amid ipld) root "Head"
          walkHead ipld (amid ipld) openOrd sealedCount)
        checkGeneration (amid ipld) (idOf origin.epochs.begun) true
        rememberSegments (amid ipld) walker.newProofs
        pure walker.out) w
      (fun _ w' => w'.shared.epochs.begun < 2 ^ 64 → w'.shared.Enumerated ipld root)
      (fun _ => True) := by
  let t := (amidGround ipld root origin).tour opened since spans
  refine post_then (post_raised (post_startWalk t.walk_spec) fun _ _ => trivial) ?_
  rintro walker w₁ ⟨openCid, es, finished⟩
  have since₁ : Scene.Since ipld origin w₁.shared := finished.walked.inv
  refine post_then (amid_checkGeneration since₁) ?_
  rintro _ _ ⟨rfl, still⟩
  obtain ⟨since₂, follows⟩ := since₁.interfere
  refine post_modify_bind (post_pure fun bounded => ?_)
  have same := still bounded
  have vouches : (w₁.shared.interfere ipld).Vouches ipld walker.newProofs := by
    intro c p found
    obtain ⟨right, stamp, known, noted⟩ := finished.walked.proofs found
    have counted := (finished.walked.counted c).mpr (.inr (.inr noted))
    have seen : w₁.shared.SeenSince origin.epochs.begun c := (finished.walked.index c counted).1
    exact ⟨right, fun _ => ⟨_, stamp, seen.follows since₁.follows.begun_le follows bounded same⟩⟩
  refine ⟨since₂.sound.remember vouches, fun reached => ?_, ⟨_, _, vouches, rfl⟩⟩
  have seen : w₁.shared.SeenSince origin.epochs.begun _ := finished.seen ⟨_, reached⟩
  exact (seen.follows since₁.follows.begun_le follows).present since₂.sound bounded same

theorem post_readNode_got {σ : Type} {cfg : Config σ} {s : Walking σ} {c : Cid} {what : String} :
    Post (readNode ipld cfg c what) s
      (fun _ s' => ∃ data, cfg.get c s.world.shared = (.ok data, s'.world.shared)) (fun _ => True) := by
  have got (w : World σ) : Post (getBlock cfg c) w
      (fun data w' => cfg.get c w.shared = (.ok data, w'.shared)) (fun _ => True) := by
    unfold Post getBlock
    rcases cfg.get c w.shared with ⟨outcome | data, shared⟩
    · trivial
    · rfl
  refine post_then (P := fun _ s' => s'.world = s.world)
    (post_charge (fun _ _ _ => rfl) fun _ _ => trivial) ?_
  rintro new s₁ world
  refine post_guard_bind (fun _ => trivial) fun _ => ?_
  refine post_then (post_onHead (post_within (got s₁.world))) ?_
  rintro data s₂ ⟨read, -⟩
  refine post_get_bind (post_ofExcept_bind (fun _ _ => trivial) fun _ _ => ?_)
  refine post_ofExcept_bind (fun _ _ => trivial) fun _ _ => post_modify_bind (post_pure ⟨data, ?_⟩)
  rw [← world, read]

theorem amid_bare_spec (opened : Opened ipld root h w) (dir : h.dir = none)
    (openCid : h.openCid = none) (since : Scene.Since ipld origin w.shared) :
    Post (do
        let walker ← startWalk (startWalker w.cur 0 (idOf origin.epochs.begun) true) (do
          let _ ← readNode ipld (amid ipld) root "Head"
          pure ())
        pure walker.out) w
      (fun _ w' => w'.shared.epochs.begun < 2 ^ 64 → w'.shared.Enumerated ipld root)
      (fun _ => True) := by
  refine post_then (post_startWalk
    (Q := fun s => ∃ data, (amid ipld).get root w.shared = (.ok data, s.world.shared))
    (post_then post_readNode_got fun _ s got => post_pure got)) ?_
  rintro walker w' ⟨data, read⟩
  have state : ((amid ipld).get root w.shared).2 = w'.shared := congrArg Prod.snd read
  obtain ⟨after, -⟩ := amid_get_follows since root
  have safe := (amid_get_ok (congrArg Prod.fst read)).safe
  rw [state] at after
  rw [amid_get_state] at state
  refine post_pure fun _ => ⟨after.sound, fun reached => ?_, w'.shared, ∅, ?_, ?_⟩
  · obtain ⟨-, rfl⟩ := reaches_bare opened.isHead dir openCid reached
    rw [← state]
    exact safe.present
  · intro c p found
    simp at found
  · simp [StructureCache.remember]

/-- Whatever the others do, a successful enumeration has shown every index block to
be there at its end. -/
theorem amid_enumerate_spec (opened : Opened ipld root h w) (sound : w.shared.Sound ipld) :
    Post (enumerate ipld (amid ipld)) w
      (fun _ w' => w'.shared.epochs.begun < 2 ^ 64 → w'.shared.Enumerated ipld root)
      (fun _ => True) := by
  obtain ⟨sound₁, -⟩ := sound.interfere
  have since : Scene.Since ipld (w.shared.interfere ipld) (w.shared.interfere ipld) :=
    ⟨sound₁, .refl _⟩
  have opened₁ : Opened ipld root h { w with shared := w.shared.interfere ipld } :=
    ⟨opened.isHead, opened.loaded, opened.fanout_pos, opened.fanout_le⟩
  refine post_then (P := fun found w' =>
    found = (idOf (w.shared.interfere ipld).epochs.begun, true) ∧
      w' = { w with shared := w.shared.interfere ipld }) ?_ ?_
  · rw [Post, amid_collectionGeneration]
    exact ⟨Prod.ext sound₁.numbered rfl, rfl⟩
  rintro _ _ ⟨rfl, rfl⟩
  have positive : 0 < (State.ofHead h (some root)).params.fanoutBits := opened.fanout_pos
  refine post_get_bind ?_
  dsimp only
  rw [opened.loaded]
  refine post_ofExcept_bind (fun _ _ => trivial) ?_
  rintro ⟨openOrd, sealedCount⟩ passed
  rw [mapError_ok_iff] at passed
  by_cases covered : h.syncedTo.isSome
  · have spans := (validateDirectoryGeometry_covered_iff covered positive).mp passed
    have spec := amid_finish_spec opened₁ since spans
    rw [opened₁.loaded] at spec
    simpa only [State.ofHead, covered, if_true] using spec
  · have bare : h.syncedTo = none := by simpa using covered
    have uncovered : (State.ofHead h (some root)).covered = false := by simp [State.ofHead, bare]
    obtain ⟨-, dir, openCid, found⟩ :=
      (validateDirectoryGeometry_uncovered_iff uncovered).mp passed
    cases found
    have spec := amid_bare_spec opened₁ dir openCid since
    rw [opened₁.loaded] at spec
    simpa only [State.ofHead, covered, Bool.false_eq_true, if_false] using spec

end Enumerates

/-- The scenes of a store's life, with any number of enumerations one after another
or at once, while identifiers are new. A failed enumeration only reads, which moves
say too. -/
inductive Scene.Reached (ipld : Codec) : Scene → Prop where
  | new (blocks : Multihash → Option Block) (turns : List Turn) :
      Reached ipld { epochs := newEpochs blocks, cache := ∅, log := fun _ _ => False, turns }
  | resupplied {s : Scene} (reached : Reached ipld s) (turns : List Turn) :
      Reached ipld { s with turns }
  | moved {s : Scene} (reached : Reached ipld s) (m : Move) : Reached ipld (s.move ipld m)
  | enumerated {root : Cid} {h : Schema.Head} {w w' : World Scene} {found : Enumeration}
      (reached : Reached ipld w.shared) (opened : Opened ipld root h w)
      (ran : enumerate ipld (amid ipld) w = (.ok found, w'))
      (bounded : w'.shared.epochs.begun < 2 ^ 64) : Reached ipld w'.shared

section Lives
variable {ipld : Codec} {root : Cid} {s origin : Scene}

theorem amid_enumerate_ok {h : Schema.Head} {w w' : World Scene} {found : Enumeration}
    (sound : w.shared.Sound ipld) (opened : Opened ipld root h w)
    (ran : enumerate ipld (amid ipld) w = (.ok found, w'))
    (bounded : w'.shared.epochs.begun < 2 ^ 64) : w'.shared.Enumerated ipld root := by
  have spec := amid_enumerate_spec opened sound
  rw [Post, ran] at spec
  exact spec bounded

theorem Scene.Reached.sound (reached : s.Reached ipld) : s.Sound ipld := by
  induction reached with
  | new blocks turns =>
    exact ⟨rfl, fun _ _ logged => logged.elim, fun c p found => by simp at found⟩
  | resupplied _ turns ih => exact ⟨ih.numbered, ih.logged, ih.vouched⟩
  | moved _ m ih => exact (ih.move m).1
  | enumerated _ opened ran bounded ih => exact (amid_enumerate_ok ih opened ran bounded).sound

/-- The generation of a collection is a token of presence while fewer epochs than
there are identifiers begin: what an application has found or written at a generation
is there wherever the generation is still the same, so what an enumeration has
admitted is there at its end. -/
theorem generation_presence (ipld : Codec) :
    (∀ (blocks : Multihash → Option Block) (before later : List Op) (op : Op) (c : Cid),
      (∀ op ∈ before, op.Tame) → op.Tame → (∀ op ∈ later, op.Tame) →
      let s := (newEpochs blocks).run before
      let t := (op.perform s).2.run later
      op.Shows s c → t.begun - s.begun < 2 ^ 64 - 1 →
      t.collectionGeneration = s.collectionGeneration → (t.blocks c.hash).isSome) ∧
    ∀ (root : Cid) (h : Schema.Head) (w w' : World Scene) (found : Enumeration),
      w.shared.Reached ipld → Opened ipld root h w →
      enumerate ipld (amid ipld) w = (.ok found, w') → w'.shared.epochs.begun < 2 ^ 64 →
      ∀ kind c, Reaches ipld root kind c → (w'.shared.epochs.blocks c.hash).isSome := by
  constructor
  · intro blocks before later op c tame tameOp tameLater s t shows near same
    exact shows.present_run (Epochs.run_numbered tame rfl) tameOp tameLater near same
  · intro root h w w' found reached opened ran bounded kind c reach
    exact (amid_enumerate_ok reached.sound opened ran bounded).present reach

end Lives

section Samples

def storeOf (content : Cid → Except ReadError Block) (key : Multihash) : Option Block :=
  (content ⟨1, dagCBOR, key⟩).toOption

def calm (content : Cid → Except ReadError Block) : Scene :=
  { epochs := newEpochs (storeOf content), cache := ∅, log := fun _ _ => False, turns := [] }

def sampleKey : Cid := ⟨1, raw, ⟨sha2_256, 32, ⟨0⟩⟩⟩

def calmHead : Schema.Head :=
  (bareState DagCbor.codec sampleParams
    ⟨some 9, blobRows DagCbor.codec sampleBlob sampleRows⟩).headObject

def calmWorld : World Scene :=
  { newHead (calm (contentOf sampleConfig (made sampleParams 9 sampleRows))) (paramsOf calmHead) with
    cur := State.ofHead calmHead (some (madeRoot sampleParams 9 sampleRows)) }

theorem calm_enumerated : ∃ (root : Cid) (h : Schema.Head) (w w' : World Scene)
    (found : Enumeration), w.shared.Reached DagCbor.codec ∧ Opened DagCbor.codec root h w ∧
      enumerate DagCbor.codec (amid DagCbor.codec) w = (.ok found, w') ∧
      w'.shared.epochs.begun < 2 ^ 64 := by
  have isHead : IsHead DagCbor.codec (madeRoot sampleParams 9 sampleRows) calmHead :=
    ⟨_, rfl, by decide +kernel, ok_of_toOption (by decide +kernel)⟩
  have ran : (enumerate DagCbor.codec (amid DagCbor.codec) calmWorld).1.toOption.isSome := by
    decide +kernel
  obtain ⟨found, answer⟩ := Option.isSome_iff_exists.mp ran
  exact ⟨_, calmHead, calmWorld, _, found, .new _ _, ⟨isHead, rfl, by decide, by decide⟩,
    returned (ok_of_toOption answer), by decide +kernel⟩

theorem generation_presence_sample :
    (((newEpochs fun _ => none).run [.beginEpoch, .put sampleKey [] none,
      .deleteCandidate 0 sampleKey none, .endEpoch 0]).blocks sampleKey.hash).isSome ∧
    ∃ (root : Cid) (w' : World Scene), ∀ kind c, Reaches DagCbor.codec root kind c →
      (w'.shared.epochs.blocks c.hash).isSome := by
  constructor
  · exact (generation_presence DagCbor.codec).1 (fun _ => none) [.beginEpoch]
      [.deleteCandidate 0 sampleKey none, .endEpoch 0] (.put sampleKey [] none) sampleKey
      (by simp [Op.Tame]) trivial (by simp [Op.Tame]) ⟨rfl, rfl⟩ (by decide) rfl
  · obtain ⟨root, h, w, w', found, reached, opened, ran, bounded⟩ := calm_enumerated
    exact ⟨root, w', (generation_presence DagCbor.codec).2 root h w w' found reached opened ran
      bounded⟩

/-- The identifier of an epoch comes back: a block is written at a generation, deleted
in the next one, and the counter then goes round. -/
theorem generation_wraps : ∃ (before later : List Op) (op : Op) (c : Cid),
    (∀ op ∈ before, op.Tame) ∧ op.Tame ∧ (∀ op ∈ later, op.Tame) ∧
      let s := (newEpochs fun _ => none).run before
      let t := (op.perform s).2.run later
      op.Shows s c ∧ t.collectionGeneration = s.collectionGeneration ∧ t.blocks c.hash = none := by
  let before : List Op := [.beginEpoch, .endEpoch 0]
  let op : Op := .put sampleKey [] none
  let collected : List Op := [.beginEpoch, .deleteCandidate 1 sampleKey none, .endEpoch 1]
  let s := (op.perform ((newEpochs fun _ => none).run before)).2.run collected
  have idle : s.active = none := rfl
  have numbered : s.nextID = idOf s.begun := rfl
  have gone : s.blocks sampleKey.hash = none := rfl
  obtain ⟨rounds, tame, turned⟩ := Epochs.exists_idle idle numbered (2 ^ 64 - 2)
  have round : idOf (2 + (2 ^ 64 - 2)) = 1 := by decide
  refine ⟨before, collected ++ rounds, op, sampleKey, by simp [before, Op.Tame], trivial, ?_,
    ⟨rfl, rfl⟩, ?_, ?_⟩
  · rw [List.forall_mem_append]
    exact ⟨by simp [collected, Op.Tame], tame⟩
  · rw [Epochs.run_append]
    exact (congrArg Epochs.collectionGeneration turned).trans round
  · rw [Epochs.run_append]
    exact (congrArg (fun t : Epochs => t.blocks sampleKey.hash) turned).trans gone

end Samples

end Bloar.Archive
