import Bloar.DagCbor
import Bloar.Triple

/-!
The IPNS channel (`p2p/ipns.go`). A publication takes a sequence number, which is burned in the
database before the record that carries it is handed to a commit, and a commit may fail after it
has stored the record. What is followed here is every record that was ever handed to a commit,
over the processes of one node.
-/

namespace Bloar.P2P
open Ipld Fallible

/-! ### The stored number -/

def bigEndian : Nat → Nat → List UInt8
  | 0, _ => []
  | width + 1, n => UInt8.ofNat (n / 256 ^ width) :: bigEndian width n

def ofBigEndian : List UInt8 → Nat
  | [] => 0
  | b :: rest => b.toNat * 256 ^ rest.length + ofBigEndian rest

theorem length_bigEndian (width n : Nat) : (bigEndian width n).length = width := by
  induction width with
  | zero => rfl
  | succ width ih => simp [bigEndian, ih]

theorem ofBigEndian_bigEndian (width n : Nat) : ofBigEndian (bigEndian width n) = n % 256 ^ width := by
  induction width with
  | zero => simp [bigEndian, ofBigEndian, Nat.mod_one]
  | succ width ih =>
    have digit : (UInt8.ofNat (n / 256 ^ width)).toNat = n / 256 ^ width % 256 := by
      simp
    rw [bigEndian, ofBigEndian, length_bigEndian, ih, digit, pow_succ, Nat.mod_mul]
    ring

def succ64 (n : Nat) : Nat := (n + 1) % 2 ^ 64

/-! ### State -/

/-- A record without its signature and its validity. -/
structure Record where
  value : Cid
  seq : Nat
  deriving DecidableEq, Repr

/-- What `mu` guards. -/
structure Publisher where
  seq : Nat
  last : Link
  deriving DecidableEq, Repr

abbrev Place := List Bool

/-- A publisher with its database, the records that were handed to a commit, and those that a
value store was asked to put, the last of each first. -/
structure Station where
  kv : Option (List UInt8)
  publisher : Publisher
  handed : List Record
  puts : List (Place × Record)

/-- What one publication meets. A write or a put that fails may have taken effect. -/
structure Weather where
  provides : Place → Bool
  puts : Place → Bool
  stores : Bool
  late : Bool
  builds : Bool

/-! ### Policies -/

inductive Policy where
  | monolithic
  | mirrored (primary mirror : Policy)
  deriving DecidableEq, Repr

/-- What a commit asks of value stores for a record, and whether it returns without an error. -/
abbrev Commit := Record → List (Place × Record) × Bool

/-- `Prepare` of `localPublicationPolicy` and of `mirrorPublicationPolicy`. -/
def Policy.prepare (env : Weather) : Policy → Place → Option Commit
  | .monolithic, place =>
    if env.provides place then some fun record => ([(place, record)], env.puts place) else none
  | .mirrored primary mirror, place =>
    match primary.prepare env (false :: place) with
    | none => none
    | some primaryCommit =>
      some fun record =>
        let (puts, committed) := primaryCommit record
        if committed then
          match mirror.prepare env (true :: place) with
          -- the error of a mirror is reported and goes no further
          | none => (puts, true)
          | some mirrorCommit => ((mirrorCommit record).1 ++ puts, true)
        else (puts, false)

/-- A commit puts the record that it was given, and no other. -/
theorem Policy.prepare_puts {env : Weather} {policy : Policy} {place : Place} {commit : Commit}
    (prepared : policy.prepare env place = some commit) (record : Record) :
    ∀ p ∈ (commit record).1, p.2 = record := by
  induction policy generalizing place commit with
  | monolithic =>
    unfold prepare at prepared
    split at prepared
    · cases prepared
      simp
    · cases prepared
  | mirrored primary mirror first second =>
    unfold prepare at prepared
    split at prepared
    · cases prepared
    · rename_i primaryCommit found
      cases prepared
      have own := first found
      dsimp only
      split
      · split
        · exact own
        · rename_i mirrorCommit found'
          intro p member
          rcases List.mem_append.mp member with copied | put
          · exact second found' p copied
          · exact own p put
      · exact own

/-! ### Publications -/

section Publish

variable (ipld : Codec) (policy : Policy) (env : Weather)

def storeSeq (seq : Nat) : Prog Station String Unit := fun s =>
  let stored : Station := { s with kv := some (bigEndian 8 seq) }
  if env.stores then (.ok (), stored)
  else (.error "p2p: writing IPNS sequence", if env.late then stored else s)

def loadSeq (kv : Option (List UInt8)) : Except String Nat :=
  match kv with
  | none => .ok 0
  | some bytes =>
    let count := bytes.length
    if bytes.length = 8 then .ok (ofBigEndian bytes)
    else .error s!"p2p: IPNS sequence is {count} bytes, want 8"

def nextSeq : Prog Station String Nat := do
  let s ← get
  let next := succ64 s.publisher.seq
  storeSeq env next
  Fallible.modify fun s => { s with publisher := { s.publisher with seq := next } }
  pure next

def recordSeq (c : Cid) : Prog Station String Nat := do
  let s ← get
  if s.publisher.last = some c then pure s.publisher.seq else nextSeq env

def publish (doc : Block) : Prog Station String (Cid × Nat) := do
  let c := ipld.sum raw doc
  match policy.prepare env [] with
  | none => fail "p2p: publication stage provide_document"
  | some commit => do
      let seq ← recordSeq env c
      Fallible.guard env.builds "p2p: building IPNS record"
      let record : Record := { value := c, seq }
      Fallible.modify fun s =>
        { s with handed := record :: s.handed, puts := (commit record).1 ++ s.puts }
      Fallible.guard (commit record).2 "p2p: publication stage put_record"
      Fallible.modify fun s => { s with publisher := { s.publisher with last := some c } }
      pure (c, seq)

end Publish

/-! ### Runs -/

structure World where
  kv : Option (List UInt8)
  publisher : Option Publisher
  handed : List Record
  puts : List (Place × Record)

inductive Event where
  /-- `NewPublisher` in a new process -/
  | start
  | crash
  /-- a publication, in which the process may die -/
  | publish (policy : Policy) (env : Weather) (doc : Block) (dies : Bool)

def World.step (ipld : Codec) (w : World) : Event → Option World
  | .start =>
    if w.publisher.isNone then
      match loadSeq w.kv with
      | .ok seq => some { w with publisher := some { seq, last := none } }
      | .error _ => some w
    else none
  | .crash => some { w with publisher := none }
  | .publish policy env doc dies =>
    w.publisher.map fun publisher =>
      let s := (Bloar.P2P.publish ipld policy env doc
        { kv := w.kv, publisher, handed := w.handed, puts := w.puts }).2
      { kv := s.kv, publisher := if dies then none else some s.publisher, handed := s.handed
        puts := s.puts }

inductive World.Reaches (ipld : Codec) (allowed : World → Event → Prop) (start : World) :
    World → Prop where
  | refl : World.Reaches ipld allowed start start
  | step {w w' : World} {e : Event} (before : World.Reaches ipld allowed start w) (met : allowed w e)
      (taken : w.step ipld e = some w') : World.Reaches ipld allowed start w'

def World.idle (kv : Option (List UInt8)) : World :=
  { kv, publisher := none, handed := [], puts := [] }

/-! ### The order of records -/

/-- What a later record has to keep to: no smaller number, and under the same number no other
document. -/
def Record.Follows (later earlier : Record) : Prop :=
  earlier.seq ≤ later.seq ∧ (earlier.seq = later.seq → earlier.value = later.value)

theorem loadSeq_stored {seq : Nat} (small : seq < 2 ^ 64) :
    loadSeq (some (bigEndian 8 seq)) = .ok seq := by
  have wrap : seq % 256 ^ 8 = seq := Nat.mod_eq_of_lt (by simpa using small)
  simp only [loadSeq, length_bigEndian, ofBigEndian_bigEndian, wrap, if_true]

structure Station.Sound (s : Station) : Prop where
  ordered : s.handed.Pairwise Record.Follows
  put : ∀ p ∈ s.puts, p.2 ∈ s.handed
  stored : ∃ n, loadSeq s.kv = .ok n ∧ s.publisher.seq ≤ n
  below : ∀ r ∈ s.handed, r.seq ≤ s.publisher.seq

/-- A publication of the document of the last commit finds no other document under the number in
hand, and a publication of another one does not use up the numbers. -/
def Publisher.Fresh (publisher : Publisher) (handed : List Record) (c : Cid) : Prop :=
  if publisher.last = some c then ∀ r ∈ handed, r.seq = publisher.seq → r.value = c
  else publisher.seq + 1 < 2 ^ 64

section Sound

variable {ipld : Codec} {policy : Policy} {env : Weather} {s : Station}

/-- A number that no record carries yet is taken from the database. -/
theorem Station.Sound.nextSeq (sound : s.Sound) (more : s.publisher.seq + 1 < 2 ^ 64) :
    Triple (· = s) (P2P.nextSeq env)
      (fun seq after => after.Sound ∧ seq = after.publisher.seq ∧ ∀ r ∈ after.handed, r.seq ≠ seq)
      Station.Sound := by
  have next : succ64 s.publisher.seq = s.publisher.seq + 1 := Nat.mod_eq_of_lt more
  have load := loadSeq_stored more
  refine triple_bind (Q := fun value after => after = s ∧ value = s) ?_ fun now =>
    triple_fact fun same => ?_
  · rintro _ rfl
    exact ⟨rfl, rfl⟩
  dsimp only
  rw [same, next]
  refine triple_bind (Q := fun _ after =>
    after = { s with kv := some (bigEndian 8 (s.publisher.seq + 1)) }) ?_ fun _ => ?_
  · rintro _ rfl
    cases stores : env.stores with
    | true => simp [storeSeq, stores]
    | false =>
      cases late : env.late with
      | false => simpa [storeSeq, stores, late] using sound
      | true =>
        simp only [storeSeq, stores, late, Bool.false_eq_true, if_false, if_true]
        exact ⟨sound.ordered, sound.put, ⟨_, load, Nat.le_succ _⟩, sound.below⟩
  refine triple_bind (triple_modify (Q := fun _ after => after.Sound ∧
    s.publisher.seq + 1 = after.publisher.seq ∧ ∀ r ∈ after.handed, r.seq ≠ s.publisher.seq + 1) ?_)
    fun _ => triple_pure fun _ held => held
  rintro _ rfl
  refine ⟨⟨sound.ordered, sound.put, ⟨_, load, le_rfl⟩, fun r member => ?_⟩, rfl, fun r member => ?_⟩
  · exact (sound.below r member).trans (Nat.le_succ _)
  · have under := sound.below r member
    omega

theorem Station.Sound.recordSeq (sound : s.Sound) {c : Cid}
    (fresh : s.publisher.Fresh s.handed c) :
    Triple (· = s) (P2P.recordSeq env c)
      (fun seq after => after.Sound ∧ seq = after.publisher.seq ∧
        ∀ r ∈ after.handed, r.seq = seq → r.value = c)
      Station.Sound := by
  unfold Publisher.Fresh at fresh
  refine triple_bind (Q := fun value after => after = s ∧ value = s) ?_ fun now =>
    triple_fact fun same => ?_
  · rintro _ rfl
    exact ⟨rfl, rfl⟩
  rw [same]
  refine triple_ite (fun again => ?_) fun other => ?_
  · rw [if_pos again] at fresh
    refine triple_pure ?_
    rintro _ rfl
    exact ⟨sound, rfl, fresh⟩
  · rw [if_neg other] at fresh
    refine triple_post ?_ (sound.nextSeq fresh)
    rintro seq after ⟨sound', same, unused⟩
    exact ⟨sound', same, fun r member taken => absurd taken (unused r member)⟩

theorem Station.Sound.publish (sound : s.Sound) {doc : Block}
    (fresh : s.publisher.Fresh s.handed (ipld.sum raw doc)) :
    Triple (· = s) (P2P.publish ipld policy env doc) (fun _ => Station.Sound) Station.Sound := by
  unfold P2P.publish
  cases prepared : policy.prepare env [] with
  | none =>
    refine triple_fail ?_
    rintro _ rfl
    exact sound
  | some commit =>
    have keeps : ∀ (a b : Station), a.Sound → b.kv = a.kv → b.publisher.seq = a.publisher.seq →
        b.handed = a.handed → b.puts = a.puts → b.Sound := by
      rintro a b held kv seq handed puts
      exact ⟨handed ▸ held.ordered, by rw [puts, handed]; exact held.put,
        by rw [kv, seq]; exact held.stored, by rw [handed, seq]; exact held.below⟩
    refine triple_bind (sound.recordSeq fresh) fun seq => ?_
    refine triple_bind (triple_guard fun _ held => held.1) fun _ => triple_fact fun _ => ?_
    refine triple_bind (triple_modify (Q := fun _ => Station.Sound) ?_) fun _ => ?_
    · -- the record goes on top: it is above the others, or says the same under their number
      rintro middle ⟨held, rfl, named⟩
      refine ⟨.cons (fun r member => ⟨held.below r member, named r member⟩) held.ordered, ?_,
        held.stored, ?_⟩
      · intro p member
        rcases List.mem_append.mp member with new | old
        · rw [Policy.prepare_puts prepared _ p new]
          exact List.mem_cons_self
        · exact List.mem_cons_of_mem _ (held.put p old)
      · intro r member
        rcases List.mem_cons.mp member with rfl | old
        · exact le_rfl
        · exact held.below r old
    refine triple_bind (triple_guard fun _ held => held) fun _ => triple_fact fun _ => ?_
    refine triple_bind (triple_modify fun a held => ?_) fun _ => triple_pure fun _ held => held
    exact keeps a _ held rfl rfl rfl rfl

end Sound

def Event.Fresh (ipld : Codec) (w : World) : Event → Prop
  | .publish _ _ doc _ => ∀ publisher ∈ w.publisher, publisher.Fresh w.handed (ipld.sum raw doc)
  | _ => True

instance (publisher : Publisher) (handed : List Record) (c : Cid) :
    Decidable (publisher.Fresh handed c) :=
  inferInstanceAs (Decidable (if publisher.last = some c then
    ∀ r ∈ handed, r.seq = publisher.seq → r.value = c else publisher.seq + 1 < 2 ^ 64))

instance (ipld : Codec) (w : World) : ∀ e : Event, Decidable (e.Fresh ipld w)
  | .publish _ _ doc _ =>
    inferInstanceAs (Decidable (∀ publisher ∈ w.publisher, publisher.Fresh w.handed (ipld.sum raw doc)))
  | .start => inferInstanceAs (Decidable True)
  | .crash => inferInstanceAs (Decidable True)

namespace World

variable {ipld : Codec} {w w' : World}

structure Sound (w : World) : Prop where
  ordered : w.handed.Pairwise Record.Follows
  put : ∀ p ∈ w.puts, p.2 ∈ w.handed
  stored : ∀ r ∈ w.handed, ∃ n, loadSeq w.kv = .ok n ∧ r.seq ≤ n
  running : ∀ publisher, w.publisher = some publisher →
    Station.Sound { kv := w.kv, publisher, handed := w.handed, puts := w.puts }

theorem Sound.step (sound : w.Sound) {e : Event} (fresh : e.Fresh ipld w)
    (taken : w.step ipld e = some w') : w'.Sound := by
  cases e with
  | start =>
    simp only [World.step] at taken
    split at taken
    case isFalse => cases taken
    case isTrue =>
      cases loaded : loadSeq w.kv with
      | error e =>
        rw [loaded] at taken
        cases taken
        exact sound
      | ok seq =>
        rw [loaded] at taken
        cases taken
        refine ⟨sound.ordered, sound.put, sound.stored, ?_⟩
        rintro publisher ⟨⟩
        refine ⟨sound.ordered, sound.put, ⟨seq, loaded, le_rfl⟩, fun r member => ?_⟩
        -- what the database holds covers the records of every process before
        obtain ⟨n, same, under⟩ := sound.stored r member
        rw [loaded] at same
        cases same
        exact under
  | crash =>
    cases taken
    exact { sound with running := by simp }
  | publish policy env doc dies =>
    obtain ⟨publisher, running, rfl⟩ := Option.map_eq_some_iff.mp taken
    have ran : Triple _ (P2P.publish ipld policy env doc) (fun _ => Station.Sound) Station.Sound :=
      (sound.running publisher running).publish (fresh publisher running)
    have after := ran.after rfl
    refine ⟨after.ordered, after.put, fun r member => ?_, ?_⟩
    · obtain ⟨n, loaded, under⟩ := after.stored
      exact ⟨n, loaded, (after.below r member).trans under⟩
    · intro publisher' running'
      cases dies with
      | true => cases running'
      | false =>
        cases running'
        exact after

def run (ipld : Codec) (w : World) : List Event → Option World
  | [] => some w
  | e :: rest => (w.step ipld e).bind fun after => after.run ipld rest

def Meets (ipld : Codec) (allowed : World → Event → Prop) : World → List Event → Prop
  | _, [] => True
  | w, e :: rest => allowed w e ∧ ∀ after ∈ w.step ipld e, after.Meets ipld allowed rest

instance decidableMeets (ipld : Codec) (allowed : World → Event → Prop)
    [∀ w e, Decidable (allowed w e)] : ∀ (events : List Event) (w : World),
    Decidable (w.Meets ipld allowed events)
  | [], _ => inferInstanceAs (Decidable True)
  | e :: rest, w =>
    have : ∀ after : World, Decidable (after.Meets ipld allowed rest) :=
      decidableMeets ipld allowed rest
    inferInstanceAs (Decidable (allowed w e ∧ ∀ after ∈ w.step ipld e, after.Meets ipld allowed rest))

theorem Reaches.run {allowed : World → Event → Prop} {start : World} {events : List Event}
    (reached : Reaches ipld allowed start w) (met : w.Meets ipld allowed events)
    (taken : w.run ipld events = some w') : Reaches ipld allowed start w' := by
  induction events generalizing w with
  | nil =>
    cases taken
    exact reached
  | cons e rest ih =>
    obtain ⟨after, stepped, others⟩ := Option.bind_eq_some_iff.mp taken
    exact ih (reached.step met.1 stepped) (met.2 after stepped) others

end World

/-! ### Two documents -/

namespace Sample

def calm : Weather :=
  { provides := fun _ => true, puts := fun _ => true, stores := true, late := false, builds := true }

def silent : Weather := { calm with puts := fun _ => false }

def first : Block := []

def second : Block := [.byte 1]

def say (env : Weather) (doc : Block) : Event := .publish .monolithic env doc false

def insists : List Event := [.start, say calm first, say silent second, say calm second]

def returns : List Event := [.start, say calm first, say silent second, say calm first]

def named (doc : Block) (seq : Nat) : Record := ⟨DagCbor.codec.sum raw doc, seq⟩

theorem insists_run : ((World.idle none).run DagCbor.codec insists).map World.handed =
    some [named second 3, named second 2, named first 1] := by
  decide +kernel

theorem returns_run : ((World.idle none).run DagCbor.codec returns).map World.handed =
    some [named first 2, named second 2, named first 1] := by
  decide +kernel

end Sample

end Bloar.P2P
