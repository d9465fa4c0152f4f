import Bloar.Ipld

/-!
The blockstore epochs of `store/epoch.go`. An application reads and writes through
a view that protects, while a collection is running, every multihash it touches;
the collector deletes through a handle of the running epoch, which rechecks that
protection. One operation here is one section under the locks of the source, so
an interleaving is a list of operations. What the base store does is part of the
operation: it may fail, and a failed write or delete may still have taken effect.
-/

namespace Bloar.Store
open Ipld

/-- One protection epoch; `serial` tells allocations apart, as pointers do. -/
structure EpochState where
  id : Nat
  serial : Nat
  touched : Finset Multihash

/-- `BlockstoreEpochs` with its base store, which keeps blocks by multihash. -/
structure Epochs where
  blocks : Multihash → Option Block
  active : Option EpochState
  nextID : Nat
  begun : Nat

def newEpochs (blocks : Multihash → Option Block) : Epochs :=
  { blocks, active := none, nextID := 0, begun := 0 }

inductive Answer where
  | begun (serial : Nat)
  | epochActive (id : Nat)
  | epochEnded
  | deleted
  | guarded
  | present (found : Bool)
  | block (data : Block)
  | size (bytes : Nat)
  | done
  | failed
  deriving DecidableEq, Repr

namespace Epochs
variable (s : Epochs)

/-- `e.nextID++`, twice where it comes out as zero. -/
def allocate (nextID : Nat) : Nat :=
  let next := (nextID + 1) % 2 ^ 64
  if next = 0 then (next + 1) % 2 ^ 64 else next

def beginEpoch : Answer × Epochs :=
  match s.active with
  | some e => (.epochActive e.id, s)
  | none =>
    let id := allocate s.nextID
    (.begun s.begun,
      { s with active := some { id, serial := s.begun, touched := ∅ }
               nextID := id, begun := s.begun + 1 })

def endEpoch (serial : Nat) : Answer × Epochs :=
  match s.active with
  | some e => if e.serial = serial then (.done, { s with active := none }) else (.done, s)
  | none => (.done, s)

def collectionGeneration : Nat := s.nextID

/-- `touch`, which does nothing while collection is idle. -/
def touch (key : Multihash) : Epochs :=
  { s with active := s.active.map fun e => { e with touched := insert key e.touched } }

def erase (key : Multihash) : Epochs :=
  { s with blocks := Function.update s.blocks key none }

def store (key : Multihash) (data : Block) : Epochs :=
  { s with blocks := Function.update s.blocks key (some data) }

/-- The base's `DeleteBlock`: `none` is success, and after an error the block may be
gone or not. -/
def baseDelete (key : Multihash) (fails : Option Bool) : Epochs :=
  match fails with
  | none => s.erase key
  | some removed => if removed then s.erase key else s

def deleteCandidate (serial : Nat) (c : Cid) (fails : Option Bool) : Answer × Epochs :=
  match s.active with
  | none => (.epochEnded, s)
  | some e =>
    if e.serial ≠ serial then (.epochEnded, s)
    else if c.hash ∈ e.touched then (.guarded, s)
    else (if fails.isNone then .deleted else .failed, s.baseDelete c.hash fails)

/-- The application's `DeleteBlock`. -/
def deleteBlock (c : Cid) (fails : Option Bool) : Answer × Epochs :=
  (if fails.isNone then .done else .failed, s.baseDelete c.hash fails)

def has (c : Cid) (fails : Bool) : Answer × Epochs :=
  if fails then (.failed, s)
  else if (s.blocks c.hash).isSome then (.present true, s.touch c.hash)
  else (.present false, s)

def get (c : Cid) (fails : Bool) : Answer × Epochs :=
  if fails then (.failed, s)
  else
    match s.blocks c.hash with
    | some data => (.block data, s.touch c.hash)
    | none => (.failed, s)

def getSize (c : Cid) (fails : Bool) : Answer × Epochs :=
  if fails then (.failed, s)
  else
    match s.blocks c.hash with
    | some data => (.size (Ipld.size data), s.touch c.hash)
    | none => (.failed, s)

def put (c : Cid) (data : Block) (fails : Option Bool) : Answer × Epochs :=
  match fails with
  | none => (.done, (s.store c.hash data).touch c.hash)
  | some written => (.failed, if written then s.store c.hash data else s)

def storeMany (s : Epochs) (input : List (Cid × Block)) : Epochs :=
  input.foldl (fun s x => s.store x.1.hash x.2) s

def touchMany (s : Epochs) (input : List (Cid × Block)) : Epochs :=
  input.foldl (fun s x => s.touch x.1.hash) s

/-- `PutMany`; after an error the base has written some part of the input, and the
whole input is protected. -/
def putMany (input : List (Cid × Block)) (fails : Option (List Bool)) : Answer × Epochs :=
  match fails with
  | none => (.done, (s.storeMany input).touchMany input)
  | some written =>
    (.failed, (s.storeMany ((input.zip written).filterMap fun x =>
      if x.2 then some x.1 else none)).touchMany input)

end Epochs

inductive Op where
  | beginEpoch
  | endEpoch (serial : Nat)
  | deleteCandidate (serial : Nat) (c : Cid) (fails : Option Bool)
  | deleteBlock (c : Cid) (fails : Option Bool)
  | has (c : Cid) (fails : Bool)
  | get (c : Cid) (fails : Bool)
  | getSize (c : Cid) (fails : Bool)
  | put (c : Cid) (data : Block) (fails : Option Bool)
  | putMany (input : List (Cid × Block)) (fails : Option (List Bool))
  deriving DecidableEq, Repr

def Op.perform (s : Epochs) : Op → Answer × Epochs
  | .beginEpoch => s.beginEpoch
  | .endEpoch serial => s.endEpoch serial
  | .deleteCandidate serial c fails => s.deleteCandidate serial c fails
  | .deleteBlock c fails => s.deleteBlock c fails
  | .has c fails => s.has c fails
  | .get c fails => s.get c fails
  | .getSize c fails => s.getSize c fails
  | .put c data fails => s.put c data fails
  | .putMany input fails => s.putMany input fails

def Epochs.run (s : Epochs) (ops : List Op) : Epochs :=
  ops.foldl (fun s op => (op.perform s).2) s

def Op.Tame : Op → Prop
  | .deleteBlock .. => False
  | _ => True

def Op.OfApplication : Op → Prop
  | .has .. | .get .. | .getSize .. | .put .. | .putMany .. => True
  | _ => False

def Op.Shows (s : Epochs) (op : Op) (c : Cid) : Prop :=
  match op with
  | .has d _ => d = c ∧ (op.perform s).1 = .present true
  | .get d _ | .getSize d _ => d = c ∧ (op.perform s).1 ≠ .failed
  | .put d _ _ => d = c ∧ (op.perform s).1 = .done
  | .putMany input _ => (∃ x ∈ input, x.1 = c) ∧ (op.perform s).1 = .done
  | _ => False

/-! ### What an operation keeps -/

structure Epochs.Safe (s : Epochs) (key : Multihash) : Prop where
  present : (s.blocks key).isSome
  touched : ∀ e ∈ s.active, key ∈ e.touched

section Keeps
variable {s : Epochs} {key : Multihash} {c : Cid}

variable {data : Block} {input : List (Cid × Block)} {x : Cid × Block}

@[simp] theorem Epochs.touch_blocks : (s.touch key).blocks = s.blocks := rfl

@[simp] theorem Epochs.endEpoch_blocks (serial : Nat) :
    (s.endEpoch serial).2.blocks = s.blocks := by
  unfold Epochs.endEpoch
  split
  · split <;> rfl
  · rfl

@[simp] theorem Epochs.store_active : (s.store key data).active = s.active := rfl

theorem Epochs.touch_safe (present : (s.blocks key).isSome) : (s.touch key).Safe key := by
  refine ⟨present, fun e active => ?_⟩
  obtain ⟨old, -, rfl⟩ := Option.map_eq_some_iff.mp active
  exact Finset.mem_insert_self key _

theorem Epochs.Safe.touch (safe : s.Safe key) (other : Multihash) : (s.touch other).Safe key := by
  refine ⟨safe.present, fun e active => ?_⟩
  obtain ⟨old, found, rfl⟩ := Option.map_eq_some_iff.mp active
  exact Finset.mem_insert_of_mem (safe.touched old found)

theorem Epochs.store_present (present : (s.blocks key).isSome) (other : Multihash) (data : Block) :
    ((s.store other data).blocks key).isSome := by
  by_cases same : key = other
  · simp [Epochs.store, same]
  · simpa [Epochs.store, Function.update_of_ne same] using present

theorem Epochs.Safe.store (safe : s.Safe key) (other : Multihash) (data : Block) :
    (s.store other data).Safe key :=
  ⟨store_present safe.present other data, safe.touched⟩

theorem Epochs.Safe.storeMany (safe : s.Safe key) (input : List (Cid × Block)) :
    (s.storeMany input).Safe key :=
  List.foldlRecOn (motive := (Epochs.Safe · key)) input _ safe
    fun _ safe x _ => safe.store x.1.hash x.2

theorem Epochs.Safe.touchMany (safe : s.Safe key) (input : List (Cid × Block)) :
    (s.touchMany input).Safe key :=
  List.foldlRecOn (motive := (Epochs.Safe · key)) input _ safe fun _ safe x _ => safe.touch x.1.hash

theorem Epochs.storeMany_keeps (present : (s.blocks key).isSome) (input : List (Cid × Block)) :
    ((s.storeMany input).blocks key).isSome :=
  List.foldlRecOn (motive := fun t : Epochs => (t.blocks key).isSome) input _ present
    fun _ present x _ => store_present present x.1.hash x.2

theorem Epochs.storeMany_present (member : x ∈ input) :
    ((s.storeMany input).blocks x.1.hash).isSome := by
  induction input generalizing s with
  | nil => cases member
  | cons first rest ih =>
    rcases List.mem_cons.mp member with rfl | later
    · exact storeMany_keeps (by simp [Epochs.store]) rest
    · exact ih later

theorem Epochs.touchMany_safe (present : (s.blocks x.1.hash).isSome) (member : x ∈ input) :
    (s.touchMany input).Safe x.1.hash := by
  induction input generalizing s with
  | nil => cases member
  | cons first rest ih =>
    rcases List.mem_cons.mp member with rfl | later
    · exact (touch_safe present).touchMany rest
    · exact ih present later

variable (input : List (Cid × Block))

@[simp] theorem Epochs.storeMany_begun : (s.storeMany input).begun = s.begun :=
  List.foldlRecOn (motive := (Epochs.begun · = s.begun)) input _ rfl fun _ same _ _ => same

@[simp] theorem Epochs.storeMany_nextID : (s.storeMany input).nextID = s.nextID :=
  List.foldlRecOn (motive := (Epochs.nextID · = s.nextID)) input _ rfl fun _ same _ _ => same

@[simp] theorem Epochs.touchMany_begun : (s.touchMany input).begun = s.begun :=
  List.foldlRecOn (motive := (Epochs.begun · = s.begun)) input _ rfl fun _ same _ _ => same

@[simp] theorem Epochs.touchMany_nextID : (s.touchMany input).nextID = s.nextID :=
  List.foldlRecOn (motive := (Epochs.nextID · = s.nextID)) input _ rfl fun _ same _ _ => same

theorem Epochs.storeMany_active : (s.storeMany input).active = s.active :=
  List.foldlRecOn (motive := (Epochs.active · = s.active)) input _ rfl fun _ same _ _ => same

@[simp] theorem Epochs.touchMany_blocks : (s.touchMany input).blocks = s.blocks :=
  List.foldlRecOn (motive := (Epochs.blocks · = s.blocks)) input _ rfl fun _ same _ _ => same

theorem Epochs.touchMany_active :
    (s.touchMany input).active.isSome = s.active.isSome ∧
      ∀ e' ∈ (s.touchMany input).active, ∃ e ∈ s.active, e.touched ⊆ e'.touched := by
  induction input generalizing s with
  | nil => exact ⟨rfl, fun e active => ⟨e, active, Finset.Subset.refl _⟩⟩
  | cons x rest ih =>
    obtain ⟨running, grows⟩ := ih (s := s.touch x.1.hash)
    refine ⟨running.trans (by simp [Epochs.touch]), fun e' active => ?_⟩
    obtain ⟨e, found, sub⟩ := grows e' active
    obtain ⟨old, at_old, rfl⟩ := Option.map_eq_some_iff.mp found
    exact ⟨old, at_old, fun key member => sub (Finset.mem_insert_of_mem member)⟩

end Keeps

inductive Epochs.Effect (s : Epochs) : Epochs → Prop where
  | stays : Effect s s
  | begins (idle : s.active = none) :
      Effect s { s with active := some { id := allocate s.nextID, serial := s.begun, touched := ∅ }
                        nextID := allocate s.nextID, begun := s.begun + 1 }
  | ends {e : EpochState} (active : s.active = some e) : Effect s { s with active := none }
  | deletes {e : EpochState} {key : Multihash} (active : s.active = some e)
      (free : key ∉ e.touched) : Effect s (s.erase key)
  | traffic (written touched : List (Cid × Block)) :
      Effect s ((s.storeMany written).touchMany touched)

section Effects
variable {s t : Epochs} {key : Multihash} {c : Cid} {op : Op}

theorem Op.traffic (app : op.OfApplication) :
    ∃ written touched, (op.perform s).2 = (s.storeMany written).touchMany touched := by
  cases op with
  | has c fails | get c fails | getSize c fails =>
    simp only [perform, Epochs.has, Epochs.get, Epochs.getSize]
    split
    · exact ⟨[], [], rfl⟩
    · split
      · exact ⟨[], [(c, [])], rfl⟩
      · exact ⟨[], [], rfl⟩
  | put c data fails =>
    cases fails with
    | none => exact ⟨[(c, data)], [(c, data)], rfl⟩
    | some written =>
      cases written with
      | true => exact ⟨[(c, data)], [], rfl⟩
      | false => exact ⟨[], [], rfl⟩
  | putMany input fails =>
    cases fails with
    | none => exact ⟨input, input, rfl⟩
    | some written => exact ⟨_, input, rfl⟩
  | _ => exact app.elim

/-- Nothing is lost: no block, and nothing that a running epoch protects. -/
structure Epochs.Grows (s t : Epochs) : Prop where
  present : ∀ key, (s.blocks key).isSome → (t.blocks key).isSome
  running : t.active.isSome = s.active.isSome
  guards : ∀ e' ∈ t.active, ∃ e ∈ s.active, e.touched ⊆ e'.touched

theorem Epochs.Grows.refl (s : Epochs) : s.Grows s :=
  ⟨fun _ present => present, rfl, fun e active => ⟨e, active, Finset.Subset.refl _⟩⟩

theorem Epochs.Grows.trans {u : Epochs} (first : s.Grows t) (second : t.Grows u) : s.Grows u := by
  refine ⟨fun key present => second.present key (first.present key present),
    second.running.trans first.running, fun e'' active => ?_⟩
  obtain ⟨e', found, later⟩ := second.guards e'' active
  obtain ⟨e, found', sub⟩ := first.guards e' found
  exact ⟨e, found', sub.trans later⟩

theorem Op.grows (s : Epochs) (op : Op) (app : op.OfApplication) : s.Grows (op.perform s).2 := by
  obtain ⟨written, touched, same⟩ := op.traffic (s := s) app
  rw [same]
  obtain ⟨running, guards⟩ := Epochs.touchMany_active (s := s.storeMany written) touched
  rw [Epochs.storeMany_active] at running guards
  refine ⟨fun key present => ?_, running, guards⟩
  rw [Epochs.touchMany_blocks]
  exact Epochs.storeMany_keeps present written

theorem Epochs.Effect.of_application (app : op.OfApplication) : s.Effect (op.perform s).2 := by
  obtain ⟨written, touched, same⟩ := op.traffic (s := s) app
  rw [same]
  exact .traffic written touched

theorem Op.effect (tame : op.Tame) : s.Effect (op.perform s).2 := by
  cases op with
  | beginEpoch =>
    simp only [perform, Epochs.beginEpoch]
    split
    · exact .stays
    · rename_i idle
      exact .begins idle
  | endEpoch serial =>
    simp only [perform, Epochs.endEpoch]
    split
    · rename_i e active
      split
      · exact .ends active
      · exact .stays
    · exact .stays
  | deleteCandidate serial c fails =>
    simp only [perform, Epochs.deleteCandidate]
    split
    · exact .stays
    · rename_i e active
      split
      · exact .stays
      · split
        · exact .stays
        · rename_i free
          cases fails with
          | none => exact .deletes active free
          | some removed =>
            cases removed with
            | true => exact .deletes active free
            | false => exact .stays
  | deleteBlock => exact tame.elim
  | has | get | getSize | put | putMany => exact .of_application trivial

theorem Epochs.Effect.begun_le (effect : s.Effect t) : s.begun ≤ t.begun := by
  cases effect with
  | begins => exact Nat.le_succ _
  | traffic => simp
  | _ => exact Nat.le_refl _

theorem Epochs.Safe.effect (safe : s.Safe key) (effect : s.Effect t) (same : t.begun = s.begun) :
    t.Safe key := by
  cases effect with
  | stays => exact safe
  | begins => simp at same
  | ends => exact ⟨safe.present, by simp⟩
  | @deletes e other active free =>
    -- A safe block is touched in the running epoch, so it is not the one deleted.
    have different : key ≠ other := by
      rintro rfl
      exact free (safe.touched e active)
    refine ⟨?_, safe.touched⟩
    simpa [erase, Function.update_of_ne different] using safe.present
  | traffic written touched => exact (safe.storeMany written).touchMany touched

/-- The identifier of the last epoch begun, as the counter wraps around zero. -/
def idOf : Nat → Nat
  | 0 => 0
  | count + 1 => count % (2 ^ 64 - 1) + 1

theorem Epochs.allocate_next {id : Nat} (small : id + 1 < 2 ^ 64) : allocate id = id + 1 := by
  unfold allocate
  rw [Nat.mod_eq_of_lt small]
  exact if_neg (Nat.succ_ne_zero id)

theorem Epochs.allocate_last : allocate (2 ^ 64 - 1) = 1 := by decide

theorem allocate_idOf (count : Nat) : Epochs.allocate (idOf count) = idOf (count + 1) := by
  cases count with
  | zero => decide
  | succ count =>
    have current : idOf (count + 1) = count % (2 ^ 64 - 1) + 1 := rfl
    have following : idOf (count + 2) = (count + 1) % (2 ^ 64 - 1) + 1 := rfl
    have small := Nat.mod_lt count (show 2 ^ 64 - 1 > 0 by decide)
    rw [current, following]
    by_cases last : count % (2 ^ 64 - 1) = 2 ^ 64 - 2
    · have next : (count + 1) % (2 ^ 64 - 1) = 0 := by omega
      rw [last, next]
      exact Epochs.allocate_last
    · have next : (count + 1) % (2 ^ 64 - 1) = count % (2 ^ 64 - 1) + 1 := by omega
      rw [next]
      exact Epochs.allocate_next (by omega)

/-- The counter comes back to a value after `2 ^ 64 - 1` epochs at the earliest. -/
theorem idOf_unique {a b : Nat} (le : a ≤ b) (near : b - a < 2 ^ 64 - 1) (same : idOf b = idOf a) :
    b = a := by
  cases a with
  | zero =>
    cases b with
    | zero => rfl
    | succ b => simp [idOf] at same
  | succ a =>
    cases b with
    | zero => omega
    | succ b =>
      simp only [idOf] at same
      omega

theorem idOf_inj {a b : Nat} (le : a ≤ b) (bounded : b < 2 ^ 64) (same : idOf b = idOf a) :
    b = a := by
  cases a with
  | zero =>
    cases b with
    | zero => rfl
    | succ b => simp [idOf] at same
  | succ a => exact idOf_unique le (by omega) same

theorem Epochs.Effect.numbered (effect : s.Effect t) (numbered : s.nextID = idOf s.begun) :
    t.nextID = idOf t.begun := by
  cases effect with
  | begins => rw [← allocate_idOf, numbered]
  | traffic => simpa using numbered
  | _ => exact numbered

theorem Op.Shows.safe (shows : op.Shows s c) : (op.perform s).2.Safe c.hash := by
  cases op with
  | has d fails =>
    obtain ⟨rfl, answer⟩ := shows
    simp only [perform, Epochs.has] at answer ⊢
    split at answer
    · cases answer
    · split at answer
      · rename_i working present
        rw [if_neg working, if_pos present]
        exact Epochs.touch_safe present
      · cases answer
  | get d fails | getSize d fails =>
    obtain ⟨rfl, answer⟩ := shows
    simp only [perform, Epochs.get, Epochs.getSize] at answer ⊢
    cases fails with
    | true => exact absurd rfl answer
    | false =>
      cases found : s.blocks d.hash with
      | none => simp [found] at answer
      | some data =>
        simp only [Bool.false_eq_true, if_false]
        exact Epochs.touch_safe (by simp [found])
  | put d data fails =>
    obtain ⟨rfl, answer⟩ := shows
    cases fails with
    | none => exact Epochs.touch_safe (by simp [Epochs.store])
    | some written => cases answer
  | putMany input fails =>
    obtain ⟨⟨x, member, rfl⟩, answer⟩ := shows
    cases fails with
    | some written => cases answer
    | none => exact Epochs.touchMany_safe (Epochs.storeMany_present member) member
  | _ => exact shows.elim

/-! ### Interleavings -/

variable {ops : List Op}

theorem Epochs.run_cons (s : Epochs) (op : Op) (rest : List Op) :
    s.run (op :: rest) = (op.perform s).2.run rest := rfl

theorem Epochs.run_append (s : Epochs) (front back : List Op) :
    s.run (front ++ back) = (s.run front).run back := List.foldl_append

theorem Epochs.run_begun_le (tame : ∀ op ∈ ops, op.Tame) : s.begun ≤ (s.run ops).begun := by
  induction ops generalizing s with
  | nil => exact Nat.le_refl _
  | cons op rest ih =>
    rw [List.forall_mem_cons] at tame
    exact Nat.le_trans (Op.effect tame.1).begun_le (ih tame.2)

theorem Epochs.run_numbered (tame : ∀ op ∈ ops, op.Tame) (numbered : s.nextID = idOf s.begun) :
    (s.run ops).nextID = idOf (s.run ops).begun := by
  induction ops generalizing s with
  | nil => exact numbered
  | cons op rest ih =>
    rw [List.forall_mem_cons] at tame
    exact ih tame.2 ((Op.effect tame.1).numbered numbered)

theorem Epochs.Safe.run (safe : s.Safe key) (tame : ∀ op ∈ ops, op.Tame)
    (same : (s.run ops).begun = s.begun) : (s.run ops).Safe key := by
  induction ops generalizing s with
  | nil => exact safe
  | cons op rest ih =>
    rw [List.forall_mem_cons] at tame
    have effect := Op.effect (s := s) tame.1
    have first := effect.begun_le
    have later := run_begun_le (s := (op.perform s).2) tame.2
    rw [run_cons] at same ⊢
    have still : (op.perform s).2.begun = s.begun := by omega
    exact ih (safe.effect effect still) tame.2 (by omega)

/-- While the generation is the one at which an application found or wrote a block,
and the counter has not gone round, the block is there. -/
theorem Op.Shows.present_run (shows : op.Shows s c) (numbered : s.nextID = idOf s.begun)
    (tame : op.Tame) (others : ∀ op ∈ ops, op.Tame)
    (near : ((op.perform s).2.run ops).begun - s.begun < 2 ^ 64 - 1)
    (still : ((op.perform s).2.run ops).collectionGeneration = s.collectionGeneration) :
    (((op.perform s).2.run ops).blocks c.hash).isSome := by
  have effect := Op.effect (s := s) tame
  have first := effect.begun_le
  have later := Epochs.run_begun_le (s := (op.perform s).2) others
  have last := Epochs.run_numbered others (effect.numbered numbered)
  have same : ((op.perform s).2.run ops).begun = s.begun := by
    refine idOf_unique (by omega) near ?_
    rw [← last, ← numbered]
    exact still
  exact (shows.safe.run others (by omega)).present

theorem Epochs.run_idle (idle : s.active = none) (numbered : s.nextID = idOf s.begun) (n : Nat) :
    s.run ((List.range n).flatMap fun i => [.beginEpoch, .endEpoch (s.begun + i)]) =
      { s with nextID := idOf (s.begun + n), begun := s.begun + n } := by
  induction n with
  | zero =>
    rw [Nat.add_zero, ← numbered]
    rfl
  | succ n ih =>
    rw [List.range_succ, List.flatMap_append, run_append, ih, List.flatMap_singleton, run_cons,
      run_cons]
    simp only [Op.perform, beginEpoch, idle, endEpoch, allocate_idOf, if_true]
    simp [run, ← idle, Nat.add_assoc]

/-- Some operations turn the counter and leave everything else; their list may be far too
long to look at. -/
theorem Epochs.exists_idle (idle : s.active = none) (numbered : s.nextID = idOf s.begun) (n : Nat) :
    ∃ rounds : List Op, (∀ op ∈ rounds, op.Tame) ∧ s.run rounds =
      { s with nextID := idOf (s.begun + n), begun := s.begun + n } := by
  refine ⟨_, fun op member => ?_, run_idle idle numbered n⟩
  obtain ⟨i, -, inside⟩ := List.mem_flatMap.mp member
  simp only [List.mem_cons, List.not_mem_nil, or_false] at inside
  rcases inside with rfl | rfl <;> trivial

theorem Epochs.run_collect (idle : s.active = none) (numbered : s.nextID = idOf s.begun) (c : Cid) :
    s.run [.beginEpoch, .deleteCandidate s.begun c none] =
      Epochs.erase { s with
        active := some { id := idOf (s.begun + 1), serial := s.begun, touched := ∅ }
        nextID := idOf (s.begun + 1), begun := s.begun + 1 } c.hash := by
  have begun : (Op.beginEpoch.perform s).2 = { s with
      active := some { id := idOf (s.begun + 1), serial := s.begun, touched := ∅ }
      nextID := idOf (s.begun + 1), begun := s.begun + 1 } := by
    rw [← allocate_idOf, ← numbered]
    simp [Op.perform, beginEpoch, idle]
  rw [run_cons, begun, run_cons]
  simp [Op.perform, deleteCandidate, baseDelete, run]

end Effects

end Bloar.Store
