import Bloar.Pins
import Bloar.Epoch

/-!
A node's store with everything that retains blocks in it: the registered heads, the
pin ledger, the staging rows of `pinning/staging.go`, and the online collector of
`pinning/gc.go`. Steps that hold the gate (`PutBlobs`, publications, reconciliation
and the collector's cut) are atomic; operations of applications, the iterations of
the mark and the deletions of the sweep interleave freely. Times are in nanoseconds.
-/

namespace Bloar.Pinning
open Ipld Archive Store

structure Setup where
  ipld : Codec
  separateScrub : Bool
  ttl : Nat

/-- A registered head: its engine's root, its policy, its manifest tip, whether it is
withdrawn, and whether a miss under it is healed by fetching. -/
structure Registration where
  root : Cid
  policy : Policy
  tip : Link
  withdrawn : Bool
  followed : Bool

def Registration.Wants (ipld : Codec) (r : Registration) (pins : List Pin) : Prop :=
  if r.withdrawn then pins = []
  else ∃ h es, IsHead ipld r.root h ∧ Admissible ipld h es ∧
    wanted r.policy (enumerationOf ipld r.root h es) r.tip = .ok pins

/-! ### Marking -/

structure HeadMark where
  head : String
  followed : Bool
  pins : List Pin

/-- Where `mark` is: the groups to come, the pins of the current group to come, the
frontier with its top first, and the two sets. -/
structure Marking where
  groups : List HeadMark
  followed : Bool
  pins : List Pin
  frontier : List Cid
  marked : Finset Multihash
  expanded : Finset Cid

def Marking.start (groups : List HeadMark) : Marking :=
  { groups, followed := false, pins := [], frontier := [], marked := ∅, expanded := ∅ }

structure Weather where
  fails : Bool
  fetched : Option Block

inductive MarkResult where
  | more (m : Marking)
  | done (marked : Finset Multihash)
  | failed

section Mark
variable (setup : Setup)

def readForMark (s : Epochs) (c : Cid) (followed : Bool) (env : Weather) : Option Block × Epochs :=
  if env.fails then (none, s)
  else
    match s.blocks c.hash with
    | some data => if setup.ipld.Verifies c data then (some data, s) else (none, s)
    | none =>
      match followed, env.fetched with
      | true, some data =>
        if setup.ipld.Verifies c data then (some data, (s.put c data none).2) else (none, s)
      | _, _ => (none, s)

def retainForMark (s : Epochs) (c : Cid) (followed : Bool) (env : Weather) : Bool × Epochs :=
  if !setup.separateScrub || c.codec ≠ raw then
    ((readForMark setup s c followed env).1.isSome, (readForMark setup s c followed env).2)
  else if env.fails then (false, s)
  else if (s.blocks c.hash).isSome then (true, s)
  else
    match followed, env.fetched with
    | true, some data =>
      if setup.ipld.Verifies c data then (true, (s.put c data none).2) else (false, s)
    | _, _ => (false, s)

def linksForMark (s : Epochs) (c : Cid) (followed : Bool) (env : Weather) :
    Option (List Cid) × Epochs :=
  if c.codec ≠ dagCBOR then (none, s)
  else
    match readForMark setup s c followed env with
    | (none, s) => (none, s)
    | (some data, s) => ((setup.ipld.decode data).map Node.links, s)

/-- One iteration of the loops of `mark` and `markHead`. -/
def Marking.step (m : Marking) (s : Epochs) (env : Weather) : MarkResult × Epochs :=
  match m.pins with
  | p :: rest =>
    if p.recursive then (.more { m with pins := rest, frontier := p.cid :: m.frontier }, s)
    else
      match retainForMark setup s p.cid m.followed env with
      | (true, s) => (.more { m with pins := rest, marked := insert p.cid.hash m.marked }, s)
      | (false, s) => (.failed, s)
  | [] =>
    match m.frontier with
    | c :: rest =>
      if c.codec = raw then
        if c.hash ∈ m.marked then (.more { m with frontier := rest }, s)
        else
          match retainForMark setup s c m.followed env with
          | (true, s) => (.more { m with frontier := rest, marked := insert c.hash m.marked }, s)
          | (false, s) => (.failed, s)
      else if c ∈ m.expanded then (.more { m with frontier := rest }, s)
      else
        match linksForMark setup s c m.followed env with
        | (some kids, s) =>
          (.more { m with frontier := kids.reverse ++ rest, marked := insert c.hash m.marked
                          expanded := insert c m.expanded }, s)
        | (none, s) => (.failed, s)
    | [] =>
      match m.groups with
      | group :: rest =>
        (.more { m with groups := rest, pins := group.pins, followed := group.followed }, s)
      | [] => (.done m.marked, s)

end Mark

/-! ### The node -/

inductive Collector where
  | idle
  | marking (serial : Nat) (m : Marking)
  | sweeping (serial : Nat) (marked : Finset Multihash)

structure Vault where
  epochs : Epochs
  heads : String → Option Registration
  ledger : String → Rows
  /-- The staging rows with their expiries in seconds, if they have one. -/
  staging : Cid → Option (Option Nat)
  now : Nat
  collector : Collector
  /-- What applications have found or written since the last epoch began. -/
  used : Multihash → Prop

structure PutBlob where
  data : Block
  fails : Option Bool
  catalogued : Bool

namespace Vault
variable (setup : Setup) (v : Vault)

def serve (op : Op) : Vault :=
  { v with epochs := (op.perform v.epochs).2
           used := fun key => v.used key ∨ ∃ c : Cid, c.hash = key ∧ op.Shows v.epochs c }

def serveAll (ops : List Op) : Vault := ops.foldl serve v

/-- The second pass of `PutBlobs`: whether every blob was stored. -/
def putBlocks : List PutBlob → Vault → Bool × Vault
  | [], v => (true, v)
  | b :: rest, v =>
    let v' := v.serve (.put (setup.ipld.sum raw b.data) b.data b.fails)
    if b.fails.isNone && b.catalogued then putBlocks rest v' else (false, v')

/-- `Staging.Pin`. -/
def stage (cids : List Cid) : Vault :=
  { v with staging := fun c =>
      if c ∈ cids then some (some ((v.now + setup.ttl) / 1000000000)) else v.staging c }

/-- `PutBlobs` of verified blobs; `pinned` is the outcome of the staging batch. -/
def putBlobs (blobs : List PutBlob) (pinned : Bool) : Bool × Vault :=
  match putBlocks setup blobs v with
  | (false, v') => (false, v')
  | (true, v') =>
    if blobs = [] then (true, v')
    else if pinned then (true, v'.stage setup (blobs.map fun b => setup.ipld.sum raw b.data))
    else (false, v')

/-- `DropRefs` and `Drop`: the rows of these CIDs go. -/
def drop (cids : List Cid) : Vault :=
  { v with staging := fun c => if c ∈ cids then none else v.staging c }

def Expired (now : Nat) : Option Nat → Prop
  | some expiry => expiry * 1000000000 ≤ now
  | none => False

instance (now : Nat) : (expiry : Option Nat) → Decidable (Expired now expiry)
  | some expiry => inferInstanceAs (Decidable (expiry * 1000000000 ≤ now))
  | none => inferInstanceAs (Decidable False)

def dropExpired : Vault :=
  { v with staging := fun c => (v.staging c).filter fun expiry => ¬ Expired v.now expiry }

def setHead (name : String) (r : Option Registration) : Vault :=
  { v with heads := Function.update v.heads name r }

def Kept (ipld : Codec) (r : Option Registration) (key : Multihash) : Prop :=
  ∃ reg pins c, r = some reg ∧ reg.Wants ipld pins ∧ Retained ipld pins c ∧ c.hash = key

/-- The key of a block that has to stay. -/
def Live (ipld : Codec) (key : Multihash) : Prop :=
  (∃ name, Kept ipld (v.heads name) key) ∨
    ∃ c expiry, v.staging c = some expiry ∧ ¬ Expired v.now expiry ∧ c.hash = key

/-- A head may be retargeted during an epoch if an application has found or written
every block that it then retains and did not before. -/
def MayRetarget (ipld : Codec) (name : String) (r : Option Registration) : Prop :=
  v.epochs.active.isSome → ∀ key, Kept ipld r key → Kept ipld (v.heads name) key ∨ v.used key

/-- The groups of `pins`: written heads, followed heads, staging. -/
def groupsOf (names : List String) (heads : String → Option Registration)
    (entries : String → List Pin) (staged : List Cid) : List HeadMark :=
  let group (name : String) : Option HeadMark :=
    (heads name).map fun r => ⟨name, r.followed, entries name⟩
  (names.filterMap group).filter (fun g => !g.followed) ++
    (names.filterMap group).filter (fun g => g.followed) ++
    [⟨"_staging", false, staged.map fun c => ⟨.other "staging", c, false⟩⟩]

end Vault

/-- The work of the cut under the exclusive gate: what each pass wants and what it
finds, and the listings that are then marked from. -/
structure Cut (setup : Setup) (v : Vault) where
  names : List String
  registered : ∀ name, name ∈ names ↔ (v.heads name).isSome
  wants : String → List Pin
  held : String → List Pin
  passes : ∀ name r, v.heads name = some r →
    r.Wants setup.ipld (wants name) ∧ Lists (v.ledger name) (held name)
  entries : String → List Pin
  listed : ∀ name, (v.heads name).isSome →
    Lists ((v.ledger name).run (writes (wants name) (held name))) (entries name)
  staged : List Cid
  staged_iff : ∀ c, c ∈ staged ↔ (v.dropExpired.staging c).isSome

/-- The state after the cut: heads that were withdrawn are gone, and an epoch begins. -/
def Cut.after {setup : Setup} {v : Vault} (cut : Cut setup v) : Vault :=
  let heads := fun name => (v.heads name).filter fun r => !r.withdrawn
  { v.dropExpired with
    heads
    ledger := fun name =>
      if (v.heads name).isSome then (v.ledger name).run (writes (cut.wants name) (cut.held name))
      else v.ledger name
    epochs := v.epochs.beginEpoch.2
    collector := .marking v.epochs.begun
      (.start (Vault.groupsOf cut.names heads cut.entries cut.staged))
    used := fun _ => False }

inductive Vault.Work (setup : Setup) : Vault → Vault → Prop where
  /-- An application's operation on the blockstore. -/
  | serve {v : Vault} (op : Op) (app : op.OfApplication) : Work setup v (v.serve op)
  /-- A publication: blocks are read and written, then the head is swapped. -/
  | retarget {v : Vault} (name : String) (r : Option Registration) (ops : List Op)
      (app : ∀ op ∈ ops, op.OfApplication)
      (may : (v.serveAll ops).MayRetarget setup.ipld name r) :
      Work setup v ((v.serveAll ops).setHead name r)
  /-- A reconciliation pass, cut short or not. -/
  | reconcile {v : Vault} (name : String) {r : Registration} {pins held : List Pin}
      {ws : List Write} (registered : v.heads name = some r) (wants : r.Wants setup.ipld pins)
      (lists : Lists (v.ledger name) held) (front : ws <+: writes pins held) :
      Work setup v { v with ledger := Function.update v.ledger name ((v.ledger name).run ws) }
  /-- A cut that gets no further than this. -/
  | expire {v : Vault} : Work setup v v.dropExpired
  | tick {v : Vault} (time : Nat) : Work setup v { v with now := v.now + time }
  | cut {v : Vault} (idle : v.collector = .idle) (quiet : v.epochs.active = none)
      (cut : Cut setup v) : Work setup v cut.after
  /-- An iteration of the mark. -/
  | mark {v : Vault} {serial : Nat} {m : Marking} (env : Weather)
      (marking : v.collector = .marking serial m) {m' : Marking} {s : Epochs}
      (stepped : m.step setup v.epochs env = (.more m', s)) :
      Work setup v { v with epochs := s, collector := .marking serial m' }
  | marked {v : Vault} {serial : Nat} {m : Marking} (env : Weather)
      (marking : v.collector = .marking serial m) {marked : Finset Multihash} {s : Epochs}
      (stepped : m.step setup v.epochs env = (.done marked, s)) :
      Work setup v { v with epochs := s, collector := .sweeping serial marked }
  /-- A mark that fails or is cancelled ends the epoch. -/
  | unmarked {v : Vault} {serial : Nat} {m : Marking} (env : Weather)
      (marking : v.collector = .marking serial m) :
      Work setup v { v with epochs := ((m.step setup v.epochs env).2.endEpoch serial).2
                            collector := .idle }
  /-- The sweep's enumeration reports a key. -/
  | sweep {v : Vault} {serial : Nat} {marked : Finset Multihash} (c : Cid) (fails : Option Bool)
      (sweeping : v.collector = .sweeping serial marked) (dead : c.hash ∉ marked) :
      Work setup v { v with epochs := (v.epochs.deleteCandidate serial c fails).2 }
  | finish {v : Vault} {serial : Nat} {marked : Finset Multihash}
      (sweeping : v.collector = .sweeping serial marked) :
      Work setup v { v with epochs := (v.epochs.endEpoch serial).2, collector := .idle }

inductive Vault.Step (setup : Setup) : Vault → Vault → Prop where
  | work {v v' : Vault} (work : v.Work setup v') : Step setup v v'
  | putBlobs {v : Vault} (blobs : List PutBlob) (pinned : Bool) :
      Step setup v (v.putBlobs setup blobs pinned).2
  | drop {v : Vault} (cids : List Cid) : Step setup v (v.drop cids)

inductive Vault.Reached (setup : Setup) : Vault → Prop where
  | start {v : Vault} (idle : v.collector = .idle) (quiet : v.epochs.active = none) :
      Reached setup v
  | step {v v' : Vault} (reached : Reached setup v) (step : v.Step setup v') : Reached setup v'

end Bloar.Pinning
