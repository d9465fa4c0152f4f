import Bloar.Protect
import Bloar.Epoch
import Bloar.Traversal

/-!
The fetch pass of a follower (`follow/sync.go`). A pass makes local what the policy
retains for the adopted root, and under `verify: full` checks every entry of the segments
it walks. It runs without a lock for the length of a walk, so adoptions, other readers and
the collector come in between any two of its steps; the permit of `syncCurrent` lets one
pass run at a time.
-/

namespace Bloar.Schema

def Segment.entries (s : Segment) : List RefEntry := s.rows.flatMap Row.entries

end Bloar.Schema

namespace Bloar.Follow
open Ipld Schema Archive Pinning Store

inductive Verify where
  | cid
  | full
  deriving DecidableEq, Repr

structure HeadState where
  policy : Policy
  adopted : Link
  fetched : Link
  manifestTip : Link
  manifestFetched : Link
  quarantined : Bool

namespace HeadState
variable (hs : HeadState)

def staleTip : Link := if hs.manifestTip = hs.manifestFetched then none else hs.manifestTip

/-- `installHeadPlans` for one head: a completion marker belongs to one adoption. -/
def adopt (root : Cid) (tip : Link) : HeadState :=
  { hs with fetched := if hs.adopted = some root then hs.fetched else none
            manifestFetched := if hs.manifestTip = tip then hs.manifestFetched else none
            adopted := some root, manifestTip := tip }

def withdraw : HeadState :=
  { hs with adopted := none, fetched := none, manifestTip := none, manifestFetched := none }

end HeadState

/-! ### Proofs of verified segments -/

/-- How the follower's key-value store answers: whether a read fails, and whether a write
does; after a failed write the value may be there or not. -/
structure Kv where
  getFails : Bool
  setFails : Option Bool
  deriving DecidableEq, Repr

/-- `verifiedSegments` says of each segment known to be verified whether its proof is
durable, `verifiedOpen` names each head's open segment, `markers` are the durable proofs. -/
structure Proofs where
  verifiedSegments : Cid → Option Bool
  verifiedOpen : String → Link
  markers : Cid → Bool

namespace Proofs
variable (p : Proofs) (head : String) (c : Cid) (durable : Bool)

def empty : Proofs := ⟨fun _ => none, fun _ => none, fun _ => false⟩

def remember (durable : Bool) : Proofs :=
  { p with verifiedSegments := Function.update p.verifiedSegments c (some durable) }

def record (fails : Option Bool) : Proofs :=
  { p with markers := Function.update p.markers c (p.markers c || fails.getD true) }

def evict : Cid → Option Bool :=
  match p.verifiedOpen head with
  | some prior =>
    if prior ≠ c ∧ p.verifiedSegments prior = some false then
      Function.update p.verifiedSegments prior none
    else p.verifiedSegments
  | none => p.verifiedSegments

def classify : Proofs :=
  if durable then
    if p.verifiedOpen head = some c then
      { p with verifiedOpen := Function.update p.verifiedOpen head none }
    else p
  else
    { p with verifiedSegments := p.evict head c
             verifiedOpen := Function.update p.verifiedOpen head (some c) }

def segmentVerified (kv : Kv) : Option Bool × Proofs :=
  let p := p.classify head c durable
  match p.verifiedSegments c with
  | some durableHot =>
    if durable ∧ durableHot = false then
      match kv.setFails with
      | none => (some true, (p.record c none).remember c true)
      | some written => (none, p.record c (some written))
    else (some true, p)
  | none =>
    if durable = false then (some false, p)
    else if kv.getFails then (none, p)
    else if p.markers c then (some true, p.remember c true)
    else (some false, p)

def markSegmentVerified (kv : Kv) : Bool × Proofs :=
  if durable then
    match kv.setFails with
    | none => (true, ((p.record c none).classify head c true).remember c true)
    | some written => (false, p.record c (some written))
  else
    let p := p.classify head c false
    (true, p.remember c ((p.verifiedSegments c).getD false))

end Proofs

/-! ### Passes -/

/-- What is left to do for a pass before its completion stamp: classify a sealed segment,
fetch a block, or fetch all that is reachable from one. -/
inductive Task where
  | classify (c : Cid)
  | ensure (c : Cid)
  | recurse (c : Cid)
  deriving DecidableEq, Repr

def taskOf (pin : Pin) : Task := if pin.recursive then .recurse pin.cid else .ensure pin.cid

/-- Where a pass is. A `recurse` from `first` has its stack, the top in front, and the
marks it has not committed; it may be in the middle of a segment. -/
inductive Phase where
  | taken
  | bound
  | between
  | walking (first : Cid) (stack pending : List Cid)
  | fetched (first : Cid) (stack pending : List Cid) (segment : Cid) (entries : List RefEntry)
  | reading (first : Cid) (stack pending : List Cid) (segment : Cid) (verified : Bool)
      (entries : List RefEntry)
  | committing (pending : List Cid)

/-- A pass with its `walk`: `tip` is the manifest tip if it is stale. -/
structure Pass where
  head : String
  root : Cid
  rootStale : Bool
  tip : Link
  generation : Nat
  segs : List Cid
  durableSegs : List Cid
  tasks : List Task
  phase : Phase

namespace Pass

def take (head : String) (hs : HeadState) (root : Cid) : Pass :=
  { head, root, rootStale := hs.fetched ≠ some root, tip := hs.staleTip, generation := 0
    segs := [], durableSegs := [], tasks := [], phase := .taken }

def plan (p : Pass) (verify : Verify) (found : Enumeration) (pins : List Pin) : Pass :=
  { p with
    segs := found.sealed.map SealedSegment.cid ++ found.openCid.toList
    durableSegs := found.sealed.map SealedSegment.cid
    tasks := (if verify = .full then found.sealed.map fun x => .classify x.cid else []) ++
      pins.map taskOf ++ p.tip.toList.map .recurse
    phase := .between }

end Pass

def HeadState.stamp (hs : HeadState) (p : Pass) : HeadState :=
  { hs with
    fetched := if p.rootStale ∧ hs.adopted = some p.root then some p.root else hs.fetched
    manifestFetched :=
      if p.tip.isSome ∧ hs.manifestTip = p.tip then p.tip else hs.manifestFetched }

/-- A follower. `walked` has the generation of each memo of `done`; `checked` lists the
entries that `verifyBlob` has accepted in the course of the run, across restarts. -/
structure Follower where
  verify : Verify
  store : Epochs
  heads : String → Option HeadState
  registry : String → Link
  walked : Cid → Option Nat
  proofs : Proofs
  pass : Option Pass
  checked : List RefEntry

namespace Follower
variable (s : Follower)

def setHead (name : String) (hs : HeadState) : Follower :=
  { s with heads := Function.update s.heads name (some hs) }

def quarantine (name : String) : Follower :=
  { s with heads := fun other => if other = name then
             (s.heads name).map fun hs => { hs with quarantined := true } else s.heads other
           registry := Function.update s.registry name none }

def stop : Follower := { s with pass := none }

def goto (p : Pass) (phase : Phase) : Follower := { s with pass := some { p with phase := phase } }

def done (p : Pass) (pending : List Cid) (c : Cid) : Prop :=
  c ∈ pending ∨ s.walked c = some p.generation

def commit (p : Pass) (pending : List Cid) : Follower :=
  { s with walked := fun c => if c ∈ pending then some p.generation else s.walked c }

def boot (verify : Verify) (heads : String → Option HeadState)
    (blocks : Multihash → Option Block) (markers : Cid → Bool) : Follower :=
  { s with
    verify, heads, store := newEpochs blocks, registry := fun _ => none, walked := fun _ => none
    proofs := { Proofs.empty with markers }, pass := none }

end Follower

def Ensured (ipld : Codec) (s : Epochs) (c : Cid) (t : Epochs) : Prop :=
  s.has c false = (.present true, t) ∨
    ∃ data, ipld.Verifies c data ∧ s.put c data none = (.done, t)

/-- `block`: a local read is validated, as is what comes from the network. -/
def Obtained (ipld : Codec) (s : Epochs) (c : Cid) (data : Block) (t : Epochs) : Prop :=
  ipld.Verifies c data ∧ (s.get c false = (.block data, t) ∨ s.put c data none = (.done, t))

inductive Event where
  | outside
  | walk
  | segmentVerified (c : Cid) (durable : Bool) (kv : Kv)
  | markSegmentVerified (kv : Kv)
  | stamp (name : String)
  | stop

inductive Step (ipld : Codec) (versionedHash : Block → Option VersionedHash) :
    Follower → Event → Follower → Prop where
  -- Everything else that uses the store: readers, the walks before an adoption, the collector.
  | store {s : Follower} {op : Op} (tame : op.Tame) :
      Step ipld versionedHash s .outside { s with store := (op.perform s.store).2 }
  | swap {s : Follower} (name : String) (root : Link) :
      Step ipld versionedHash s .outside
        { s with registry := Function.update s.registry name root }
  | adopt {s : Follower} {name : String} {hs : HeadState} (known : s.heads name = some hs)
      (root : Cid) (tip : Link) :
      Step ipld versionedHash s .outside (s.setHead name (hs.adopt root tip))
  | withdraw {s : Follower} {name : String} {hs : HeadState} (known : s.heads name = some hs) :
      Step ipld versionedHash s .outside (s.setHead name hs.withdraw)
  | quarantine {s : Follower} (name : String) :
      Step ipld versionedHash s .outside (s.quarantine name)
  -- The configuration may have changed, and the last markers may be lost.
  | restart {s : Follower} {heads : String → Option HeadState} {markers : Cid → Bool}
      (verify : Verify) (blocks : Multihash → Option Block)
      (fresh : ∀ name hs, heads name = some hs → hs.fetched = none ∧ hs.manifestFetched = none)
      (kept : ∀ c, markers c → s.proofs.markers c) :
      Step ipld versionedHash s .outside (s.boot verify heads blocks markers)
  | take {s : Follower} {name : String} {hs : HeadState} {root : Cid} (free : s.pass = none)
      (known : s.heads name = some hs) (serving : hs.quarantined = false)
      (adopted : hs.adopted = some root)
      (stale : hs.fetched ≠ some root ∨ hs.staleTip.isSome) :
      Step ipld versionedHash s .walk { s with pass := some (.take name hs root) }
  | bind {s : Follower} {p : Pass} (running : s.pass = some p) (phase : p.phase = .taken)
      (same : s.registry p.head = some p.root) :
      Step ipld versionedHash s .walk
        (s.goto { p with generation := s.store.collectionGeneration } .bound)
  | plan {s : Follower} {p : Pass} {hs : HeadState} {found : Enumeration} {pins : List Pin}
      (running : s.pass = some p) (phase : p.phase = .bound) (stale : p.rootStale = true)
      (known : s.heads p.head = some hs) (enumerated : Enumerates ipld p.root found)
      (made : desired hs.policy found = .ok pins) :
      Step ipld versionedHash s .walk { s with pass := some (p.plan s.verify found pins) }
  | chain {s : Follower} {p : Pass} (running : s.pass = some p) (phase : p.phase = .bound)
      (fresh : p.rootStale = false) :
      Step ipld versionedHash s .walk
        (s.goto { p with tasks := p.tip.toList.map .recurse } .between)
  | classify {s : Follower} {p : Pass} {c : Cid} {rest : List Task} {kv : Kv} {verified : Bool}
      (running : s.pass = some p) (phase : p.phase = .between)
      (next : p.tasks = .classify c :: rest)
      (answer : (s.proofs.segmentVerified p.head c true kv).1 = some verified) :
      Step ipld versionedHash s (.segmentVerified c true kv)
        { s with proofs := (s.proofs.segmentVerified p.head c true kv).2
                 pass := some { p with tasks := rest } }
  | unclassified {s : Follower} {p : Pass} {c : Cid} {rest : List Task} {kv : Kv}
      (running : s.pass = some p) (phase : p.phase = .between)
      (next : p.tasks = .classify c :: rest)
      (answer : (s.proofs.segmentVerified p.head c true kv).1 = none) :
      Step ipld versionedHash s (.segmentVerified c true kv)
        { s with proofs := (s.proofs.segmentVerified p.head c true kv).2, pass := none }
  | ensure {s : Follower} {p : Pass} {c : Cid} {rest : List Task} {t : Epochs}
      (running : s.pass = some p) (phase : p.phase = .between)
      (next : p.tasks = .ensure c :: rest) (ensured : Ensured ipld s.store c t) :
      Step ipld versionedHash s .walk
        { s with store := t, pass := some { p with tasks := rest } }
  | recurse {s : Follower} {p : Pass} {c : Cid} {rest : List Task} (running : s.pass = some p)
      (phase : p.phase = .between) (next : p.tasks = .recurse c :: rest) :
      Step ipld versionedHash s .walk (s.goto { p with tasks := rest } (.walking c [c] []))
  | skip {s : Follower} {p : Pass} {first c : Cid} {stack pending : List Cid}
      (running : s.pass = some p) (phase : p.phase = .walking first (c :: stack) pending)
      (index : c.codec = dagCBOR) (done : s.done p pending c) :
      Step ipld versionedHash s .walk (s.goto p (.walking first stack pending))
  | leaf {s : Follower} {p : Pass} {first c : Cid} {stack pending : List Cid} {t : Epochs}
      (running : s.pass = some p) (phase : p.phase = .walking first (c :: stack) pending)
      (blob : c.codec = raw) (plain : s.verify = .cid) (ensured : Ensured ipld s.store c t) :
      Step ipld versionedHash s .walk
        ({ s with store := t }.goto p (.walking first stack pending))
  -- Under full verification a blob must be bound to a versioned hash by a segment.
  | unbound {s : Follower} {p : Pass} {first c : Cid} {stack pending : List Cid}
      (running : s.pass = some p) (phase : p.phase = .walking first (c :: stack) pending)
      (blob : c.codec = raw) (full : s.verify = .full) :
      Step ipld versionedHash s .stop (s.quarantine p.head).stop
  | node {s : Follower} {p : Pass} {first c : Cid} {stack pending : List Cid} {t : Epochs}
      {data : Block} {node : Node} (running : s.pass = some p)
      (phase : p.phase = .walking first (c :: stack) pending) (index : c.codec = dagCBOR)
      (fresh : ¬ s.done p pending c) (plain : c ∉ p.segs)
      (obtained : Obtained ipld s.store c data t) (decoded : ipld.decode data = some node) :
      Step ipld versionedHash s .walk
        ({ s with store := t }.goto p (.walking first (node.links.reverse ++ stack) (c :: pending)))
  | fetch {s : Follower} {p : Pass} {first c : Cid} {stack pending : List Cid} {t : Epochs}
      {data : Block} {sg : Segment} (running : s.pass = some p)
      (phase : p.phase = .walking first (c :: stack) pending) (index : c.codec = dagCBOR)
      (fresh : ¬ s.done p pending c) (segment : c ∈ p.segs)
      (obtained : Obtained ipld s.store c data t) (decoded : decodeSegment ipld data = .ok sg) :
      Step ipld versionedHash s .walk
        ({ s with store := t }.goto p (.fetched first stack pending c sg.entries))
  | read {s : Follower} {p : Pass} {first c : Cid} {stack pending : List Cid}
      {entries : List RefEntry} (running : s.pass = some p)
      (phase : p.phase = .fetched first stack pending c entries) (plain : s.verify = .cid) :
      Step ipld versionedHash s .walk (s.goto p (.reading first stack pending c false entries))
  | lookup {s : Follower} {p : Pass} {first c : Cid} {stack pending : List Cid}
      {entries : List RefEntry} {kv : Kv} {verified : Bool} (running : s.pass = some p)
      (phase : p.phase = .fetched first stack pending c entries) (full : s.verify = .full)
      (answer : (s.proofs.segmentVerified p.head c (c ∈ p.durableSegs) kv).1 = some verified) :
      Step ipld versionedHash s (.segmentVerified c (c ∈ p.durableSegs) kv)
        ({ s with proofs := (s.proofs.segmentVerified p.head c (c ∈ p.durableSegs) kv).2 }.goto p
          (.reading first stack pending c verified entries))
  | unanswered {s : Follower} {p : Pass} {first c : Cid} {stack pending : List Cid}
      {entries : List RefEntry} {kv : Kv} (running : s.pass = some p)
      (phase : p.phase = .fetched first stack pending c entries) (full : s.verify = .full)
      (answer : (s.proofs.segmentVerified p.head c (c ∈ p.durableSegs) kv).1 = none) :
      Step ipld versionedHash s (.segmentVerified c (c ∈ p.durableSegs) kv)
        { s with proofs := (s.proofs.segmentVerified p.head c (c ∈ p.durableSegs) kv).2
                 pass := none }
  | hold {s : Follower} {p : Pass} {first c blob : Cid} {stack pending : List Cid}
      {verified : Bool} {e : RefEntry} {entries : List RefEntry} {t : Epochs}
      (running : s.pass = some p)
      (phase : p.phase = .reading first stack pending c verified (e :: entries))
      (plain : s.verify = .cid ∨ verified = true) (named : e.blob = some blob)
      (ensured : Ensured ipld s.store blob t) :
      Step ipld versionedHash s .walk
        ({ s with store := t }.goto p (.reading first stack pending c verified entries))
  | check {s : Follower} {p : Pass} {first c blob : Cid} {stack pending : List Cid}
      {e : RefEntry} {entries : List RefEntry} {t : Epochs} {data : Block}
      (running : s.pass = some p)
      (phase : p.phase = .reading first stack pending c false (e :: entries))
      (full : s.verify = .full) (named : e.blob = some blob)
      (obtained : Obtained ipld s.store blob data t) (bound : versionedHash data = some e.vh) :
      Step ipld versionedHash s .walk
        ({ s with store := t, checked := e :: s.checked }.goto p
          (.reading first stack pending c false entries))
  | refute {s : Follower} {p : Pass} {first c blob : Cid} {stack pending : List Cid}
      {e : RefEntry} {entries : List RefEntry} {t : Epochs} {data : Block}
      (running : s.pass = some p)
      (phase : p.phase = .reading first stack pending c false (e :: entries))
      (full : s.verify = .full) (named : e.blob = some blob)
      (obtained : Obtained ipld s.store blob data t) (other : versionedHash data ≠ some e.vh) :
      Step ipld versionedHash s .stop (Follower.quarantine { s with store := t } p.head).stop
  | close {s : Follower} {p : Pass} {first c : Cid} {stack pending : List Cid} {verified : Bool}
      (running : s.pass = some p)
      (phase : p.phase = .reading first stack pending c verified [])
      (plain : s.verify = .cid ∨ verified = true) :
      Step ipld versionedHash s .walk (s.goto p (.walking first stack (c :: pending)))
  | mark {s : Follower} {p : Pass} {first c : Cid} {stack pending : List Cid} {kv : Kv}
      (running : s.pass = some p) (phase : p.phase = .reading first stack pending c false [])
      (full : s.verify = .full)
      (marked : (s.proofs.markSegmentVerified p.head c (c ∈ p.durableSegs) kv).1 = true) :
      Step ipld versionedHash s (.markSegmentVerified kv)
        ({ s with
            proofs := (s.proofs.markSegmentVerified p.head c (c ∈ p.durableSegs) kv).2 }.goto p
          (.walking first stack (c :: pending)))
  | unmarked {s : Follower} {p : Pass} {first c : Cid} {stack pending : List Cid} {kv : Kv}
      (running : s.pass = some p) (phase : p.phase = .reading first stack pending c false [])
      (full : s.verify = .full)
      (failed : (s.proofs.markSegmentVerified p.head c (c ∈ p.durableSegs) kv).1 = false) :
      Step ipld versionedHash s (.markSegmentVerified kv)
        { s with proofs := (s.proofs.markSegmentVerified p.head c (c ∈ p.durableSegs) kv).2
                 pass := none }
  -- The stack has drained: the marks are kept if no collection has begun meanwhile.
  | drain {s : Follower} {p : Pass} {first : Cid} {pending : List Cid} (running : s.pass = some p)
      (phase : p.phase = .walking first [] pending) :
      Step ipld versionedHash s .walk (s.goto p
        (if s.store.collectionGeneration = p.generation then .committing pending else .between))
  | commit {s : Follower} {p : Pass} {pending : List Cid} (running : s.pass = some p)
      (phase : p.phase = .committing pending) :
      Step ipld versionedHash s .walk ((s.commit p pending).goto p .between)
  | stamp {s : Follower} {p : Pass} {hs : HeadState} (running : s.pass = some p)
      (phase : p.phase = .between) (finished : p.tasks = [])
      (current : s.store.collectionGeneration = p.generation)
      (known : s.heads p.head = some hs) :
      Step ipld versionedHash s (.stamp p.head) (s.setHead p.head (hs.stamp p)).stop
  -- An error, or the end of the context.
  | stop {s : Follower} : Step ipld versionedHash s .stop s.stop

inductive Reaches (ipld : Codec) (versionedHash : Block → Option VersionedHash)
    (allowed : Follower → Event → Prop) (start : Follower) : Follower → Prop where
  | start : Reaches ipld versionedHash allowed start start
  | step {s t : Follower} {event : Event} (before : Reaches ipld versionedHash allowed start s)
      (permitted : allowed s event) (step : Step ipld versionedHash s event t) :
      Reaches ipld versionedHash allowed start t

structure Follower.New (s : Follower) : Prop where
  proofs : s.proofs = .empty
  checked : s.checked = []
  walked : ∀ c, s.walked c = none
  pass : s.pass = none
  heads : ∀ name hs, s.heads name = some hs → hs.fetched = none ∧ hs.manifestFetched = none
  store : ∃ blocks, s.store = newEpochs blocks

end Bloar.Follow
