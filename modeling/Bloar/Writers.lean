import Bloar.HeadLog

/-!
Any number of indexers writing one head. An indexer works in passes: it plans a range
from what the head covers, fetches it, may start on the next range while the first is
on its way, and posts. A posted batch can be lost, arrive late or arrive twice, and
its answer can be lost; a process can stop anywhere and start again with nothing.
What differs between kinds of indexers is a `Kind`; what they share is here.
-/

namespace Bloar.Indexing
open Ipld Schema Archive

theorem ok_of_join {α : Type} {x : Except String (Option α)} {a : α}
    (isSome : x.toOption.join = some a) : x = .ok (some a) :=
  ok_of_toOption (Option.join_eq_some_iff.mp isSome)

/-- A refs batch. `start` is where its scan began; it is not sent. -/
structure Batch where
  start : Nat
  last : Nat
  rows : List RefRow
  expectedManifest : Option Cid
  deriving DecidableEq

/-- A kind of indexer: its memory between passes, and a pass as functions of what it
reads. `Reads` is everything a step reads except the head's `synced_to`. -/
structure Kind where
  Memory : Type
  Plan : Type
  Fetched : Type
  Reads : Type
  fresh : Memory
  /-- the range of the next pass, if there is one to do -/
  plan : Memory → Option Nat → Reads → Memory × Option Plan
  /-- `none` for an error -/
  fetch : Plan → Reads → Option Fetched
  /-- the last slot that a fetched range decided, if any -/
  last : Fetched → Option Nat
  /-- what is posted once the bytes are stored; `none` for an error -/
  batch : Fetched → Reads → Option Batch
  /-- the range to fetch while this one is posted -/
  next : Fetched → Option Plan
  /-- the memory once the post is acknowledged -/
  settle : Memory → Fetched → Memory

inductive Stage (k : Kind) where
  | idle
  | planned (p : k.Plan)
  | fetched (f : k.Fetched)
  | sent (f : k.Fetched) (request : Nat)

def Stage.ofPlan {k : Kind} : Option k.Plan → Stage k
  | none => .idle
  | some p => .planned p

inductive Lookahead (k : Kind) where
  | none
  | planned (p : k.Plan)
  | fetched (f : k.Fetched)

structure Writer (k : Kind) where
  memory : k.Memory
  stage : Stage k
  ahead : Lookahead k

def Writer.fresh (k : Kind) : Writer k := { memory := k.fresh, stage := .idle, ahead := .none }

def Writer.drop {k : Kind} (writer : Writer k) : Writer k :=
  { writer with stage := .idle, ahead := .none }

/-- `checkManifestBinding`: a head with a tip requires it, one without forbids it. -/
inductive BindingError where
  | required
  | forbidden
  | conflict
  deriving DecidableEq, Repr

def checkManifestBinding (tip expected : Option Cid) : Except BindingError Unit :=
  match tip, expected with
  | some _, none => .error .required
  | none, some _ => .error .forbidden
  | some tip, some expected => if expected = tip then .ok () else .error .conflict
  | none, none => .ok ()

variable {ι : Type} [DecidableEq ι]

/-- The head with its manifest tip, its writers, the requests that may still reach the
server, and those that it has answered with success. -/
structure System (kind : ι → Kind) where
  log : Log
  tip : Option Cid
  writers : (i : ι) → Writer (kind i)
  requests : Nat
  posted : List (Nat × Batch)
  answered : List Nat

def System.fresh (kind : ι → Kind) (tip : Option Cid) : System kind where
  log := .empty
  tip := tip
  writers i := Writer.fresh (kind i)
  requests := 0
  posted := []
  answered := []

inductive Event (kind : ι → Kind) where
  | plan (i : ι) (reads : (kind i).Reads)
  | fetch (i : ι) (reads : (kind i).Reads)
  | prefetch (i : ι)
  | fetchAhead (i : ι) (reads : (kind i).Reads)
  | await (i : ι)
  | post (i : ι) (reads : (kind i).Reads)
  | acknowledge (i : ι)
  /-- an error, or a wait: the pass is given up -/
  | giveUp (i : ι)
  | restart (i : ι)
  /-- a posted batch reaches the server, now or again -/
  | deliver (request : Nat) (b : Batch)
  /-- a posted batch will not reach the server any more -/
  | expire (request : Nat)
  | truncate (slot : Nat)
  | setManifest (tip : Cid)

variable {kind : ι → Kind}

def System.update (s : System kind) (i : ι) (writer : Writer (kind i)) : System kind :=
  { s with writers := Function.update s.writers i writer }

def System.receive (s : System kind) (originSlot request : Nat) (b : Batch) :
    Option (System kind) :=
  match checkManifestBinding s.tip b.expectedManifest with
  | .error _ => none
  | .ok _ =>
    (s.log.applyRefs originSlot b.rows b.last).map fun log =>
      { s with log, answered := request :: s.answered }

def System.rewind (s : System kind) (originSlot slot : Nat) : Option (System kind) :=
  match s.log.synced with
  | none => none
  | some synced =>
    if originSlot ≤ slot ∧ slot ≤ synced then some { s with log := s.log.cut slot } else none

def System.step (originSlot : Nat) (s : System kind) : Event kind → Option (System kind)
  | .plan i reads =>
    match (s.writers i).stage, (s.writers i).ahead with
    | .idle, .none =>
      let (memory, plan) := (kind i).plan (s.writers i).memory s.log.synced reads
      some (s.update i { memory, stage := .ofPlan plan, ahead := .none })
    | _, _ => none
  | .fetch i reads =>
    match (s.writers i).stage with
    | .planned p =>
      ((kind i).fetch p reads).map fun f =>
        s.update i { s.writers i with stage := .fetched f }
    | _ => none
  | .prefetch i =>
    match (s.writers i).stage, (s.writers i).ahead with
    | .fetched f, .none =>
      ((kind i).next f).map fun p => s.update i { s.writers i with ahead := .planned p }
    | _, _ => none
  | .fetchAhead i reads =>
    match (s.writers i).ahead with
    | .planned p =>
      ((kind i).fetch p reads).map fun f => s.update i { s.writers i with ahead := .fetched f }
    | _ => none
  | .await i =>
    match (s.writers i).stage, (s.writers i).ahead with
    | .idle, .fetched f =>
      some (s.update i { s.writers i with stage := .fetched f, ahead := .none })
    | _, _ => none
  | .post i reads =>
    match (s.writers i).stage with
    | .fetched f =>
      ((kind i).batch f reads).map fun b =>
        { s.update i { s.writers i with stage := .sent f s.requests } with
          requests := s.requests + 1, posted := (s.requests, b) :: s.posted }
    | _ => none
  | .acknowledge i =>
    match (s.writers i).stage with
    | .sent f request =>
      if request ∈ s.answered then
        some (s.update i { s.writers i with
          memory := (kind i).settle (s.writers i).memory f, stage := .idle })
      else none
    | _ => none
  | .giveUp i => some (s.update i (s.writers i).drop)
  | .restart i => some (s.update i (Writer.fresh (kind i)))
  | .deliver request b =>
    if (request, b) ∈ s.posted then s.receive originSlot request b else none
  | .expire request => some { s with posted := s.posted.filter fun p => p.1 != request }
  | .truncate slot => s.rewind originSlot slot
  | .setManifest tip => some { s with tip := some tip }

def Event.reachesHead : Event kind → Prop
  | .deliver _ _ | .truncate _ | .setManifest _ => True
  | _ => False

theorem System.step_log {originSlot : Nat} {s s' : System kind} {e : Event kind}
    (apart : ¬ e.reachesHead) (taken : s.step originSlot e = some s') :
    s'.log = s.log ∧ s'.tip = s.tip := by
  cases e with
  | deliver | truncate | setManifest => exact (apart trivial).elim
  | giveUp | restart | expire => cases taken; exact ⟨rfl, rfl⟩
  | plan | await =>
    simp only [System.step] at taken
    split at taken
    · cases taken; exact ⟨rfl, rfl⟩
    · cases taken
  | acknowledge i =>
    simp only [System.step] at taken
    split at taken
    · split at taken
      · cases taken; exact ⟨rfl, rfl⟩
      · cases taken
    · cases taken
  | fetch i reads | prefetch i | fetchAhead i reads | post i reads =>
    simp only [System.step] at taken
    split at taken
    · obtain ⟨_, _, rfl⟩ := Option.map_eq_some_iff.mp taken
      exact ⟨rfl, rfl⟩
    · cases taken

theorem System.step_tip {originSlot : Nat} {s s' : System kind} {e : Event kind}
    (other : ∀ tip, e ≠ .setManifest tip) (taken : s.step originSlot e = some s') :
    s'.tip = s.tip := by
  by_cases apart : e.reachesHead
  · cases e with
    | setManifest tip => exact (other tip rfl).elim
    | deliver request b =>
      simp only [System.step, System.receive] at taken
      split at taken
      · split at taken
        · cases taken
        · obtain ⟨_, _, rfl⟩ := Option.map_eq_some_iff.mp taken
          rfl
      · cases taken
    | truncate slot =>
      simp only [System.step, System.rewind] at taken
      split at taken
      · cases taken
      · split at taken
        · cases taken
          rfl
        · cases taken
    | _ => exact apart.elim
  · exact (System.step_log apart taken).2

inductive System.Reaches (originSlot : Nat) (allowed : System kind → Event kind → Prop)
    (start : System kind) : System kind → Prop where
  | refl : System.Reaches originSlot allowed start start
  | step {s s' : System kind} {e : Event kind} (before : System.Reaches originSlot allowed start s)
      (met : allowed s e) (taken : s.step originSlot e = some s') :
      System.Reaches originSlot allowed start s'

inductive System.Trace (originSlot : Nat) (allowed : System kind → Event kind → Prop) :
    System kind → List (Event kind) → System kind → Prop where
  | nil (s : System kind) : System.Trace originSlot allowed s [] s
  | cons {s s' s'' : System kind} {e : Event kind} {events : List (Event kind)} (met : allowed s e)
      (taken : s.step originSlot e = some s') (rest : System.Trace originSlot allowed s' events s'') :
      System.Trace originSlot allowed s (e :: events) s''

def System.run (originSlot : Nat) : List (Event kind) → System kind → Option (System kind)
  | [], s => some s
  | e :: rest, s => (s.step originSlot e).bind (System.run originSlot rest)

theorem System.Reaches.trans {originSlot : Nat} {allowed : System kind → Event kind → Prop}
    {a b c : System kind} (first : System.Reaches originSlot allowed a b)
    (second : System.Reaches originSlot allowed b c) : System.Reaches originSlot allowed a c := by
  induction second with
  | refl => exact first
  | step before met taken ih => exact ih.step met taken

theorem System.Reaches.mono {originSlot : Nat} {allowed wider : System kind → Event kind → Prop}
    {a b : System kind} (reached : System.Reaches originSlot allowed a b)
    (le : ∀ s e, allowed s e → wider s e) : System.Reaches originSlot wider a b := by
  induction reached with
  | refl => exact .refl
  | step before met taken ih => exact ih.step (le _ _ met) taken

section Traces

variable {originSlot : Nat} {allowed wider : System kind → Event kind → Prop} {s s' : System kind}

variable {events first later : List (Event kind)}

theorem System.Trace.reaches (trace : System.Trace originSlot allowed s events s') :
    System.Reaches originSlot allowed s s' := by
  induction trace with
  | nil s => exact .refl
  | cons met taken rest ih => exact (System.Reaches.refl.step met taken).trans ih

theorem System.Trace.mono (trace : System.Trace originSlot allowed s events s')
    (le : ∀ s, ∀ e ∈ events, allowed s e → wider s e) :
    System.Trace originSlot wider s events s' := by
  induction trace with
  | nil s => exact .nil s
  | cons met taken rest ih =>
    exact .cons (le _ _ List.mem_cons_self met) taken
      (ih fun s e member => le s e (List.mem_cons_of_mem _ member))

theorem System.Trace.split (trace : System.Trace originSlot allowed s (first ++ later) s') :
    ∃ middle, System.Trace originSlot allowed s first middle ∧
      System.Trace originSlot allowed middle later s' := by
  induction first generalizing s with
  | nil => exact ⟨s, .nil s, trace⟩
  | cons e rest ih =>
    cases trace with
    | cons met taken more =>
      obtain ⟨middle, front, back⟩ := ih more
      exact ⟨middle, .cons met taken front, back⟩

theorem System.run_append (first later : List (Event kind)) (s : System kind) :
    System.run originSlot (first ++ later) s =
      (System.run originSlot first s).bind (System.run originSlot later) := by
  induction first generalizing s with
  | nil => rfl
  | cons e rest ih =>
    simp only [List.cons_append, System.run, Option.bind_assoc]
    exact congrArg _ (funext fun middle => ih middle)

theorem System.Trace.append {middle : System kind}
    (front : System.Trace originSlot allowed s first middle)
    (back : System.Trace originSlot allowed middle later s') :
    System.Trace originSlot allowed s (first ++ later) s' := by
  induction front with
  | nil s => exact back
  | cons met taken rest ih => exact .cons met taken (ih back)

variable (met : ∀ e ∈ events, ∀ state, allowed state e)
include met

theorem System.Trace.of_run (ran : System.run originSlot events s = some s') :
    System.Trace originSlot allowed s events s' := by
  induction events generalizing s with
  | nil =>
    cases ran
    exact .nil _
  | cons e rest ih =>
    obtain ⟨middle, taken, later⟩ := Option.bind_eq_some_iff.mp ran
    exact .cons (met e List.mem_cons_self s) taken
      (ih (fun e member => met e (List.mem_cons_of_mem _ member)) later)

theorem System.Reaches.of_run (ran : System.run originSlot events s = some s') :
    System.Reaches originSlot allowed s s' :=
  (System.Trace.of_run met ran).reaches

end Traces

/-! ### What a kind of indexer owes -/

def resumeAt (originSlot : Nat) : Option Nat → Nat
  | none => originSlot
  | some s => s + 1

/-- A batch tells the truth of the manifest that it names about the slots of its scan, and
ends where coverage may reach. -/
structure Batch.Honest (truth : Option Cid → Nat → List VersionedHash → Prop) (reach : Nat → Prop)
    (b : Batch) : Prop where
  tells : Tells (truth b.expectedManifest) b.start b.last b.rows
  reaches : b.start ≤ b.last → reach b.last

inductive Errand where
  | planning
  | scanning
  | posting

/-- Invariants of one kind of indexer that make all its batches honest, as long as what it
reads is. The numbers are where a scan begins. -/
structure Contract (k : Kind) (originSlot : Nat) (truth : Option Cid → Nat → List VersionedHash → Prop)
    (reach : Nat → Prop) (honest : Errand → k.Reads → Prop) where
  Memory : k.Memory → Prop
  Plan : k.Plan → Nat → Prop
  Fetched : k.Fetched → Nat → Prop
  fresh : Memory k.fresh
  plan : ∀ m synced reads, honest .planning reads → Memory m →
    Memory (k.plan m synced reads).1 ∧ ∀ p, (k.plan m synced reads).2 = some p →
      ∃ start, start ≤ resumeAt originSlot synced ∧ Plan p start
  fetch : ∀ p start reads f, honest .scanning reads → Plan p start → k.fetch p reads = some f →
    Fetched f start
  batch : ∀ f start reads b, honest .posting reads → Fetched f start → k.batch f reads = some b →
    b.start = start ∧ k.last f = some b.last ∧ b.Honest truth reach
  next : ∀ f start p, Fetched f start → k.next f = some p →
    ∃ last, k.last f = some last ∧ Plan p (last + 1)
  settle : ∀ m f start last, Memory m → Fetched f start → k.last f = some last →
    Memory (k.settle m f)

/-! ### Runs of honest writers -/

section Runs

variable {originSlot : Nat} {truth : Option Cid → Nat → List VersionedHash → Prop}
variable {reach : Nat → Prop} {honest : (i : ι) → Errand → (kind i).Reads → Prop}

def System.Quiet (s : System kind) : Prop :=
  (∀ i, (s.writers i).stage = .idle ∧ (s.writers i).ahead = .none) ∧ s.posted = []

/-- What the outside may do: it answers reads honestly, rewinds a quiet head only, and a new
manifest agrees with the one before about what is covered. -/
def System.Fair (originSlot : Nat) (truth : Option Cid → Nat → List VersionedHash → Prop)
    (honest : (i : ι) → Errand → (kind i).Reads → Prop) (s : System kind) : Event kind → Prop
  | .plan i reads => honest i .planning reads
  | .fetch i reads | .fetchAhead i reads => honest i .scanning reads
  | .post i reads => honest i .posting reads
  | .truncate _ => s.Quiet
  | .setManifest tip => ∀ slot, s.log.Covers originSlot slot →
      truth s.tip slot (s.log.hashes slot) → truth (some tip) slot (s.log.hashes slot)
  | _ => True

section Working

variable {k : Kind} {reads : Errand → k.Reads → Prop}
variable (contract : Contract k originSlot truth reach reads)

def Contract.StageSound (resume : Nat) : Stage k → Prop
  | .idle => True
  | .planned p => ∃ start, start ≤ resume ∧ contract.Plan p start
  | .fetched f | .sent f _ => ∃ start, start ≤ resume ∧ contract.Fetched f start

/-- Where the work ahead may begin: right after the batch in hand, or within `resume` once
that one is acknowledged. -/
def Follows (resume start : Nat) : Stage k → Prop
  | .idle => start ≤ resume
  | .planned _ => False
  | .fetched f | .sent f _ => ∃ last, k.last f = some last ∧ start ≤ last + 1

def Contract.AheadSound (resume : Nat) (stage : Stage k) : Lookahead k → Prop
  | .none => True
  | .planned p => ∃ start, contract.Plan p start ∧ Follows resume start stage
  | .fetched f => ∃ start, contract.Fetched f start ∧ Follows resume start stage

structure Contract.Working (resume : Nat) (writer : Writer k) : Prop where
  memory : contract.Memory writer.memory
  stage : contract.StageSound resume writer.stage
  ahead : contract.AheadSound resume writer.stage writer.ahead

variable {contract} {resume resume' : Nat} {writer : Writer k}

theorem Follows.mono {start : Nat} {stage : Stage k} (follows : Follows resume start stage)
    (grows : resume ≤ resume') : Follows resume' start stage := by
  cases stage with
  | idle => exact Nat.le_trans follows grows
  | planned | fetched | sent => exact follows

theorem Contract.Working.mono (working : contract.Working resume writer)
    (grows : resume ≤ resume') : contract.Working resume' writer where
  memory := working.memory
  stage := by
    have sound := working.stage
    cases stage : writer.stage with
    | idle => trivial
    | planned | fetched | sent =>
      rw [stage] at sound
      obtain ⟨start, le, good⟩ := sound
      exact ⟨start, Nat.le_trans le grows, good⟩
  ahead := by
    have sound := working.ahead
    cases ahead : writer.ahead with
    | none => trivial
    | planned | fetched =>
      rw [ahead] at sound
      obtain ⟨start, good, follows⟩ := sound
      exact ⟨start, good, follows.mono grows⟩

theorem Contract.Working.drop (working : contract.Working resume writer) :
    contract.Working resume' writer.drop :=
  ⟨working.memory, trivial, trivial⟩

theorem Contract.working_fresh : contract.Working resume (Writer.fresh k) :=
  ⟨contract.fresh, trivial, trivial⟩

end Working

variable (contracts : (i : ι) → Contract (kind i) originSlot truth reach (honest i))

structure Awaits (s : System kind) (originSlot : Nat) (i : ι) (f : (kind i).Fetched)
    (request : Nat) : Prop where
  issued : request < s.requests
  some_last : ∃ last, (kind i).last f = some last
  same : ∀ b, (request, b) ∈ s.posted → (kind i).last f = some b.last
  covered : request ∈ s.answered → ∀ last, (kind i).last f = some last →
    last < s.log.resume originSlot

structure System.Sound (s : System kind) : Prop where
  records : s.log.Records originSlot (truth s.tip)
  bare : s.log.Bare
  within : ∀ synced, s.log.synced = some synced → ∃ far, synced ≤ far ∧ reach far
  posted : ∀ request b, (request, b) ∈ s.posted →
    request < s.requests ∧ b.Honest truth reach ∧ b.start ≤ s.log.resume originSlot
  answered : ∀ request ∈ s.answered, request < s.requests
  working : ∀ i, (contracts i).Working (s.log.resume originSlot) (s.writers i)
  awaits : ∀ i f request, (s.writers i).stage = .sent f request → Awaits s originSlot i f request

omit [DecidableEq ι] in
theorem System.sound_fresh (tip : Option Cid) : (System.fresh kind tip).Sound contracts where
  records := Log.records_empty
  bare := Log.bare_empty
  within synced none := by cases none
  posted request b member := by cases member
  answered request member := by cases member
  working i := Contract.working_fresh
  awaits i f request stage := by cases stage

variable {contracts} {s s' : System kind}

variable {i : ι} {request : Nat} {b : Batch}

theorem System.Sound.update (sound : s.Sound contracts) {writer : Writer (kind i)}
    (working : (contracts i).Working (s.log.resume originSlot) writer)
    (awaits : ∀ f request, writer.stage = .sent f request → Awaits s originSlot i f request) :
    (s.update i writer).Sound contracts where
  records := sound.records
  bare := sound.bare
  within := sound.within
  posted := sound.posted
  answered := sound.answered
  working j := by
    by_cases same : j = i
    · subst same
      simpa [System.update] using working
    · simpa [System.update, same] using sound.working j
  awaits j f request stage := by
    by_cases same : j = i
    · subst same
      have own := awaits f request (by simpa [System.update] using stage)
      exact ⟨own.issued, own.some_last, own.same, own.covered⟩
    · have other := sound.awaits j f request (by simpa [System.update, same] using stage)
      exact ⟨other.issued, other.some_last, other.same, other.covered⟩

theorem ofPlan_ne_sent {k : Kind} (plan : Option k.Plan) (f : k.Fetched) (request : Nat) :
    Stage.ofPlan plan ≠ .sent f request := by
  cases plan <;> exact fun same => by cases same

theorem System.Sound.plan (sound : s.Sound contracts) {reads : (kind i).Reads}
    (fair : honest i .planning reads) (taken : s.step originSlot (.plan i reads) = some s') :
    s'.Sound contracts := by
  simp only [System.step] at taken
  split at taken
  · cases taken
    obtain ⟨memory, good⟩ := (contracts i).plan _ s.log.synced reads fair (sound.working i).memory
    refine sound.update ⟨memory, ?_, trivial⟩ fun f request waits => ?_
    · rcases plan : ((kind i).plan (s.writers i).memory s.log.synced reads).2 with _ | p
      · trivial
      · exact good p plan
    · exact absurd waits (ofPlan_ne_sent _ f request)
  · cases taken

theorem System.Sound.fetch (sound : s.Sound contracts) {reads : (kind i).Reads}
    (fair : honest i .scanning reads) (taken : s.step originSlot (.fetch i reads) = some s') :
    s'.Sound contracts := by
  simp only [System.step] at taken
  split at taken
  · rename_i p stage
    obtain ⟨f, fetched, rfl⟩ := Option.map_eq_some_iff.mp taken
    have working := sound.working i
    have planned := working.stage
    rw [stage] at planned
    obtain ⟨start, le, good⟩ := planned
    refine sound.update ⟨working.memory, ⟨start, le, ?_⟩, ?_⟩ fun f request waits => by cases waits
    · exact (contracts i).fetch p start reads f fair good fetched
    · -- a writer that has a range planned has nothing ahead
      have ahead := working.ahead
      rw [stage] at ahead
      cases slot : (s.writers i).ahead with
      | none => trivial
      | planned | fetched =>
        rw [slot] at ahead
        exact ahead.choose_spec.2.elim
  · cases taken

theorem System.Sound.prefetch (sound : s.Sound contracts)
    (taken : s.step originSlot (.prefetch i) = some s') : s'.Sound contracts := by
  simp only [System.step] at taken
  split at taken
  · rename_i f stage noAhead
    obtain ⟨p, next, rfl⟩ := Option.map_eq_some_iff.mp taken
    have working := sound.working i
    have inHand := working.stage
    rw [stage] at inHand
    obtain ⟨start, le, good⟩ := inHand
    obtain ⟨last, isLast, follows⟩ := (contracts i).next f start p good next
    refine sound.update ⟨working.memory, working.stage, last + 1, follows, ?_⟩
      fun g request waits => ?_
    · simp only [stage]
      exact ⟨last, isLast, Nat.le_refl _⟩
    · rw [stage] at waits
      cases waits
  · cases taken

theorem System.Sound.fetchAhead (sound : s.Sound contracts) {reads : (kind i).Reads}
    (fair : honest i .scanning reads) (taken : s.step originSlot (.fetchAhead i reads) = some s') :
    s'.Sound contracts := by
  simp only [System.step] at taken
  split at taken
  · rename_i p slot
    obtain ⟨f, fetched, rfl⟩ := Option.map_eq_some_iff.mp taken
    have working := sound.working i
    have planned := working.ahead
    rw [slot] at planned
    obtain ⟨start, good, follows⟩ := planned
    have kept := (contracts i).fetch p start reads f fair good fetched
    exact sound.update ⟨working.memory, working.stage, start, kept, follows⟩
      fun g request waits => sound.awaits i g request waits
  · cases taken

theorem System.Sound.await (sound : s.Sound contracts)
    (taken : s.step originSlot (.await i) = some s') : s'.Sound contracts := by
  simp only [System.step] at taken
  split at taken
  · rename_i f stage slot
    cases taken
    have working := sound.working i
    have ready := working.ahead
    rw [stage, slot] at ready
    obtain ⟨start, good, le⟩ := ready
    exact sound.update ⟨working.memory, ⟨start, le, good⟩, trivial⟩ fun g request waits => by
      cases waits
  · cases taken

theorem System.Sound.post (sound : s.Sound contracts) {reads : (kind i).Reads}
    (fair : honest i .posting reads) (taken : s.step originSlot (.post i reads) = some s') :
    s'.Sound contracts := by
  simp only [System.step] at taken
  split at taken
  · rename_i f stage
    obtain ⟨b, isBatch, rfl⟩ := Option.map_eq_some_iff.mp taken
    have working := sound.working i
    have inHand := working.stage
    rw [stage] at inHand
    obtain ⟨start, le, good⟩ := inHand
    obtain ⟨isStart, isLast, tells⟩ := (contracts i).batch f start reads b fair good isBatch
    have sent : (contracts i).Working (s.log.resume originSlot)
        { s.writers i with stage := .sent f s.requests } := by
      refine ⟨working.memory, ⟨start, le, good⟩, ?_⟩
      have ahead := working.ahead
      rw [stage] at ahead
      exact ahead
    refine ⟨sound.records, sound.bare, sound.within, ?_, ?_, ?_, ?_⟩
    · intro request c member
      rcases List.mem_cons.mp member with same | old
      · cases same
        exact ⟨Nat.lt_succ_self _, tells, isStart ▸ le⟩
      · obtain ⟨issued, rest⟩ := sound.posted request c old
        exact ⟨Nat.lt_succ_of_lt issued, rest⟩
    · exact fun request member => Nat.lt_succ_of_lt (sound.answered request member)
    · intro j
      by_cases same : j = i
      · subst same
        simpa [System.update] using sent
      · simpa [System.update, same] using sound.working j
    · intro j g request waits
      by_cases same : j = i
      · subst same
        -- the request is new, so nothing was posted or answered under its number
        have isSent : Stage.sent f s.requests = Stage.sent g request := by
          simpa [System.update] using waits
        cases isSent
        refine ⟨Nat.lt_succ_self _, ⟨b.last, isLast⟩, fun c member => ?_, fun answered => ?_⟩
        · rcases List.mem_cons.mp member with new | old
          · cases new
            exact isLast
          · exact absurd (sound.posted _ c old).1 (Nat.lt_irrefl _)
        · exact absurd (sound.answered _ answered) (Nat.lt_irrefl _)
      · have other := sound.awaits j g request (by simpa [System.update, same] using waits)
        refine ⟨Nat.lt_succ_of_lt other.issued, other.some_last, fun c member => ?_, other.covered⟩
        rcases List.mem_cons.mp member with new | old
        · cases new
          exact absurd other.issued (Nat.lt_irrefl _)
        · exact other.same c old
  · cases taken

theorem System.Sound.acknowledge (sound : s.Sound contracts)
    (taken : s.step originSlot (.acknowledge i) = some s') : s'.Sound contracts := by
  simp only [System.step] at taken
  split at taken
  · rename_i f request stage
    split at taken
    · rename_i answered
      cases taken
      have working := sound.working i
      have inHand := working.stage
      rw [stage] at inHand
      obtain ⟨start, le, good⟩ := inHand
      have awaited := sound.awaits i f request stage
      obtain ⟨last, isLast⟩ := awaited.some_last
      have covered := awaited.covered answered last isLast
      have memory := (contracts i).settle _ f start last working.memory good isLast
      refine sound.update ⟨memory, trivial, ?_⟩ fun g n waits => by cases waits
      -- what was fetched ahead begins where the acknowledged batch ended
      have ahead := working.ahead
      rw [stage] at ahead
      cases slot : (s.writers i).ahead with
      | none => trivial
      | planned | fetched =>
        rw [slot] at ahead
        obtain ⟨next, kept, other, isOther, le⟩ := ahead
        obtain rfl : last = other := Option.some.inj (isLast.symm.trans isOther)
        exact ⟨next, kept, Nat.le_trans le covered⟩
    · cases taken
  · cases taken

theorem binding_ok {tip expected : Option Cid} {u : Unit}
    (ok : checkManifestBinding tip expected = .ok u) : tip = expected := by
  unfold checkManifestBinding at ok
  split at ok
  · cases ok
  · cases ok
  · split at ok
    · rename_i same
      rw [same]
    · cases ok
  · rfl

omit [DecidableEq ι] in
theorem receive_accepted (received : s.receive originSlot request b = some s') :
    s.tip = b.expectedManifest ∧ ∃ log, Log.Accepted originSlot s.log b.rows b.last log ∧
      s' = { s with log, answered := request :: s.answered } := by
  unfold System.receive at received
  split at received
  · cases received
  · rename_i bound
    obtain ⟨log, applied, rfl⟩ := Option.map_eq_some_iff.mp received
    exact ⟨binding_ok bound, log, applyRefs_accepted applied, rfl⟩

theorem System.Sound.deliver (sound : s.Sound contracts)
    (taken : s.step originSlot (.deliver request b) = some s') : s'.Sound contracts := by
  simp only [System.step] at taken
  split at taken
  · rename_i member
    obtain ⟨issued, tells, reaches⟩ := sound.posted request b member
    obtain ⟨bound, log, accepted, rfl⟩ := receive_accepted taken
    have grows := accepted.resume_le
    refine ⟨?_, accepted.bare sound.bare, ?_, ?_, ?_, ?_, ?_⟩
    · exact accepted.records sound.bare (bound ▸ tells.tells) reaches sound.records
    · intro synced covered
      rcases accepted.reaches reaches covered with old | ⟨same, scanned⟩
      · exact sound.within synced old
      · exact ⟨synced, Nat.le_refl _, same ▸ tells.reaches scanned⟩
    · intro n c posted
      obtain ⟨issued, honest, le⟩ := sound.posted n c posted
      exact ⟨issued, honest, Nat.le_trans le grows⟩
    · intro n answered
      rcases List.mem_cons.mp answered with same | old
      · exact same ▸ issued
      · exact sound.answered n old
    · exact fun i => (sound.working i).mono grows
    · intro i f n waits
      have awaited := sound.awaits i f n waits
      refine ⟨awaited.issued, awaited.some_last, awaited.same, fun answered last isLast => ?_⟩
      rcases List.mem_cons.mp answered with same | old
      · have own := awaited.same b (same ▸ member)
        obtain rfl : b.last = last := Option.some.inj (own.symm.trans isLast)
        exact accepted.last_lt
      · exact Nat.lt_of_lt_of_le (awaited.covered old last isLast) grows
  · cases taken

theorem System.Sound.expire (sound : s.Sound contracts)
    (taken : s.step originSlot (.expire request) = some s') : s'.Sound contracts := by
  cases taken
  refine { sound with
    posted := fun n b member => sound.posted n b (List.mem_of_mem_filter member)
    awaits := fun i f n waits => ?_ }
  have awaited := sound.awaits i f n waits
  exact { awaited with same := fun b member => awaited.same b (List.mem_of_mem_filter member) }

theorem System.Sound.truncate (sound : s.Sound contracts) {slot : Nat} (quiet : s.Quiet)
    (taken : s.step originSlot (.truncate slot) = some s') : s'.Sound contracts := by
  simp only [System.step, System.rewind] at taken
  split at taken
  · cases taken
  · rename_i synced covered
    split at taken
    · rename_i inside
      cases taken
      refine ⟨sound.records.cut ⟨synced, covered, inside.2⟩, Log.bare_cut _ _, ?_, ?_,
        sound.answered, ?_, ?_⟩
      · rintro _ ⟨⟩
        obtain ⟨far, le, reached⟩ := sound.within synced covered
        exact ⟨far, Nat.le_trans inside.2 le, reached⟩
      · intro n b member
        rw [quiet.2] at member
        cases member
      · intro i
        obtain ⟨idle, noAhead⟩ := quiet.1 i
        refine ⟨(sound.working i).memory, ?_, ?_⟩
        · rw [idle]
          trivial
        · rw [noAhead]
          trivial
      · intro i f n waits
        rw [(quiet.1 i).1] at waits
        cases waits
    · cases taken

theorem System.Sound.setManifest (sound : s.Sound contracts) {tip : Cid}
    (agrees : ∀ slot, s.log.Covers originSlot slot →
      truth s.tip slot (s.log.hashes slot) → truth (some tip) slot (s.log.hashes slot))
    (taken : s.step originSlot (.setManifest tip) = some s') : s'.Sound contracts := by
  cases taken
  exact { sound with
    records := fun slot covers => agrees slot covers (sound.records slot covers)
    awaits := fun i f n waits => { sound.awaits i f n waits with } }

theorem System.Sound.step (sound : s.Sound contracts) {e : Event kind}
    (fair : s.Fair originSlot truth honest e) (taken : s.step originSlot e = some s') :
    s'.Sound contracts := by
  cases e with
  | plan i reads => exact sound.plan fair taken
  | fetch i reads => exact sound.fetch fair taken
  | prefetch i => exact sound.prefetch taken
  | fetchAhead i reads => exact sound.fetchAhead fair taken
  | await i => exact sound.await taken
  | post i reads => exact sound.post fair taken
  | acknowledge i => exact sound.acknowledge taken
  | giveUp i =>
    cases taken
    exact sound.update (sound.working i).drop fun f n waits => by cases waits
  | restart i =>
    cases taken
    exact sound.update Contract.working_fresh fun f n waits => by cases waits
  | deliver request b => exact sound.deliver taken
  | expire request => exact sound.expire taken
  | truncate slot => exact sound.truncate fair taken
  | setManifest tip => exact sound.setManifest fair taken

/-- Whatever honest writers do together, the head holds the truth of its tip. -/
theorem System.Reaches.sound {start : System kind}
    (reached : System.Reaches originSlot (System.Fair originSlot truth honest) start s)
    (sound : start.Sound contracts) : s.Sound contracts := by
  induction reached with
  | refl => exact sound
  | step before met taken ih => exact ih.step met taken

/-! ### Recorded slots -/

variable {slot : Nat}

theorem Log.Accepted.stands {log log' : Log} (accepted : log.Accepted originSlot b.rows b.last log')
    (covers : log.Covers originSlot slot) :
    log'.Covers originSlot slot ∧ log'.hashes slot = log.hashes slot := by
  cases accepted with
  | replay => exact ⟨covers, rfl⟩
  | advance shaped past =>
    refine ⟨?_, hashes_extend_of_covered past covers⟩
    obtain ⟨origin, t, synced, le⟩ := covers
    exact ⟨origin, _, rfl, Nat.le_trans le (past t synced).1.le⟩

theorem System.step_stands {e : Event kind} (taken : s.step originSlot e = some s')
    (covers : s.log.Covers originSlot slot) (spared : ∀ cut, e = .truncate cut → slot ≤ cut) :
    s'.log.Covers originSlot slot ∧ s'.log.hashes slot = s.log.hashes slot := by
  by_cases apart : e.reachesHead
  · cases e with
    | deliver request b =>
      simp only [System.step] at taken
      split at taken
      · obtain ⟨-, log, accepted, rfl⟩ := receive_accepted taken
        exact accepted.stands covers
      · cases taken
    | truncate cut =>
      have le := spared cut rfl
      simp only [System.step, System.rewind] at taken
      split at taken
      · cases taken
      · split at taken
        · cases taken
          exact ⟨⟨covers.1, cut, rfl, le⟩, if_pos le⟩
        · cases taken
    | setManifest tip => cases taken; exact ⟨covers, rfl⟩
    | _ => exact apart.elim
  · rw [(System.step_log apart taken).1]
    exact ⟨covers, rfl⟩

end Runs

end Bloar.Indexing
