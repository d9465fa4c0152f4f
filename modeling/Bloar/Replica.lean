import Bloar.Fallible
import Bloar.Ipld

/-!
The retention controller of a standalone replica (`replica/generation.go`,
`replica/state.go`, `replica/controller.go`). One pinned anchor block in Kubo names
every head of a generation. The controller keeps its own ledger of the anchors it
holds, and every RPC and every ledger write may fail or stop the process, before or
after it took effect. Times are in seconds.
-/

namespace Bloar.Replica
open Ipld Fallible

/-! ### Generations -/

structure Head where
  name : String
  root : Link
  manifest : Link
  syncedTo : Nat
  deriving DecidableEq, Repr

structure Generation where
  replicaID : String
  updatedAt : Int
  heads : List Head
  deriving DecidableEq, Repr

def generationVersion : Int := 1
def maxReplicaIDBytes : Nat := 64
def maxHeadNameBytes : Nat := 128
def maxGenerationHeads : Nat := 64

def isReplicaEdge (c : Char) : Bool := c.isLower || c.isDigit

def isReplicaInner (c : Char) : Bool := isReplicaEdge c || c == '.' || c == '_' || c == '-'

/-- `^[a-z0-9](?:[a-z0-9._-]{0,62}[a-z0-9])?$`, which leaves no room for surrounding
whitespace. -/
def replicaIDPattern : List Char → Bool
  | [] => false
  | [only] => isReplicaEdge only
  | first :: second :: rest =>
    let inner := (second :: rest).dropLast
    isReplicaEdge first && decide (inner.length ≤ 62) && inner.all isReplicaInner &&
      ((second :: rest).getLast?.any isReplicaEdge)

def refuse (holds : Prop) [Decidable holds] (text : String) : Except String Unit :=
  if holds then .error text else .ok ()

def validateReplicaID (value : String) : Except String Unit :=
  refuse (value.utf8ByteSize > maxReplicaIDBytes ∨ replicaIDPattern value.toList = false)
    "replica: replica ID must be 1-64 lowercase ASCII letters, digits, '.', '_' or '-'"

def checkHead (previous : Option String) (h : Head) : Except String Unit := do
  refuse (h.name = "" ∨ h.name.utf8ByteSize > maxHeadNameBytes ∨ '\x00' ∈ h.name.toList)
    "replica: head name must be 1-128 bytes and contain no NUL"
  refuse (previous = some h.name) "replica: generation repeats head"
  refuse (h.root = none) "replica: head has an undefined root"
  refuse (h.syncedTo > 2 ^ 63 - 1) "replica: head synced_to exceeds DAG-CBOR's integer range"

def checkHeads : Option String → List Head → Except String Unit
  | _, [] => .ok ()
  | previous, h :: rest => do
      checkHead previous h
      checkHeads (some h.name) rest

def Generation.normalize (g : Generation) : Except String Generation := do
  validateReplicaID g.replicaID
  refuse (g.updatedAt < 0) "replica: generation updated_at must be on or after the Unix epoch"
  refuse (g.heads.length > maxGenerationHeads) "replica: generation must contain at most 64 heads"
  let heads := g.heads.mergeSort fun a b => !decide (b.name < a.name)
  checkHeads none heads
  pure { g with heads }

def linkField (key : String) : Link → List (String × Node)
  | none => []
  | some c => [(key, .link c)]

def headNode (h : Head) : Node :=
  .map ([("name", .string h.name)] ++ linkField "root" h.root ++
    linkField "manifest" h.manifest ++ [("synced_to", .int h.syncedTo)])

def generationNode (g : Generation) : Node :=
  .map [("v", .int generationVersion), ("heads", .list (g.heads.map headNode)),
    ("replica", .string g.replicaID), ("updated_at", .int g.updatedAt)]

def Generation.equal (g other : Generation) : Bool :=
  match g.normalize, other.normalize with
  | .ok a, .ok b => decide (a = b)
  | _, _ => false

/-! ### The ledger -/

inductive Ownership where
  | owned
  | borrowed
  deriving DecidableEq, Repr

structure Retained where
  generation : Generation
  anchor : Cid
  ownership : Ownership
  retainedAt : Int
  deriving DecidableEq, Repr

structure ControllerState where
  current : Option Retained
  pending : Option Retained
  cleanup : List Retained
  deriving DecidableEq, Repr

def ControllerState.empty : ControllerState := { current := none, pending := none, cleanup := [] }

def anchors (cleanup : List Retained) : List Cid := cleanup.map Retained.anchor

def stateRetained (state : ControllerState) : List Retained :=
  state.cleanup ++ state.current.toList ++ state.pending.toList

/-- The bookkeeping of one `check` of `validateControllerState`. -/
def checkAnchor (seen : List Cid) (r : Retained) : Except String (List Cid) :=
  if r.anchor ∈ seen then .error "replica: controller state repeats anchor"
  else .ok (r.anchor :: seen)

def checkSlot (seen : List Cid) : Option Retained → Except String (List Cid)
  | none => .ok seen
  | some r => checkAnchor seen r

def checkCleanup : List Cid → List Retained → Except String Unit
  | _, [] => .ok ()
  | seen, r :: rest => do
      refuse (r.ownership ≠ .owned) "replica: cleanup generation has non-owned ownership"
      let seen ← checkAnchor seen r
      checkCleanup seen rest

def validateControllerState (state : ControllerState) : Except String Unit := do
  let seen ← checkSlot [] state.current
  let seen ← checkSlot seen state.pending
  checkCleanup seen state.cleanup

def appendCleanup (cleanup : List Retained) (candidate : Retained) : List Retained :=
  if candidate.anchor ∈ anchors cleanup then cleanup else cleanup ++ [candidate]

def cleanupContains (cleanup : List Retained) (anchor : Cid) : Bool :=
  cleanup.any fun r => r.anchor == anchor

def removeCleanup (cleanup : List Retained) (anchor : Cid) : List Retained :=
  cleanup.filter fun r => r.anchor != anchor

def retainedByAnchor (state : ControllerState) (anchor : Cid) : Option Retained :=
  (state.current.toList ++ state.pending.toList ++ state.cleanup).find? fun r =>
    r.anchor == anchor

/-! ### The outside world -/

structure PinStatus where
  recursive : Bool
  name : String
  deriving DecidableEq, Repr

inductive Outcome where
  | ok
  | failBefore
  | failAfter
  | crashBefore
  | crashAfter
  deriving DecidableEq, Repr

/-- An error value of the source, with the CIDs it prints left out. -/
inductive Err where
  | text (message : String)
  | ownershipDrift (message : String)
  | generationUnprotected (message : String)
  | joined (primary : Err) (debts : List Err)

/-- Why a call did not return: it returned an error, or the process is gone. -/
inductive Stop where
  | failed (e : Err)
  | crashed

/-- The durable ledger and Kubo's pins, with what the next calls will meet. Calls
past the end of the script succeed. -/
structure World where
  kv : Option ControllerState
  pins : List (Cid × PinStatus)
  script : List Outcome
  deriving DecidableEq

def World.ledger (w : World) : ControllerState := w.kv.getD .empty

def World.status (w : World) (c : Cid) : Option PinStatus := w.pins.lookup c

def World.pin (w : World) (c : Cid) (status : PinStatus) : World :=
  { w with pins := (c, status) :: w.pins.filter fun pin => pin.1 != c }

def World.unpin (w : World) (c : Cid) : World :=
  { w with pins := w.pins.filter fun pin => pin.1 != c }

def World.draw (w : World) : Outcome × World :=
  match w.script with
  | [] => (.ok, w)
  | next :: rest => (next, { w with script := rest })

def rpc {α : Type} (act : World → α × World) : Prog World Stop α := fun w =>
  match w.draw with
  | (.ok, w) => (.ok (act w).1, (act w).2)
  | (.failBefore, w) => (.error (.failed (.text "rpc failed")), w)
  | (.failAfter, w) => (.error (.failed (.text "rpc failed")), (act w).2)
  | (.crashBefore, w) => (.error .crashed, w)
  | (.crashAfter, w) => (.error .crashed, (act w).2)

/-- The error of a call as a value, as Go returns it. A crash stays a crash. -/
def observe {α : Type} (x : Prog World Stop α) : Prog World Stop (Except Err α) := fun w =>
  match x w with
  | (.ok value, after) => (.ok (.ok value), after)
  | (.error (.failed e), after) => (.ok (.error e), after)
  | (.error .crashed, after) => (.error .crashed, after)

def checked {α : Type} : Except String α → Prog World Stop α
  | .ok value => pure value
  | .error text => fail (.failed (.text text))

/-! ### The backend -/

def putBlock (_ : Block) : Prog World Stop Unit := rpc fun w => ((), w)

def pinStatus (c : Cid) : Prog World Stop (Option PinStatus) := rpc fun w => (w.status c, w)

def namedRecursivePins (name : String) : Prog World Stop (List Cid) := rpc fun w =>
  ((w.pins.filter fun pin => pin.2.recursive && pin.2.name == name).map Prod.fst, w)

def pinAddRecursive (c : Cid) (name : String) : Prog World Stop Unit :=
  rpc fun w => ((), w.pin c { recursive := true, name })

/-- `PinUpdateRecursive(old, next, unpin = false)`: the new pin takes the name of the old
one, which Kubo requires to be recursive and leaves in place. -/
def pinUpdateRecursive (old next : Cid) : Prog World Stop Unit := do
  let found ← rpc fun w =>
    match w.status old with
    | some status => if status.recursive then (true, w.pin next status) else (false, w)
    | none => (false, w)
  Fallible.guard found (.failed (.text "pin update: the old pin is not recursive"))

def pinRemoveRecursive (c : Cid) : Prog World Stop Unit := rpc fun w => ((), w.unpin c)

/-! ### The controller -/

/-- The configuration of a controller. `stateBytes` is the length of the ledger's
JSON encoding. -/
structure Controller where
  ipld : Codec
  replicaID : String
  pinName : String
  stateBytes : ControllerState → Nat

def maxStateBytes : Nat := 256 * 1024

def maxCleanup : Nat := maxGenerationHeads + 1

variable (c : Controller)

def Controller.anchorBlock (g : Generation) : Block := c.ipld.encode (generationNode g)

def Controller.anchor (g : Generation) : Cid := c.ipld.nodeCID (c.anchorBlock g)

def Controller.candidate (g : Generation) : Except String Generation :=
  { g with replicaID := c.replicaID }.normalize

/-- The checks of `retainedToDisk`. -/
def Controller.retainedToDisk (r : Retained) : Except String Unit := do
  let normalized ← r.generation.normalize
  refuse (r.anchor ≠ c.anchor normalized)
    "replica: retained generation anchor does not match its canonical generation"
  refuse (r.retainedAt < 0)
    "replica: retained generation timestamp must be on or after the Unix epoch"

def Controller.allToDisk : List Retained → Except String Unit
  | [] => .ok ()
  | r :: rest => do
      c.retainedToDisk r
      allToDisk rest

def Controller.saveControllerState (state : ControllerState) : Prog World Stop Unit := do
  checked (validateControllerState state)
  checked (c.allToDisk (state.current.toList ++ state.pending.toList))
  checked (refuse (state.cleanup.length > maxCleanup)
    "replica: refusing to persist cleanup anchors over the maximum")
  checked (c.allToDisk state.cleanup)
  checked (refuse (c.stateBytes state > maxStateBytes)
    "replica: encoded controller state is over the limit")
  rpc fun w => ((), { w with kv := some state })

/-- `loadState`. What is stored was written by `saveControllerState`, so decoding it back
can fail only on the checks that are repeated here. -/
def Controller.loadState : Prog World Stop ControllerState := do
  let w ← get
  checked (validateControllerState w.ledger)
  checked (refuse (∃ r ∈ stateRetained w.ledger, r.generation.replicaID ≠ c.replicaID)
    "replica: controller state belongs to another replica")
  pure w.ledger

def Controller.pinnedAs (ownership : Ownership) : Option PinStatus → Except Err Unit
  | none => .error (.generationUnprotected "anchor")
  | some status =>
    if !status.recursive then .error (.generationUnprotected "anchor")
    else if ownership = .owned ∧ status.name ≠ c.pinName then
      .error (.ownershipDrift "owned anchor pin name")
    else .ok ()

def returned {α : Type} : Except Err α → Prog World Stop α
  | .ok value => pure value
  | .error e => fail (.failed e)

def Controller.requirePinned (r : Retained) : Prog World Stop Unit := do
  let status ← pinStatus r.anchor
  returned (c.pinnedAs r.ownership status)

def Controller.cleanupOne (stale : Retained) : Prog World Stop (List Retained × List Err) := do
  match ← observe (pinStatus stale.anchor) with
  | .error e => pure ([stale], [e])
  | .ok none => pure ([], [])
  | .ok (some status) =>
    -- a renamed pin is no longer demonstrably ours and is abandoned
    if !status.recursive || status.name != c.pinName then pure ([], [])
    else match ← observe (pinRemoveRecursive stale.anchor) with
      | .error e => pure ([stale], [e])
      | .ok _ => pure ([], [])

def Controller.cleanupEach : List Retained → Prog World Stop (List Retained × List Err)
  | [] => pure ([], [])
  | stale :: rest => do
      let one ← c.cleanupOne stale
      let more ← cleanupEach rest
      pure (one.1 ++ more.1, one.2 ++ more.2)

/-- `cleanupLocked`: the state it leaves in memory and the errors it collected. -/
def Controller.cleanupLocked (state : ControllerState) :
    Prog World Stop (ControllerState × List Err) :=
  if state.cleanup = [] then pure (state, [])
  else do
    let swept ← c.cleanupEach state.cleanup
    let left := { state with cleanup := swept.1 }
    match ← observe (c.saveControllerState left) with
    | .error e => pure (left, swept.2 ++ [e])
    | .ok _ => pure (left, swept.2)

def Controller.transitionFailure {α : Type} (state : ControllerState) (primary : Err) :
    Prog World Stop α := do
  let cleaned ← c.cleanupLocked state
  fail (.failed (if cleaned.2.isEmpty then primary else .joined primary cleaned.2))

def Controller.dropPending (state : ControllerState) (current : Retained) :
    Prog World Stop (List Err) := do
  match state.pending with
  | some pending =>
    if pending.anchor ≠ current.anchor then
      let cleanup := if pending.ownership = .owned then appendCleanup state.cleanup pending
        else state.cleanup
      let state := { state with cleanup, pending := none }
      c.saveControllerState state
      let cleaned ← c.cleanupLocked state
      pure cleaned.2
    else
      let cleaned ← c.cleanupLocked state
      pure cleaned.2
  | none =>
    let cleaned ← c.cleanupLocked state
    pure cleaned.2

/-- The branch of `Prepare` for the generation that is already current. -/
def Controller.prepareCurrent (state : ControllerState) (current : Retained) :
    Prog World Stop (List Err) := do
  c.requirePinned current
  c.dropPending state current

def Controller.claim (known : Option Retained) : Option PinStatus → Except Err Ownership
  | none =>
    match known with
    | some { ownership := .borrowed, .. } =>
      .error (.ownershipDrift "borrowed candidate anchor disappeared")
    | some { ownership := .owned, .. } => .ok .owned
    | none => .ok .owned
  | some status =>
    if !status.recursive then
      .error (.ownershipDrift "candidate anchor is already pinned non-recursively")
    else match known with
      | some { ownership := .owned, .. } =>
        if status.name ≠ c.pinName then
          .error (.ownershipDrift "known owned candidate anchor pin name")
        else .ok .owned
      | some { ownership := .borrowed, .. } => .ok .borrowed
      | none =>
        if status.name = c.pinName then
          .error (.ownershipDrift "candidate anchor uses reserved pin name")
        else .ok .borrowed

def superseded (state : ControllerState) (anchor : Cid) : Option Retained :=
  state.pending.filter fun p => p.anchor != anchor && decide (p.ownership = .owned)

def Controller.retirePending (state : ControllerState) (anchor : Cid) :
    Prog World Stop ControllerState :=
  match superseded state anchor with
  | none => pure state
  | some p => do
      let cleaned ← c.cleanupLocked state
      let state := cleaned.1
      Fallible.guard (state.cleanup.length < maxCleanup)
        (.failed (.text "replica: cleanup debt has reached its limit; refusing another pending generation"))
      pure { state with cleanup := appendCleanup state.cleanup p }

def crowded (state : ControllerState) (anchor : Cid) : Bool :=
  state.current.any fun current =>
    decide (current.ownership = .owned) && current.anchor != anchor &&
      !cleanupContains state.cleanup current.anchor && decide (state.cleanup.length ≥ maxCleanup)

def Controller.reserveSlot (state : ControllerState) (anchor : Cid) (text : String) :
    Prog World Stop ControllerState :=
  if crowded state anchor then do
    let cleaned ← c.cleanupLocked state
    Fallible.guard (cleaned.1.cleanup.length < maxCleanup) (.failed (.text text))
    pure cleaned.1
  else pure state

def Controller.pinCandidate (state : ControllerState) (anchor : Cid) : Prog World Stop Unit := do
  match state.current with
  | some { anchor := old, ownership := .owned, .. } =>
    let status ← pinStatus old
    match c.pinnedAs .owned status with
    | .error _ => fail (.failed (.ownershipDrift "current owned anchor is not the exact named recursive pin"))
    | .ok _ =>
      match ← observe (pinUpdateRecursive old anchor) with
      | .error e => c.transitionFailure state e
      | .ok _ => pure ()
  | _ =>
    match ← observe (pinAddRecursive anchor c.pinName) with
    | .error e => c.transitionFailure state e
    | .ok _ => pure ()

def Controller.verifyCandidate (state : ControllerState) (anchor : Cid) (ownership : Ownership) :
    Prog World Stop Unit := do
  match ← observe (pinStatus anchor) with
  | .error e => c.transitionFailure state e
  | .ok status =>
    match c.pinnedAs ownership status with
    | .error e => c.transitionFailure state e
    | .ok _ => pure ()

/-- The end of `Prepare`, once the state with the candidate as pending is built. A pin that
was found is recursive, or `claim` has refused it. -/
def Controller.pinPending (state : ControllerState) (found : Option PinStatus) (anchor : Cid)
    (ownership : Ownership) : Prog World Stop (List Err) := do
  c.saveControllerState state
  if found.isNone then c.pinCandidate state anchor
  c.verifyCandidate state anchor ownership
  let cleaned ← c.cleanupLocked state
  pure cleaned.2

def Controller.prepareNext (now : Int) (state : ControllerState) (normalized : Generation) :
    Prog World Stop (List Err) := do
  let anchor := c.anchor normalized
  let found ← pinStatus anchor
  let ownership ← returned (c.claim (retainedByAnchor state anchor) found)
  let first := match state.pending with
    | some p => if p.anchor = anchor then p.retainedAt else now
    | none => now
  let pending : Retained := { generation := normalized, anchor, ownership, retainedAt := first }
  let state ← c.retirePending state anchor
  let state ← c.reserveSlot state anchor
    "replica: cleanup debt has reached its limit; refusing a transition"
  c.pinPending
    { state with cleanup := removeCleanup state.cleanup anchor, pending := some pending }
    found anchor ownership

/-- `Controller.Prepare`, returning the safe cleanup debt that its caller only logs. -/
def Controller.prepare (expired : Bool) (now : Int) (g : Generation) :
    Prog World Stop (List Err) := do
  Fallible.guard (!expired) (.failed (.text "context expired"))
  let normalized ← checked (c.candidate g)
  putBlock (c.anchorBlock normalized)
  let state ← c.loadState
  match state.current with
  | some current =>
    if current.anchor = c.anchor normalized then c.prepareCurrent state current
    else c.prepareNext now state normalized
  | none => c.prepareNext now state normalized

def promote (now : Int) (state : ControllerState) (committed : Retained) : ControllerState :=
  { current := some { committed with retainedAt := now }
    pending := none
    cleanup := match state.current with
      | some previous =>
        if previous.anchor ≠ committed.anchor ∧ previous.ownership = .owned then
          appendCleanup state.cleanup previous
        else state.cleanup
      | none => state.cleanup }

def Controller.commit (now : Int) (g : Generation) : Prog World Stop (List Err) := do
  let normalized ← checked (c.candidate g)
  let state ← c.loadState
  let isCandidate := fun r : Retained =>
    decide (r.anchor = c.anchor normalized) && r.generation.equal normalized
  match state.pending.filter isCandidate with
  | none =>
    if state.current.any isCandidate then
      let cleaned ← c.cleanupLocked state
      pure cleaned.2
    else
      fail (.failed (.text
        "replica: committing a generation that is not the durable pending candidate"))
  | some committed =>
    c.requirePinned committed
    let state ← c.reserveSlot state committed.anchor
      "replica: cleanup debt has reached its limit; refusing to commit"
    let state := promote now state committed
    c.saveControllerState state
    let cleaned ← c.cleanupLocked state
    pure cleaned.2

def Controller.recover : Prog World Stop (List Err) := do
  let state ← c.loadState
  let named ← namedRecursivePins c.pinName
  let allowed := (stateRetained state).filter fun r => decide (r.ownership = .owned)
  Fallible.guard (named.all fun anchor => decide (anchor ∈ anchors allowed))
    (.failed (.ownershipDrift "named recursive anchor has no durable ownership record"))
  match state.current with
  | some current => c.requirePinned current
  | none => pure ()
  match state.pending with
  | some pending =>
    let found ← pinStatus pending.anchor
    if found.isSome then c.requirePinned pending
  | none => pure ()
  let cleaned ← c.cleanupLocked state
  pure cleaned.2

def generationProtectsAll (g : Generation) (wants : List Head) : Bool :=
  g.heads.length == wants.length && wants.all fun want =>
    g.heads.any fun head =>
      head.name == want.name && decide (head.root = want.root) && decide (head.manifest = want.manifest)

def Controller.protectsAll (wants : List Head) : Prog World Stop Generation := do
  let state ← c.loadState
  match (state.current.toList ++ state.pending.toList).find? fun r =>
      generationProtectsAll r.generation wants with
  | some r =>
    c.requirePinned r
    pure r.generation
  | none => fail (.failed (.generationUnprotected
      "no single committed or pending anchor contains all checkpoint heads"))

end Bloar.Replica
