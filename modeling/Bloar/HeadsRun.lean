import Bloar.Replace
import Bloar.Triple

/-!
Runs of a node: operations of its registry under the lock, the parts of any number of
`ReplaceGeneration` calls between them, failures of every step, processes that die anywhere and
start again on the same database.
-/

namespace Bloar.Server
open Ipld Archive Indexing
open Fallible

variable {idx : Index} {Source : Type}

inductive Operation (Source : Type) where
  | add (head : Cid)
  | adoptBatch (upserts : List (Adoption Source)) (withdrawals : List String)
  | adoptOne (adoption : Adoption Source)
  | quarantine (name reason : String)
  | applyRefs (name : String) (rows : List RefRow) (syncedTo : Nat) (expectedManifest : Link)
  | truncate (name : String) (slot : Nat)
  | setManifest (name : String) (manifestCID : Cid) (prev : Link) (expectedHeadRoot : Cid)
  | replaceGeneration (name : String) (req : GenerationRequest)

def Operation.run (digest : NormalizedGeneration → String) (keys : Keyring) (env : Env) :
    Operation Source → Op idx Source Unit
  | .add head => Server.add keys env head
  | .adoptBatch upserts withdrawals =>
    Server.adoptBatch keys env upserts withdrawals (persistBatch env upserts)
  | .adoptOne adoption => Server.adoptOne keys env adoption
  | .quarantine name reason => Server.quarantine keys env name reason
  | .applyRefs name rows syncedTo expectedManifest => do
      let _ ← Server.applyRefs keys env name rows syncedTo expectedManifest
  | .truncate name slot => do
      let _ ← Server.truncate keys env name slot
  | .setManifest name manifestCID prev expectedHeadRoot =>
    setHeadManifest keys env name manifestCID prev expectedHeadRoot
  | .replaceGeneration name req => do
      let _ ← Server.replaceGeneration digest keys env name req

inductive Call where
  /-- it has read the record of its own request, and waits for the lock -/
  | retrying (name : String) (n : NormalizedGeneration) (st : GenerationState)
  /-- it has read the record that it expects, and waits for the lock -/
  | starting (name : String) (req : GenerationRequest) (n : NormalizedGeneration) (generation : Nat)
  /-- it has bound the handoff, and builds -/
  | building (name : String) (req : GenerationRequest) (n : NormalizedGeneration)
      (lineage : Option Lineage) (base : Params)
  deriving DecidableEq

/-- A node with its calls; without a process there is only what is durable. -/
structure World (idx : Index) (Source : Type) where
  durable : Durable
  memory : Option (Memory idx Source)
  calls : List Call

inductive Event (Source : Type) where
  /-- `NewHeads` in a new process -/
  | start (cfg : HeadsConfig) (env : Env)
  | crash
  /-- an operation, in which the process may die -/
  | run (op : Operation Source) (env : Env) (dies : Bool)
  /-- a `ReplaceGeneration` call up to its first lock -/
  | replace (name : String) (req : GenerationRequest) (env : Env)
  /-- its first lock -/
  | bind (call : Call)
  /-- its last part -/
  | finish (call : Call) (env : Env) (dies : Bool)

def Env.within (env : Env) (dies : Bool) : Env :=
  { env with fails := fun step => env.fails step && (dies || step != .visible) }

def World.settle (w : World idx Source) (node : Node idx Source) (dies : Bool) : World idx Source :=
  { durable := node.durable
    memory := if dies then none else some node.memory
    calls := if dies then [] else w.calls }

def Call.finish (digest : NormalizedGeneration → String) (keys : Keyring) (env : Env) :
    Call → Option (Op idx Source GenerationResponse)
  | .retrying name n st => some (finishRetry keys env name st n.rows)
  | .starting _ _ _ _ => none
  | .building name req n lineage base => some (replaceFinish digest keys env name req n lineage base)

def Started.call (name : String) (req : GenerationRequest) : Started → Call
  | .retry n st => .retrying name n st
  | .build n generation => .starting name req n generation

/-- A `NewHeads` that fails leaves no process, as one in which the process dies. -/
def World.boot (keys : Keyring) (w : World idx Source) (cfg : HeadsConfig) (env : Env) :
    World idx Source :=
  match newHeads keys env cfg { durable := w.durable, memory := .fresh cfg } with
  | (.ok _, node) => { durable := node.durable, memory := some node.memory, calls := [] }
  | (.error _, node) => { durable := node.durable, memory := none, calls := [] }

def World.step (digest : NormalizedGeneration → String) (keys : Keyring) (w : World idx Source) :
    Event Source → Option (World idx Source)
  | .start cfg env => if w.memory.isNone then some (w.boot keys cfg env) else none
  | .crash => some { w with memory := none, calls := [] }
  | .run op env dies => w.memory.map fun memory =>
    w.settle (op.run digest keys (env.within dies) { durable := w.durable, memory }).2 dies
  | .replace name req env => w.memory.map fun memory =>
    match replaceStart digest (env.within false) name req { durable := w.durable, memory } with
    | (.ok started, _) => { w with calls := started.call name req :: w.calls }
    | (.error _, _) => w
  | .bind call =>
    match call, w.memory with
    | .starting name req n generation, some memory =>
      if call ∈ w.calls then
        match replaceBind name req generation { durable := w.durable, memory } with
        | (.ok (lineage, base), _) =>
          some { w with calls := .building name req n lineage base :: w.calls.erase call }
        | (.error _, _) => some { w with calls := w.calls.erase call }
      else none
    | _, _ => none
  | .finish call env dies =>
    match call.finish digest keys (env.within dies), w.memory with
    | some x, some memory =>
      if call ∈ w.calls then
        some ({ w with calls := w.calls.erase call }.settle
          (x { durable := w.durable, memory }).2 dies)
      else none
    | _, _ => none

/-! ### What an event leaves -/

section Steps

variable {digest : NormalizedGeneration → String} {keys : Keyring} {w w' : World idx Source}

theorem World.step_replace {name : String} {req : GenerationRequest} {env : Env}
    (taken : w.step digest keys (.replace name req env) = some w') :
    w'.durable = w.durable ∧ w'.memory = w.memory := by
  obtain ⟨memory, running, rfl⟩ := Option.map_eq_some_iff.mp taken
  split <;> exact ⟨rfl, rfl⟩

theorem World.step_bind {call : Call} (taken : w.step digest keys (.bind call) = some w') :
    w'.durable = w.durable ∧ w'.memory = w.memory := by
  simp only [World.step] at taken
  split at taken
  · split at taken
    · split at taken
      · cases taken
        exact ⟨rfl, rfl⟩
      · cases taken
        exact ⟨rfl, rfl⟩
    · cases taken
  · cases taken

theorem World.step_finish {call : Call} {env : Env} {dies : Bool}
    (taken : w.step digest keys (.finish call env dies) = some w') :
    ∃ x memory, call.finish digest keys (env.within dies) = some x ∧ w.memory = some memory ∧
      w' = { w with calls := w.calls.erase call }.settle (x { durable := w.durable, memory }).2 dies := by
  simp only [World.step] at taken
  split at taken
  · rename_i x memory finish running
    split at taken
    · cases taken
      exact ⟨x, memory, finish, running, rfl⟩
    · cases taken
  · cases taken

end Steps

inductive World.Reaches (digest : NormalizedGeneration → String) (keys : Keyring)
    (allowed : World idx Source → Event Source → Prop) (start : World idx Source) :
    World idx Source → Prop where
  | refl : World.Reaches digest keys allowed start start
  | step {w w' : World idx Source} {e : Event Source}
      (before : World.Reaches digest keys allowed start w) (met : allowed w e)
      (taken : w.step digest keys e = some w') : World.Reaches digest keys allowed start w'

def World.run (digest : NormalizedGeneration → String) (keys : Keyring) (w : World idx Source) :
    List (Event Source) → Option (World idx Source)
  | [] => some w
  | e :: rest => (w.step digest keys e).bind fun after => after.run digest keys rest

theorem World.Reaches.run {digest : NormalizedGeneration → String} {keys : Keyring}
    {allowed : World idx Source → Event Source → Prop} {start w w' : World idx Source}
    {events : List (Event Source)} (reached : Reaches digest keys allowed start w)
    (met : ∀ e ∈ events, ∀ w, allowed w e) (taken : w.run digest keys events = some w') :
    Reaches digest keys allowed start w' := by
  induction events generalizing w with
  | nil =>
    cases taken
    exact reached
  | cons e rest ih =>
    obtain ⟨after, stepped, others⟩ := Option.bind_eq_some_iff.mp taken
    have later := reached.step (met e List.mem_cons_self w) stepped
    exact ih later (fun e' member => met e' (List.mem_cons_of_mem e member)) others

def World.idle (store : Store) : World idx Source :=
  { durable := { store, history := [] }, memory := none, calls := [] }

end Bloar.Server
