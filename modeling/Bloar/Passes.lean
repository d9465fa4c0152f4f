import Bloar.Pins

/-!
Reconciliation passes that run together. A pass takes a snapshot of its registration and
then reads and writes the ledger without a lock, so that registrations, withdrawals and
other passes of the same name come in between; only at its end does the pass of a
withdrawal look at the registry again.
-/

namespace Bloar.Pinning
open Ipld Archive

/-! ### An undisturbed pass -/

def rowsOf (pins : List Pin) : Rows := fun key => (want pins key).map Pin.recursive

section Undisturbed
variable {rows : Rows} {pins held : List Pin} {key : PinKey}

theorem run_adds_other {news : List Pin} (other : ∀ p ∈ news, p.key ≠ key) :
    rows.run (news.map .add) key = rows key := by
  induction news generalizing rows with
  | nil => rfl
  | cons p news ih =>
    rw [List.forall_mem_cons] at other
    rw [List.map_cons, Rows.run, List.foldl_cons]
    exact (ih other.2).trans (Function.update_of_ne (Ne.symm other.1) _ _)

theorem run_removes_key {gone : List Pin} :
    rows.run (gone.map fun p => .remove p.key) key =
      if key ∈ gone.map Pin.key then none else rows key := by
  induction gone generalizing rows with
  | nil => rfl
  | cons p gone ih =>
    rw [List.map_cons, Rows.run, List.foldl_cons]
    refine (@ih (rows.write (.remove p.key))).trans ?_
    by_cases later : key ∈ gone.map Pin.key
    · simp [later]
    · by_cases same : key = p.key
      · simp [same, Rows.write]
      · simp [later, same, Rows.write]

theorem Lists.pass_eq (lists : Lists rows held) (consistent : Consistent pins) :
    rows.run (writes pins held) = rowsOf pins := by
  funext key
  unfold rowsOf
  cases wanted : want pins key with
  | some p =>
    obtain ⟨member, same⟩ := want_some wanted
    rw [← same]
    exact lists.pass consistent p member
  | none =>
    have unwanted := want_none_iff.mp wanted
    -- No row of this key is added, and one that was there is listed and removed.
    have added : rows.run ((plan pins held).1.map .add) key = rows key := by
      apply run_adds_other
      intro p member
      rcases List.mem_append.mp member with rewritten | new
      · obtain ⟨row, -, found⟩ := List.mem_filterMap.mp rewritten
        exact unwanted p (want_some (Option.filter_eq_some_iff.mp found).1).1
      · exact unwanted p (List.mem_of_mem_filter new)
    rw [writes, Rows.run_append, run_removes_key, added]
    cases found : rows key with
    | none => simp
    | some flag =>
      rw [if_pos]
      · rfl
      · have listed := (lists.mem ⟨key.1, key.2, flag⟩).mpr found
        refine List.mem_map.mpr ⟨_, List.mem_filter.mpr ⟨listed, ?_⟩, rfl⟩
        change (want pins key).isNone = true
        rw [wanted]
        rfl

theorem Lists.pass_again (lists : Lists (rowsOf pins) held) (consistent : Consistent pins) :
    writes pins held = [] := by
  have wanted (e : Pin) (listed : e ∈ held) : ∃ p, want pins e.key = some p ∧
      p.recursive = e.recursive := by
    have found := (lists.mem e).mp listed
    rwa [rowsOf, Option.map_eq_some_iff] at found
  have noRewrites : Pinning.rewrites pins held = [] := by
    apply List.filterMap_eq_nil_iff.mpr
    intro e listed
    obtain ⟨p, found, same⟩ := wanted e listed
    simp [found, same]
  have noAdds : pins.filter (fun p => p.key ∉ held.map Pin.key) = [] := by
    apply List.filter_eq_nil_iff.mpr
    intro p member
    have found : rowsOf pins p.key = some p.recursive := by
      rw [rowsOf, consistent.want member]
      rfl
    simpa using ⟨p, (lists.mem p).mpr found, rfl⟩
  have noRemoves : held.filter (fun e => (want pins e.key).isNone) = [] := by
    apply List.filter_eq_nil_iff.mpr
    intro e listed
    obtain ⟨p, found, -⟩ := wanted e listed
    simp [found]
  rw [writes, plan, noRewrites, noAdds, noRemoves]
  rfl

end Undisturbed

namespace Reconcile

/-! ### Registrations -/

/-- The content of an `entry`. A withdrawal is known by the address of its token, which
is a value of size zero. -/
inductive Target where
  | head (engine : Nat) (policy : Policy)
  | withdrawal (token : Nat)
  deriving DecidableEq, Repr

/-- `entry`, with the number of its installation, which the code does not have. -/
structure Entry where
  made : Nat
  target : Target
  deriving DecidableEq, Repr

def Entry.withdrawn (e : Entry) : Bool :=
  match e.target with
  | .head .. => false
  | .withdrawal _ => true

/-! ### Passes -/

inductive Stage where
  | started
  | enumerated (pins : List Pin)
  | wanting (pins : List Pin)
  | writing (rest : List Write)
  deriving DecidableEq, Repr

structure Pass where
  name : String
  entry : Entry
  stage : Stage
  deriving DecidableEq, Repr

structure State where
  ledger : String → Rows
  heads : String → Option Entry
  /-- What enumerating an engine yields now, if it does not fail. -/
  engines : Nat → Option Enumeration
  tips : String → Link
  passes : Nat → Option Pass
  made : Nat

namespace State
variable (s : State)

def put (name : String) (target : Target) : State :=
  { s with heads := Function.update s.heads name (some ⟨s.made, target⟩), made := s.made + 1 }

/-- The closure that `PrepareSetBatch` returns. -/
def apply (batch : List (String × Target)) : State :=
  batch.foldl (fun s x => s.put x.1 x.2) s

def setPass (id : Nat) (p : Option Pass) : State :=
  { s with passes := Function.update s.passes id p }

def write (name : String) (w : Write) : State :=
  { s with ledger := Function.update s.ledger name ((s.ledger name).write w) }

/-- The end of a pass: that of a withdrawal deletes the registration if it is a
withdrawal whose token compares equal to its own. -/
def settle (name : String) (e : Entry) : State :=
  match e.target, s.heads name with
  | .withdrawal token, some ⟨_, .withdrawal current⟩ =>
    if current = token then { s with heads := Function.update s.heads name none } else s
  | _, _ => s

def first (e : Entry) : Stage := if e.withdrawn then .wanting [] else .started

end State

inductive Event where
  | apply (batch : List (String × Target))
  | move (engine : Nat) (e : Option Enumeration)
  | retip (name : String) (tip : Link)
  | start (id : Nat) (name : String)
  | enumerate (id : Nat)
  | readTip (id : Nat)
  | list (id : Nat)
  | write (id : Nat)
  | writeFails (id : Nat) (written : Bool)
  | fails (id : Nat)
  | finish (id : Nat)
  deriving DecidableEq

inductive Step : State → Event → State → Prop where
  | apply {s : State} (batch : List (String × Target)) : Step s (.apply batch) (s.apply batch)
  | move {s : State} (engine : Nat) (e : Option Enumeration) :
      Step s (.move engine e) { s with engines := Function.update s.engines engine e }
  | retip {s : State} (name : String) (tip : Link) :
      Step s (.retip name tip) { s with tips := Function.update s.tips name tip }
  | start {s : State} {id : Nat} {name : String} {e : Entry} (free : s.passes id = none)
      (registered : s.heads name = some e) :
      Step s (.start id name) (s.setPass id (some ⟨name, e, State.first e⟩))
  | enumerate {s : State} {id made engine : Nat} {name : String} {policy : Policy}
      {e : Enumeration} {pins : List Pin}
      (running : s.passes id = some ⟨name, ⟨made, .head engine policy⟩, .started⟩)
      (found : s.engines engine = some e) (wants : desired policy e = .ok pins) :
      Step s (.enumerate id)
        (s.setPass id (some ⟨name, ⟨made, .head engine policy⟩, .enumerated pins⟩))
  | readTip {s : State} {id : Nat} {name : String} {e : Entry} {pins : List Pin}
      (running : s.passes id = some ⟨name, e, .enumerated pins⟩) :
      Step s (.readTip id) (s.setPass id
        (some ⟨name, e, .wanting (pins ++ (s.tips name).toList.map fun c => ⟨.manifest, c, true⟩)⟩))
  | list {s : State} {id : Nat} {name : String} {e : Entry} {pins held : List Pin}
      (running : s.passes id = some ⟨name, e, .wanting pins⟩) (lists : Lists (s.ledger name) held) :
      Step s (.list id) (s.setPass id (some ⟨name, e, .writing (writes pins held)⟩))
  | write {s : State} {id : Nat} {name : String} {e : Entry} {w : Write} {rest : List Write}
      (running : s.passes id = some ⟨name, e, .writing (w :: rest)⟩) :
      Step s (.write id) ((s.write name w).setPass id (some ⟨name, e, .writing rest⟩))
  /-- A write that fails, and may have been made all the same. -/
  | writeFails {s : State} {id : Nat} {name : String} {e : Entry} {w : Write} {rest : List Write}
      (running : s.passes id = some ⟨name, e, .writing (w :: rest)⟩) (written : Bool) :
      Step s (.writeFails id written)
        ((if written then s.write name w else s).setPass id none)
  /-- Any other error of a pass. -/
  | fails {s : State} {id : Nat} {p : Pass} (running : s.passes id = some p) :
      Step s (.fails id) (s.setPass id none)
  | finish {s : State} {id : Nat} {name : String} {e : Entry}
      (running : s.passes id = some ⟨name, e, .writing []⟩) :
      Step s (.finish id) ((s.settle name e).setPass id none)

/-! ### Orderly steps -/

/-- No pass is started beside another one of its name if either is a withdrawal's, and no
withdrawal is registered whose token compares equal to that of one whose pass is
running. -/
def Event.Orderly (s : State) : Event → Prop
  | .start _ name => ∀ e, s.heads name = some e → ∀ i p, s.passes i = some p → p.name = name →
      e.withdrawn = false ∧ p.entry.withdrawn = false
  | .apply batch => ∀ x ∈ batch, ∀ token, x.2 = .withdrawal token → ∀ i p, s.passes i = some p →
      p.name = x.1 → p.entry.target ≠ .withdrawal token
  | _ => True

def Pass.Drains (p : Pass) (ledger : String → Rows) : Prop :=
  match p.stage with
  | .wanting pins => pins = []
  | .writing rest => (∀ w ∈ rest, ∃ key, w = .remove key) ∧
      ∀ key, ledger p.name key ≠ none → .remove key ∈ rest
  | _ => False

structure Inv (s : State) : Prop where
  single : ∀ i p, s.passes i = some p → p.entry.withdrawn = true →
    ∀ j q, s.passes j = some q → q.name = p.name → j = i
  tokens : ∀ i p token, s.passes i = some p → p.entry.target = .withdrawal token →
    ∀ e, s.heads p.name = some e → e.target = .withdrawal token → e = p.entry
  owned : ∀ name, s.ledger name ≠ (fun _ => none) → (s.heads name).isSome
  running : ∀ i p, s.passes i = some p → p.entry.withdrawn = false → (s.heads p.name).isSome
  drains : ∀ i p, s.passes i = some p → p.entry.withdrawn = true → p.Drains s.ledger

section Kept
variable {s s' : State} {id : Nat} {name : String} {e : Entry} {p : Pass}

variable {p' : Option Pass} {w : Write} {rest : List Write} {event : Event}

theorem setPass_some {i : Nat} (found : (s.setPass id p').passes i = some p) :
    i = id ∧ p' = some p ∨ i ≠ id ∧ s.passes i = some p := by
  by_cases same : i = id
  · subst same
    exact .inl ⟨rfl, by simpa [State.setPass] using found⟩
  · exact .inr ⟨same, by simpa [State.setPass, same] using found⟩

variable (inv : Inv s)
include inv

theorem Inv.setPass
    (same : ∀ q, p' = some q → ∃ p, s.passes id = some p ∧ p.name = q.name ∧ p.entry = q.entry)
    (drains : ∀ q, p' = some q → q.entry.withdrawn = true → q.Drains s.ledger) :
    Inv (s.setPass id p') := by
  -- A pass of the new state is one of the old state, up to its stage.
  have old {i : Nat} {q : Pass} (found : (s.setPass id p').passes i = some q) :
      ∃ p, s.passes i = some p ∧ p.name = q.name ∧ p.entry = q.entry := by
    rcases setPass_some found with ⟨rfl, new⟩ | ⟨-, found⟩
    · exact same q new
    · exact ⟨q, found, rfl, rfl⟩
  constructor
  · intro i p found withdrawn j q found' names
    obtain ⟨p₀, before, name, entry⟩ := old found
    obtain ⟨q₀, before', name', -⟩ := old found'
    refine inv.single i p₀ before (by rw [entry, withdrawn]) j q₀ before' ?_
    rw [name', names, name]
  · intro i p token found target e registered target'
    obtain ⟨p₀, before, name, entry⟩ := old found
    rw [← entry] at target ⊢
    exact inv.tokens i p₀ token before target e (by rw [name]; exact registered) target'
  · exact inv.owned
  · intro i p found live
    obtain ⟨p₀, before, name, entry⟩ := old found
    have registered := inv.running i p₀ before (by rw [entry, live])
    rwa [name] at registered
  · intro i p found withdrawn
    rcases setPass_some found with ⟨-, new⟩ | ⟨-, found⟩
    · exact drains p new withdrawn
    · exact inv.drains i p found withdrawn

theorem Inv.write (running : s.passes id = some ⟨name, e, .writing (w :: rest)⟩) :
    Inv (s.write name w) := by
  refine ⟨inv.single, inv.tokens, fun other filled => ?_, inv.running, fun i p found withdrawn => ?_⟩
  · by_cases same : other = name
    · subst same
      cases live : e.withdrawn with
      | false => exact inv.running id _ running live
      | true =>
        -- The pass only removes rows, so there was one before.
        apply inv.owned
        intro empty
        obtain ⟨key, rfl⟩ := (inv.drains id _ running live).1 w (List.mem_cons_self ..)
        apply filled
        funext key'
        simp [State.write, Rows.write, empty]
    · apply inv.owned
      simpa [State.write, same] using filled
  · have before := inv.drains i p found withdrawn
    by_cases same : p.name = name
    · have self := inv.single i p found withdrawn id _ running same.symm
      subst self
      cases running.symm.trans found
      obtain ⟨removes, covers⟩ := before
      obtain ⟨key, rfl⟩ := removes w (List.mem_cons_self ..)
      refine ⟨removes, fun key' filled => covers key' ?_⟩
      intro empty
      apply filled
      by_cases hit : key' = key
      · simp [State.write, Rows.write, hit]
      · simp [State.write, Rows.write, hit, empty]
    · have kept : (s.write name w).ledger p.name = s.ledger p.name := by
        simp [State.write, same]
      unfold Pass.Drains at before ⊢
      rwa [kept]

theorem Inv.wrote (running : s.passes id = some ⟨name, e, .writing (w :: rest)⟩) :
    Inv ((s.write name w).setPass id (some ⟨name, e, .writing rest⟩)) := by
  have written := inv.write running
  apply written.setPass
  · rintro q ⟨⟩
    exact ⟨_, running, rfl, rfl⟩
  · rintro q ⟨⟩ withdrawn
    obtain ⟨removes, covers⟩ := written.drains id _ running withdrawn
    obtain ⟨key, rfl⟩ := removes w (List.mem_cons_self ..)
    refine ⟨fun w later => removes w (List.mem_cons_of_mem _ later), fun key' filled => ?_⟩
    rcases List.mem_cons.mp (covers key' filled) with first | later
    · cases first
      simp [State.write, Rows.write] at filled
    · exact later

omit inv in
/-- A pass that wants nothing lists the rows and removes them all. -/
theorem drains_listed {held : List Pin} (lists : Lists (s.ledger name) held) :
    Pass.Drains ⟨name, e, .writing (writes [] held)⟩ s.ledger := by
  have removes : writes [] held = held.map fun p => .remove p.key := by
    have none (key : PinKey) : want [] key = none := rfl
    simp [writes, plan, rewrites, none]
  constructor
  · intro w member
    rw [removes] at member
    obtain ⟨p, -, rfl⟩ := List.mem_map.mp member
    exact ⟨p.key, rfl⟩
  · intro key filled
    obtain ⟨flag, found⟩ := Option.ne_none_iff_exists'.mp filled
    rw [removes]
    exact List.mem_map.mpr ⟨⟨key.1, key.2, flag⟩, (lists.mem _).mpr found, rfl⟩

theorem Inv.delete (running : s.passes id = some ⟨name, e, .writing []⟩)
    (withdrawn : e.withdrawn = true) :
    Inv { s with heads := Function.update s.heads name none } := by
  have apart {other : String} (registered : (s.heads other).isSome) (different : other ≠ name) :
      (Function.update s.heads name none other).isSome := by
    rwa [Function.update_of_ne different]
  refine ⟨inv.single, ?_, fun other filled => ?_, fun i p found live => ?_, inv.drains⟩
  · intro i p token found target e' registered target'
    by_cases same : p.name = name
    · simp [same] at registered
    · exact inv.tokens i p token found target e' (by simpa [same] using registered) target'
  · refine apart (inv.owned other filled) ?_
    rintro rfl
    apply filled
    funext key
    by_contra present
    simpa using (inv.drains id _ running withdrawn).2 key present
  · refine apart (inv.running i p found live) fun same => ?_
    -- It is the only pass of its name, and that of a withdrawal.
    have self := inv.single id _ running withdrawn i p found same
    subst self
    rw [running] at found
    cases found
    rw [withdrawn] at live
    cases live

theorem Inv.settle (running : s.passes id = some ⟨name, e, .writing []⟩) :
    Inv ((s.settle name e).setPass id none) := by
  unfold State.settle
  split
  · rename_i token made current target registered
    split
    · have withdrawn : e.withdrawn = true := by simp [Entry.withdrawn, target]
      exact (inv.delete running withdrawn).setPass (by simp) (by simp)
    · exact inv.setPass (by simp) (by simp)
  · exact inv.setPass (by simp) (by simp)

theorem Inv.put {target : Target}
    (fresh : ∀ token, target = .withdrawal token →
      ∀ i p, s.passes i = some p → p.name = name → p.entry.target ≠ .withdrawal token) :
    Inv (s.put name target) := by
  have kept {other : String} (registered : (s.heads other).isSome) :
      ((s.put name target).heads other).isSome := by
    by_cases same : other = name
    · simp [State.put, same]
    · simpa [State.put, same] using registered
  refine ⟨inv.single, ?_, fun other filled => kept (inv.owned other filled),
    fun i p found live => kept (inv.running i p found live), inv.drains⟩
  intro i p token found target' e registered again
  by_cases same : p.name = name
  · -- The new withdrawal has another token than every running one.
    simp only [State.put, same, Function.update_self, Option.some.injEq] at registered
    subst registered
    exact absurd target' (fresh token again i p found same)
  · exact inv.tokens i p token found target' e (by simpa [State.put, same] using registered) again

theorem Inv.apply {batch : List (String × Target)} (orderly : (Event.apply batch).Orderly s) :
    Inv (s.apply batch) := by
  induction batch generalizing s with
  | nil => exact inv
  | cons x rest ih =>
    rw [Event.Orderly, List.forall_mem_cons] at orderly
    exact ih (inv.put orderly.1) orderly.2

theorem Inv.start (registered : s.heads name = some e) (orderly : (Event.start id name).Orderly s) :
    Inv (s.setPass id (some ⟨name, e, State.first e⟩)) := by
  have beside {i : Nat} {q : Pass} (found : s.passes i = some q) (same : q.name = name) :
      e.withdrawn = false ∧ q.entry.withdrawn = false := orderly e registered i q found same
  constructor
  · intro i p found withdrawn j q found' names
    rcases setPass_some found with ⟨same, new⟩ | ⟨-, before⟩
    · cases new
      rcases setPass_some found' with ⟨same', -⟩ | ⟨-, before'⟩
      · rw [same, same']
      · have live := (beside before' names).1
        rw [live] at withdrawn
        cases withdrawn
    · rcases setPass_some found' with ⟨-, new'⟩ | ⟨-, before'⟩
      · cases new'
        have live := (beside before names.symm).2
        rw [live] at withdrawn
        cases withdrawn
      · exact inv.single i p before withdrawn j q before' names
  · intro i p token found target e' registered' target'
    rcases setPass_some found with ⟨-, new⟩ | ⟨-, found⟩
    · cases new
      exact Option.some.inj (registered'.symm.trans registered)
    · exact inv.tokens i p token found target e' registered' target'
  · exact inv.owned
  · intro i p found live
    rcases setPass_some found with ⟨-, new⟩ | ⟨-, found⟩
    · cases new
      change (s.heads name).isSome
      rw [registered]
      rfl
    · exact inv.running i p found live
  · intro i p found withdrawn
    rcases setPass_some found with ⟨-, new⟩ | ⟨-, found⟩
    · cases new
      simp only [Pass.Drains, State.first, if_pos withdrawn]
    · exact inv.drains i p found withdrawn

theorem Inv.step (orderly : event.Orderly s) (step : Step s event s') : Inv s' := by
  cases step with
  | apply batch => exact inv.apply orderly
  | move | retip => exact ⟨inv.single, inv.tokens, inv.owned, inv.running, inv.drains⟩
  | start free registered => exact inv.start registered orderly
  | enumerate running =>
    apply inv.setPass
    · rintro q ⟨⟩
      exact ⟨_, running, rfl, rfl⟩
    · rintro q ⟨⟩ withdrawn
      cases withdrawn
  | readTip running =>
    apply inv.setPass
    · rintro q ⟨⟩
      exact ⟨_, running, rfl, rfl⟩
    · rintro q ⟨⟩ withdrawn
      exact (inv.drains _ _ running withdrawn).elim
  | list running lists =>
    apply inv.setPass
    · rintro q ⟨⟩
      exact ⟨_, running, rfl, rfl⟩
    · rintro q ⟨⟩ withdrawn
      have empty : _ = [] := inv.drains _ _ running withdrawn
      subst empty
      exact drains_listed lists
  | write running => exact inv.wrote running
  | writeFails running written =>
    cases written with
    | false => exact inv.setPass (by simp) (by simp)
    | true => exact (inv.write running).setPass (by simp) (by simp)
  | fails running => exact inv.setPass (by simp) (by simp)
  | finish running => exact inv.settle running

omit inv

theorem Step.removed (step : Step s event s') {other : String} {gone : Entry}
    (before : s.heads other = some gone) (after : s'.heads other = none) :
    ∃ id e token, event = .finish id ∧ s.passes id = some ⟨other, e, .writing []⟩ ∧
      e.target = .withdrawal token ∧ gone.target = .withdrawal token := by
  have puts (batch : List (String × Target)) (s : State) (before : (s.heads other).isSome) :
      ((s.apply batch).heads other).isSome := by
    induction batch generalizing s with
    | nil => exact before
    | cons x rest ih =>
      apply ih
      by_cases same : other = x.1
      · simp [State.put, same]
      · simpa [State.put, same] using before
  cases step with
  | apply batch =>
    have kept := puts batch s (by rw [before]; rfl)
    rw [after] at kept
    cases kept
  | writeFails running written =>
    cases written <;>
    · change s.heads other = none at after
      rw [before] at after
      cases after
  | @finish id name e running =>
    change (s.settle name e).heads other = none at after
    unfold State.settle at after
    split at after
    · rename_i token made current target registered
      split at after
      · rename_i same
        subst same
        by_cases same : other = name
        · subst same
          rw [registered] at before
          cases before
          exact ⟨id, e, current, rfl, running, target, rfl⟩
        · dsimp only at after
          rw [Function.update_of_ne same, before] at after
          cases after
      · rw [before] at after
        cases after
    · rw [before] at after
      cases after
  | _ =>
    change s.heads other = none at after
    rw [before] at after
    cases after

end Kept

def Orderly : State → State → Prop :=
  Relation.ReflTransGen fun s s' => ∃ event : Event, event.Orderly s ∧ Step s event s'

def State.Quiet (s : State) : Prop := ∀ id, s.passes id = none

/-- Every name with rows is registered. The staging rows, which no pass sees, are not
among these. -/
def State.Owned (s : State) : Prop := ∀ name, s.ledger name ≠ (fun _ => none) → (s.heads name).isSome

theorem quiet_inv {s : State} (quiet : s.Quiet) (owned : s.Owned) : Inv s := by
  refine ⟨?_, ?_, owned, ?_, ?_⟩ <;>
  · intro i p
    simp [quiet i]

theorem Orderly.inv {s s' : State} (inv : Inv s) (run : Orderly s s') : Inv s' := by
  induction run with
  | refl => exact inv
  | tail _ last ih =>
    obtain ⟨event, orderly, step⟩ := last
    exact ih.step orderly step

/-! ### The cut of a collection -/

namespace State

def wants (s : State) (name : String) (e : Entry) : Option (List Pin) :=
  match e.target with
  | .withdrawal _ => some []
  | .head engine policy =>
    (s.engines engine).bind fun found => (wanted policy found (s.tips name)).toOption

def writeAll (s : State) (name : String) (ws : List Write) : State :=
  { s with ledger := Function.update s.ledger name ((s.ledger name).run ws) }

def Alone (s : State) (name : String) (s' : State) : Prop :=
  ∃ e pins held, s.heads name = some e ∧ s.wants name e = some pins ∧
    Lists (s.ledger name) held ∧ s' = (s.writeAll name (writes pins held)).settle name e

end State

inductive Cut : State → List String → State → Prop where
  | nil {s : State} : Cut s [] s
  | cons {s₁ s₂ s₃ : State} {name : String} {names : List String} (pass : s₁.Alone name s₂)
      (rest : Cut s₂ names s₃) : Cut s₁ (name :: names) s₃

section Cuts
variable {s s' : State} {id : Nat} {name : String} {e : Entry}

theorem wants_consistent {pins : List Pin} (wants : s.wants name e = some pins) :
    Consistent pins := by
  unfold State.wants at wants
  split at wants
  · cases wants
    intro p member
    cases member
  · rename_i engine policy target
    obtain ⟨found, -, made⟩ := Option.bind_eq_some_iff.mp wants
    cases ok : wanted policy found (s.tips name) with
    | error => simp [ok, Except.toOption] at made
    | ok pins' =>
      rw [ok] at made
      cases made
      exact wanted_consistent ok

theorem setPass_passes (p : Option Pass) : (s.setPass id p).passes id = p := by
  simp [State.setPass]

theorem setPass_setPass (p q : Option Pass) : (s.setPass id p).setPass id q = s.setPass id q := by
  simp [State.setPass]

theorem setPass_self (free : s.passes id = none) : s.setPass id none = s := by
  rw [State.setPass, ← free, Function.update_eq_self]

theorem settle_setPass (p : Option Pass) :
    (s.setPass id p).settle name e = (s.settle name e).setPass id p := by
  unfold State.settle
  change (match e.target, s.heads name with
    | .withdrawal token, some ⟨_, .withdrawal current⟩ => _
    | _, _ => _) = _
  split
  · split <;> rfl
  · rfl

theorem settle_passes : (s.settle name e).passes = s.passes := by
  unfold State.settle
  split
  · split <;> rfl
  · rfl

theorem writes_run {ws : List Write} (running : s.passes id = some ⟨name, e, .writing ws⟩) :
    Orderly s ((s.writeAll name ws).setPass id (some ⟨name, e, .writing []⟩)) := by
  induction ws generalizing s with
  | nil =>
    have same : (s.writeAll name []).setPass id (some ⟨name, e, .writing []⟩) = s := by
      rw [State.setPass, ← running]
      simp [State.writeAll, Rows.run]
    rw [same]
    exact .refl
  | cons w rest ih =>
    have later := ih (s := (s.write name w).setPass id (some ⟨name, e, .writing rest⟩))
      (setPass_passes _)
    have same : (((s.write name w).setPass id (some ⟨name, e, .writing rest⟩)).writeAll name
        rest).setPass id (some ⟨name, e, .writing []⟩) =
        (s.writeAll name (w :: rest)).setPass id (some ⟨name, e, .writing []⟩) := by
      simp [State.setPass, State.writeAll, State.write, Rows.run]
    rw [same] at later
    exact .head ⟨.write id, trivial, .write running⟩ later

theorem wants_run {pins : List Pin} (wants : s.wants name e = some pins) :
    Orderly (s.setPass id (some ⟨name, e, State.first e⟩))
      (s.setPass id (some ⟨name, e, .wanting pins⟩)) := by
  unfold State.wants at wants
  split at wants
  · rename_i token target
    cases wants
    simp only [State.first, Entry.withdrawn, target]
    exact .refl
  · rename_i engine policy target
    obtain ⟨found, known, made⟩ := Option.bind_eq_some_iff.mp wants
    cases ok : desired policy found with
    | error => simp [wanted, ok, bind, Except.bind, Except.toOption] at made
    | ok pins' =>
      simp only [wanted, ok, bind, Except.bind, pure, Except.pure, Except.toOption,
        Option.some.injEq] at made
      subst made
      obtain ⟨made, _⟩ := e
      cases target
      have one : Step (s.setPass id (some ⟨name, ⟨made, .head engine policy⟩, .started⟩))
          (.enumerate id) _ := .enumerate (setPass_passes _) known ok
      have two : Step (s.setPass id (some ⟨name, ⟨made, .head engine policy⟩, .enumerated pins'⟩))
          (.readTip id) _ := .readTip (setPass_passes _)
      rw [setPass_setPass] at one two
      exact .head ⟨.enumerate id, trivial, one⟩ (.single ⟨.readTip id, trivial, two⟩)

theorem listed_run {pins held : List Pin} (wants : s.wants name e = some pins)
    (lists : Lists (s.ledger name) held) :
    Orderly (s.setPass id (some ⟨name, e, State.first e⟩))
      (s.setPass id (some ⟨name, e, .writing (writes pins held)⟩)) := by
  have list : Step (s.setPass id (some ⟨name, e, .wanting pins⟩)) (.list id) _ :=
    .list (setPass_passes _) lists
  rw [setPass_setPass] at list
  exact (wants_run wants).tail ⟨.list id, trivial, list⟩

theorem alone_run (quiet : s.Quiet) (alone : s.Alone name s') : Orderly s s' ∧ s'.Quiet := by
  obtain ⟨e, pins, held, registered, wants, lists, rfl⟩ := alone
  have kept : ((s.writeAll name (writes pins held)).settle name e).Quiet := by
    intro i
    rw [settle_passes]
    exact quiet i
  refine ⟨?_, kept⟩
  have start : Step s (.start 0 name) (s.setPass 0 (some ⟨name, e, State.first e⟩)) :=
    .start (quiet 0) registered
  have orderly : (Event.start 0 name).Orderly s := by
    intro e _ i p found
    rw [quiet i] at found
    cases found
  have write := writes_run (s := s.setPass 0 (some ⟨name, e, .writing (writes pins held)⟩))
    (setPass_passes _)
  have finish : Step (((s.setPass 0 (some ⟨name, e, .writing (writes pins held)⟩)).writeAll name
      (writes pins held)).setPass 0 (some ⟨name, e, .writing []⟩)) (.finish 0) _ :=
    .finish (setPass_passes _)
  have ended : ((((s.setPass 0 (some ⟨name, e, .writing (writes pins held)⟩)).writeAll name
      (writes pins held)).setPass 0 (some ⟨name, e, .writing []⟩)).settle name e).setPass 0 none =
      (s.writeAll name (writes pins held)).settle name e := by
    have moved : ((s.setPass 0 (some ⟨name, e, .writing (writes pins held)⟩)).writeAll name
        (writes pins held)) = (s.writeAll name (writes pins held)).setPass 0
          (some ⟨name, e, .writing (writes pins held)⟩) := rfl
    rw [moved, setPass_setPass, settle_setPass, setPass_setPass, setPass_self (kept 0)]
  rw [ended] at finish
  exact .head ⟨.start 0 name, orderly, start⟩
    ((listed_run wants lists).trans (write.tail ⟨.finish 0, trivial, finish⟩))

theorem alone_spec (alone : s.Alone name s') : ∃ e pins, s.heads name = some e ∧
    s.wants name e = some pins ∧ s'.ledger = Function.update s.ledger name (rowsOf pins) ∧
    s'.heads = (if e.withdrawn then Function.update s.heads name none else s.heads) ∧
    s'.engines = s.engines ∧ s'.tips = s.tips := by
  obtain ⟨e, pins, held, registered, wants, lists, rfl⟩ := alone
  refine ⟨e, pins, registered, wants, ?_⟩
  have rows := lists.pass_eq (wants_consistent wants)
  unfold State.settle
  cases target : e.target with
  | head => simp [Entry.withdrawn, target, rows, State.writeAll]
  | withdrawal token =>
    have found : (s.writeAll name (writes pins held)).heads name = some e := registered
    obtain ⟨made, _⟩ := e
    cases target
    rw [found]
    simp [Entry.withdrawn, rows, State.writeAll]

theorem cut_spec {names : List String} (cut : Cut s names s') (once : names.Nodup) :
    (∀ name ∈ names, ∃ e pins, s.heads name = some e ∧ s.wants name e = some pins ∧
      s'.ledger name = rowsOf pins ∧ s'.heads name = if e.withdrawn then none else some e) ∧
    ∀ name, name ∉ names → s'.ledger name = s.ledger name ∧ s'.heads name = s.heads name := by
  induction cut with
  | nil => simp
  | @cons s₁ s₂ s₃ name names pass rest ih =>
    rw [List.nodup_cons] at once
    obtain ⟨each, others⟩ := ih once.2
    obtain ⟨e, pins, registered, wants, ledger, heads, engines, tips⟩ := alone_spec pass
    have apart {other : String} (different : other ≠ name) :
        s₂.heads other = s₁.heads other ∧ s₂.ledger other = s₁.ledger other := by
      rw [heads, ledger, Function.update_of_ne different]
      refine ⟨?_, rfl⟩
      split
      · rw [Function.update_of_ne different]
      · rfl
    constructor
    · intro other member
      rcases List.mem_cons.mp member with rfl | later
      · obtain ⟨rows, kept⟩ := others other once.1
        refine ⟨e, pins, registered, wants, ?_, ?_⟩
        · rw [rows, ledger, Function.update_self]
        · rw [kept, heads]
          split
          · rw [Function.update_self]
          · exact registered
      · have different : other ≠ name := by
          rintro rfl
          exact once.1 later
        obtain ⟨e', pins', registered', wants', rows, kept⟩ := each other later
        rw [(apart different).1] at registered'
        refine ⟨e', pins', registered', ?_, rows, kept⟩
        rw [← wants', State.wants, State.wants, engines, tips]
    · intro other outside
      rw [List.mem_cons, not_or] at outside
      obtain ⟨rows, kept⟩ := others other outside.2
      exact ⟨rows.trans (apart outside.1).2, kept.trans (apart outside.1).1⟩

theorem cut_run {names : List String} (quiet : s.Quiet) (cut : Cut s names s') :
    Orderly s s' := by
  induction cut with
  | nil => exact .refl
  | cons pass rest ih =>
    obtain ⟨run, quiet'⟩ := alone_run quiet pass
    exact run.trans (ih quiet')

end Cuts

def sampleRoot : Cid := ⟨1, dagCBOR, ⟨sha2_256, 32, ⟨0⟩⟩⟩

def bare : State :=
  { ledger := fun _ _ => none, heads := fun _ => none
    engines := fun _ => some ⟨sampleParams, some sampleRoot, 0, false, [], [], none, 0⟩
    tips := fun _ => none, passes := fun _ => none, made := 0 }

theorem noRows_lists : Lists (fun _ => none) [] := ⟨by simp, List.nodup_nil⟩

/-- One undisturbed pass leaves exactly the wanted rows, and the next writes nothing. No
pass ever removes the registration of a head. In every run of orderly steps from a state
in which all rows have an owner, a pass removes only the withdrawal it has reconciled,
no rows are without an owner whenever no pass is running, and after the cut of a
collection the rows are those that the registered heads want. -/
theorem reconcile_orderly (start : State) :
    (∀ policy e tip pins, wanted policy e tip = .ok pins → ∀ rows held, Lists rows held →
      rows.run (writes pins held) = rowsOf pins ∧
        ∀ held', Lists (rowsOf pins) held' → writes pins held' = []) ∧
    (∀ s event s' name gone, Step s event s' → s.heads name = some gone →
      s'.heads name = none → gone.withdrawn = true) ∧
    (start.Quiet → start.Owned → ∀ s, Orderly start s →
      (∀ event s' name gone, Step s event s' → s.heads name = some gone →
        s'.heads name = none →
        ∃ id, event = .finish id ∧ s.passes id = some ⟨name, gone, .writing []⟩) ∧
      (s.Quiet → s.Owned ∧
        ∀ names s', (∀ name, name ∈ names ↔ (s.heads name).isSome) → names.Nodup →
          Cut s names s' → Orderly s s' ∧
          (∀ name e, s.heads name = some e → e.withdrawn = false →
            s'.heads name = some e ∧
              ∃ pins, s.wants name e = some pins ∧ s'.ledger name = rowsOf pins) ∧
          (∀ name, (∀ e, s.heads name = some e → e.withdrawn = true) →
            s'.heads name = none ∧ s'.ledger name = fun _ => none))) := by
  refine ⟨?_, ?_, ?_⟩
  · intro policy e tip pins made rows held lists
    have consistent := wanted_consistent made
    exact ⟨lists.pass_eq consistent, fun held' lists' => lists'.pass_again consistent⟩
  · intro s event s' name gone step before after
    obtain ⟨-, -, token, -, -, -, target⟩ := step.removed before after
    simp [Entry.withdrawn, target]
  · intro quiet owned s run
    have inv := run.inv (quiet_inv quiet owned)
    refine ⟨fun event s' name gone step before after => ?_, fun quiet => ⟨inv.owned, ?_⟩⟩
    · obtain ⟨id, e, token, rfl, running, target, target'⟩ := step.removed before after
      have same : gone = e := inv.tokens id _ token running target gone before target'
      subst same
      exact ⟨id, rfl, running⟩
    · intro names s' registered once cut
      obtain ⟨each, others⟩ := cut_spec cut once
      refine ⟨cut_run quiet cut, fun name e found live => ?_, fun name withdrawn => ?_⟩
      · have member := (registered name).mpr (by rw [found]; rfl)
        obtain ⟨e', pins, found', wants, rows, kept⟩ := each name member
        rw [found] at found'
        cases found'
        exact ⟨by simpa [live] using kept, pins, wants, rows⟩
      · by_cases member : name ∈ names
        · obtain ⟨e, pins, found, wants, rows, kept⟩ := each name member
          have gone := withdrawn e found
          rw [if_pos gone] at kept
          refine ⟨kept, rows.trans ?_⟩
          unfold State.wants at wants
          split at wants
          · cases wants
            rfl
          · rename_i target
            simp [Entry.withdrawn, target] at gone
        · obtain ⟨rows, kept⟩ := others name member
          have absent : s.heads name = none := by
            rw [registered name, Option.not_isSome_iff_eq_none] at member
            exact member
          refine ⟨kept.trans absent, rows.trans ?_⟩
          by_contra filled
          have found := inv.owned name filled
          rw [absent] at found
          cases found

/-- A head is registered, and a collection's cut gives it its row. -/
theorem reconcile_orderly_sample : ∃ s s', Orderly bare s ∧ s.Quiet ∧ Cut s ["a"] s' ∧
    s'.ledger "a" = rowsOf [⟨.root, sampleRoot, true⟩] := by
  obtain ⟨-, -, runs⟩ := reconcile_orderly bare
  let s := bare.apply [("a", .head 0 fullPolicy)]
  have run : Orderly bare s := by
    refine .single ⟨.apply [("a", .head 0 fullPolicy)], ?_, .apply _⟩
    intro x member token withdrawal
    rw [List.mem_singleton] at member
    rw [member] at withdrawal
    cases withdrawal
  have registered (name : String) : name ∈ ["a"] ↔ (s.heads name).isSome := by
    by_cases same : name = "a"
    · simp [same, s, State.apply, State.put]
    · simp [same, s, State.apply, State.put, bare]
  have quiet : s.Quiet := fun _ => rfl
  have cut : Cut s ["a"] _ := .cons ⟨_, [⟨.root, sampleRoot, true⟩], [], rfl, rfl, noRows_lists, rfl⟩
    .nil
  obtain ⟨-, settled⟩ := runs (fun _ => rfl) (fun _ filled => absurd rfl filled) s run
  obtain ⟨-, heads, -⟩ := (settled quiet).2 ["a"] _ registered (by simp) cut
  obtain ⟨-, pins, wants, rows⟩ := heads "a" ⟨0, .head 0 fullPolicy⟩ rfl rfl
  cases wants
  exact ⟨s, _, run, quiet, cut, rows⟩

section Samples

def Runs : State → State → Prop :=
  Relation.ReflTransGen fun s s' => ∃ event, Step s event s'

theorem Orderly.runs {s s' : State} (run : Orderly s s') : Runs s s' := by
  induction run with
  | refl => exact .refl
  | tail _ last ih =>
    obtain ⟨event, -, step⟩ := last
    exact ih.tail ⟨event, step⟩

theorem starts {s : State} {id : Nat} {name : String} {e : Entry} (pins held : List Pin)
    {ws : List Write} (made : writes pins held = ws) (free : s.passes id = none)
    (registered : s.heads name = some e) (wants : s.wants name e = some pins)
    (lists : Lists (s.ledger name) held) :
    Runs s (s.setPass id (some ⟨name, e, .writing ws⟩)) := by
  subst made
  exact .head ⟨.start id name, .start free registered⟩ (listed_run wants lists).runs

/-- Two ways in which it goes wrong. The pass of a head adds its row after the pass of
the withdrawal has listed the rows and deleted the registration. And a pass of an older
withdrawal deletes a newer one whose token has the same address. -/
theorem reconcile_strands :
    (∃ s, Runs bare s ∧ s.Quiet ∧ s.heads "a" = none ∧ s.ledger "a" ≠ fun _ => none) ∧
    ∃ s s' id e gone, Runs bare s ∧ Step s (.finish id) s' ∧
      s.passes id = some ⟨"a", e, .writing []⟩ ∧ s.heads "a" = some gone ∧ e.made < gone.made ∧
      s'.heads "a" = none := by
  constructor
  · let head : Entry := ⟨0, .head 0 fullPolicy⟩
    let gone : Entry := ⟨1, .withdrawal 1⟩
    let row : Write := .add ⟨.root, sampleRoot, true⟩
    let s₁ := bare.apply [("a", head.target)]
    let s₂ := s₁.setPass 0 (some ⟨"a", head, .writing [row]⟩)
    let s₃ := s₂.apply [("a", gone.target)]
    let s₄ := s₃.setPass 1 (some ⟨"a", gone, .writing []⟩)
    let s₅ := (s₄.settle "a" gone).setPass 1 none
    let s₆ := (s₅.write "a" row).setPass 0 (some ⟨"a", head, .writing []⟩)
    let s₇ := (s₆.settle "a" head).setPass 0 none
    have adds : Runs s₁ s₂ :=
      starts [⟨.root, sampleRoot, true⟩] [] rfl rfl rfl rfl noRows_lists
    have drains : Runs s₃ s₄ := starts [] [] rfl rfl rfl rfl noRows_lists
    have run : Runs bare s₇ := by
      refine .head ⟨_, .apply _⟩ (adds.trans (.head ⟨_, .apply _⟩ (drains.trans ?_)))
      refine .head ⟨_, .finish rfl⟩ (.head ⟨_, .write rfl⟩ (.single ⟨_, .finish rfl⟩))
    refine ⟨s₇, run, fun id => ?_, rfl, fun empty => ?_⟩
    · have passes : s₇.passes = Function.update (Function.update (Function.update (Function.update
          (Function.update (fun _ => none) 0 _) 1 _) 1 none) 0 _) 0 none := rfl
      rw [passes]
      by_cases first : id = 0
      · simp [first]
      · by_cases second : id = 1 <;> simp [first, second]
    · have found := congrFun empty (.root, sampleRoot)
      revert found
      decide
  · let older : Entry := ⟨0, .withdrawal 1⟩
    let newer : Entry := ⟨1, .withdrawal 1⟩
    let s₁ := bare.apply [("a", older.target)]
    let s₂ := s₁.setPass 0 (some ⟨"a", older, .writing []⟩)
    let s₃ := s₂.apply [("a", newer.target)]
    have drains : Runs s₁ s₂ := starts [] [] rfl rfl rfl rfl noRows_lists
    have run : Runs bare s₃ :=
      .head ⟨_, .apply _⟩ (drains.tail ⟨_, .apply _⟩)
    exact ⟨s₃, _, 0, older, newer, run, .finish rfl, rfl, rfl, by decide, rfl⟩

end Samples

end Reconcile

end Bloar.Pinning
