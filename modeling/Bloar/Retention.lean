import Bloar.Replica
import Bloar.DagCbor

/-!
What external retention promises across two stores that share no transaction: the
follower's durable checkpoints and the controller's ledger. An admission prepares a
generation, writes the checkpoints, then commits the generation; it can stop between
any two calls out of the process.
-/

namespace Bloar.Replica
open Ipld Fallible

/-! ### What a call leaves in place -/

structure Safe (a : Cid) (w : World) : Prop where
  pinned : ∃ status, w.status a = some status ∧ status.recursive = true
  kept : a ∉ anchors w.ledger.cleanup

def Clear (a : Cid) (w : World) : Prop := a ∉ anchors w.ledger.cleanup

/-- Every outcome of `x`, a crash included, leaves `I` true if it was. -/
def Stable {α : Type} (I : World → Prop) (x : Prog World Stop α) : Prop :=
  Keeps (fun w w' => I w → I w') x

instance stable_order (I : World → Prop) : Preorder fun w w' => I w → I w' :=
  ⟨fun _ => id, fun first second => second ∘ first⟩

variable {c : Controller} {α β : Type} {I : World → Prop} {a b : Cid} {w : World}

theorem stable_pure (value : α) : Stable I (pure value : Prog World Stop α) :=
  keeps_pure value

theorem stable_fail (e : Stop) : Stable I (fail e : Prog World Stop α) :=
  keeps_fail e

theorem stable_guard (condition : Bool) (e : Stop) : Stable I (Fallible.guard condition e) :=
  keeps_guard condition e

theorem Stable.bind {x : Prog World Stop α} {next : α → Prog World Stop β}
    (first : Stable I x) (second : ∀ value, Stable I (next value)) : Stable I (x >>= next) :=
  keeps_bind first second

theorem Stable.observe {x : Prog World Stop α} (stable : Stable I x) :
    Stable I (Replica.observe x) := by
  intro w holds
  have step := stable w holds
  unfold Replica.observe
  rcases ran : x w with ⟨outcome, after⟩
  rw [ran] at step
  rcases outcome with stop | value
  · cases stop with
    | failed | crashed => exact step
  · exact step

theorem stable_checked (x : Except String α) : Stable I (checked x) := by
  cases x with
  | ok value => exact stable_pure value
  | error text => exact stable_fail _

theorem stable_returned (x : Except Err α) : Stable I (returned x) := by
  cases x with
  | ok value => exact stable_pure value
  | error e => exact stable_fail _

/-- A property of the world about the anchor `a` that survives every call of the
controller except a removal of `a` and a ledger that lists `a` for cleanup. -/
structure Watches (a : Cid) (I : World → Prop) : Prop where
  draw : ∀ w, I w → I w.draw.2
  write : ∀ w state, a ∉ anchors state.cleanup → I w → I { w with kv := some state }
  pin : ∀ w c status, status.recursive = true → I w → I (w.pin c status)
  unpin : ∀ w c, c ≠ a → I w → I (w.unpin c)

theorem draw_ledger (w : World) : w.draw.2.ledger = w.ledger := by
  unfold World.draw
  split <;> rfl

theorem draw_pins (w : World) : w.draw.2.pins = w.pins := by
  unfold World.draw
  split <;> rfl

theorem lookup_filter_ne {pins : List (Cid × PinStatus)} (other : a ≠ b) :
    (pins.filter fun pin => pin.1 != b).lookup a = pins.lookup a := by
  induction pins with
  | nil => rfl
  | cons pin rest ih =>
    obtain ⟨c, status⟩ := pin
    by_cases same : c = b
    · subst same
      have skip : (a == c) = false := by simpa using other
      simpa [List.lookup_cons, skip] using ih
    · have stays : ((c, status) :: rest).filter (fun pin => pin.1 != b) =
          (c, status) :: rest.filter fun pin => pin.1 != b := by simp [same]
      rw [stays, List.lookup_cons, List.lookup_cons, ih]

theorem status_pin (w : World) (c : Cid) (status : PinStatus) :
    (w.pin c status).status a = if a = c then some status else w.status a := by
  unfold World.pin World.status
  by_cases same : a = c
  · subst same
    simp
  · have skip : (a == c) = false := by simpa using same
    rw [if_neg same, List.lookup_cons, skip]
    exact lookup_filter_ne same

theorem status_unpin (w : World) {c : Cid} (other : a ≠ c) : (w.unpin c).status a = w.status a :=
  lookup_filter_ne other

theorem watches_safe (a : Cid) : Watches a (Safe a) where
  draw w safe := by
    obtain ⟨status, found, recursive⟩ := safe.pinned
    refine ⟨⟨status, ?_, recursive⟩, ?_⟩
    · rw [World.status, draw_pins]
      exact found
    · rw [draw_ledger]
      exact safe.kept
  write w state absent safe := ⟨safe.pinned, absent⟩
  pin w c status recursive safe := by
    refine ⟨?_, safe.kept⟩
    rw [status_pin]
    by_cases same : a = c
    · exact ⟨status, if_pos same, recursive⟩
    · rw [if_neg same]
      exact safe.pinned
  unpin w c other safe := by
    refine ⟨?_, safe.kept⟩
    rw [status_unpin w (Ne.symm other)]
    exact safe.pinned

theorem watches_clear (a : Cid) : Watches a (Clear a) where
  draw w clear := by
    unfold Clear
    rw [draw_ledger]
    exact clear
  write w state absent _ := absent
  pin w c status _ clear := clear
  unpin w c _ clear := clear

section Watches

variable (watches : Watches a I)
include watches

theorem stable_rpc {act : World → α × World} (effect : ∀ w, I w → I (act w).2) :
    Stable I (rpc act) := by
  intro w holds
  have drawn := watches.draw w holds
  unfold rpc
  rcases draw : w.draw with ⟨outcome, after⟩
  rw [draw] at drawn
  cases outcome with
  | ok => exact effect after drawn
  | failBefore => exact drawn
  | failAfter => exact effect after drawn
  | crashBefore => exact drawn
  | crashAfter => exact effect after drawn

theorem stable_pinStatus (c : Cid) : Stable I (pinStatus c) :=
  stable_rpc watches fun _ holds => holds

theorem stable_pinAddRecursive (c : Cid) (name : String) : Stable I (pinAddRecursive c name) :=
  stable_rpc watches fun w holds => watches.pin w c _ rfl holds

theorem stable_pinUpdateRecursive (old next : Cid) : Stable I (pinUpdateRecursive old next) := by
  refine Stable.bind (stable_rpc watches fun w holds => ?_) fun found => stable_guard found _
  rcases w.status old with _ | status
  · exact holds
  · by_cases recursive : status.recursive = true
    · simpa [recursive] using watches.pin w next status recursive holds
    · simpa [recursive] using holds

theorem stable_pinRemoveRecursive {c : Cid} (other : c ≠ a) : Stable I (pinRemoveRecursive c) :=
  stable_rpc watches fun w holds => watches.unpin w c other holds

theorem stable_save {state : ControllerState} (absent : a ∉ anchors state.cleanup) :
    Stable I (c.saveControllerState state) := by
  refine Stable.bind (stable_checked _) fun _ => Stable.bind (stable_checked _) fun _ =>
    Stable.bind (stable_checked _) fun _ => Stable.bind (stable_checked _) fun _ =>
    Stable.bind (stable_checked _) fun _ => ?_
  exact stable_rpc watches fun w holds => watches.write w state absent holds

theorem stable_requirePinned (r : Retained) : Stable I (c.requirePinned r) :=
  Stable.bind (stable_pinStatus watches _) fun _ => stable_returned _

end Watches

/-! ### Cleanup -/

def Returns (P : α → Prop) (x : Prog World Stop α) : Prop :=
  ∀ w value after, x w = (.ok value, after) → P value

theorem returns_pure {P : α → Prop} {value : α} (holds : P value) :
    Returns P (pure value : Prog World Stop α) := by
  intro w v after ran
  cases ran
  exact holds

theorem returns_bind {P : α → Prop} {Q : β → Prop} {x : Prog World Stop α}
    {next : α → Prog World Stop β} (first : Returns P x)
    (second : ∀ value, P value → Returns Q (next value)) : Returns Q (x >>= next) := by
  intro w result after ran
  obtain ⟨value, middle, returned, rest⟩ := (bind_ok_iff x next w after result).mp ran
  exact second value (first w value middle returned) middle result after rest

theorem returns_any (x : Prog World Stop α) : Returns (fun _ => True) x := fun _ _ _ _ => trivial

theorem Stable.bind_returns {P : α → Prop} {x : Prog World Stop α} {next : α → Prog World Stop β}
    (first : Stable I x) (ensures : Returns P x) (second : ∀ value, P value → Stable I (next value)) :
    Stable I (x >>= next) := by
  intro w holds
  have step := first w holds
  rw [bind_run]
  rcases ran : x w with ⟨outcome, middle⟩
  rw [ran] at step
  rcases outcome with e | value
  · exact step
  · exact second value (ensures w value middle ran) middle step

theorem cleanupOne_returns (stale : Retained) :
    Returns (fun one => ∀ r ∈ one.1, r = stale) (c.cleanupOne stale) := by
  refine returns_bind (returns_any _) fun status _ => ?_
  rcases status with e | status
  · exact returns_pure (by simp)
  · rcases status with _ | status
    · exact returns_pure (by simp)
    · dsimp only
      split
      · exact returns_pure (by simp)
      · refine returns_bind (returns_any _) fun removed _ => ?_
        rcases removed with e | _
        · exact returns_pure (by simp)
        · exact returns_pure (by simp)

theorem cleanupEach_returns (cleanup : List Retained) :
    Returns (fun swept => ∀ r ∈ swept.1, r ∈ cleanup) (c.cleanupEach cleanup) := by
  induction cleanup with
  | nil => exact returns_pure (by simp)
  | cons stale rest ih =>
    refine returns_bind (cleanupOne_returns stale) fun one onlyStale =>
      returns_bind ih fun more fromRest => returns_pure fun r inBoth => ?_
    rcases List.mem_append.mp inBoth with inOne | inMore
    · exact onlyStale r inOne ▸ List.mem_cons_self
    · exact List.mem_cons_of_mem stale (fromRest r inMore)

structure Swept (state left : ControllerState) : Prop where
  current : left.current = state.current
  pending : left.pending = state.pending
  cleanup : ∀ r ∈ left.cleanup, r ∈ state.cleanup

theorem Swept.refl (state : ControllerState) : Swept state state := ⟨rfl, rfl, fun _ => id⟩

theorem Swept.absent {state left : ControllerState} (swept : Swept state left)
    (absent : a ∉ anchors state.cleanup) : a ∉ anchors left.cleanup := by
  intro listed
  obtain ⟨r, inLeft, same⟩ := List.mem_map.mp listed
  exact absent (List.mem_map.mpr ⟨r, swept.cleanup r inLeft, same⟩)

theorem cleanupLocked_returns (state : ControllerState) :
    Returns (fun cleaned => Swept state cleaned.1) (c.cleanupLocked state) := by
  unfold Controller.cleanupLocked
  split
  · exact returns_pure (Swept.refl state)
  · refine returns_bind (cleanupEach_returns _) fun swept shorter =>
      returns_bind (returns_any _) fun saved _ => ?_
    rcases saved with e | _
    · exact returns_pure ⟨rfl, rfl, shorter⟩
    · exact returns_pure ⟨rfl, rfl, shorter⟩

section Watches

variable (watches : Watches a I)
include watches

theorem stable_cleanupOne {stale : Retained} (other : stale.anchor ≠ a) :
    Stable I (c.cleanupOne stale) := by
  refine Stable.bind (stable_pinStatus watches _).observe fun status => ?_
  rcases status with e | status
  · exact stable_pure _
  · rcases status with _ | status
    · exact stable_pure _
    · dsimp only
      split
      · exact stable_pure _
      · refine Stable.bind (stable_pinRemoveRecursive watches other).observe fun removed => ?_
        rcases removed with e | _
        · exact stable_pure _
        · exact stable_pure _

theorem stable_cleanupEach {cleanup : List Retained} (absent : a ∉ anchors cleanup) :
    Stable I (c.cleanupEach cleanup) := by
  induction cleanup with
  | nil => exact stable_pure _
  | cons stale rest ih =>
    have other : stale.anchor ≠ a := Ne.symm (List.ne_of_not_mem_cons absent)
    exact Stable.bind (stable_cleanupOne watches other) fun _ =>
      Stable.bind (ih (List.not_mem_of_not_mem_cons absent)) fun _ => stable_pure _

/-- Cleanup never touches an anchor that is not on the list. -/
theorem stable_cleanupLocked {state : ControllerState} (absent : a ∉ anchors state.cleanup) :
    Stable I (c.cleanupLocked state) := by
  unfold Controller.cleanupLocked
  split
  · exact stable_pure _
  · refine Stable.bind_returns (stable_cleanupEach watches absent) (cleanupEach_returns _)
      fun swept shorter => ?_
    have still : a ∉ anchors swept.1 := by
      intro listed
      obtain ⟨r, inSwept, same⟩ := List.mem_map.mp listed
      exact absent (List.mem_map.mpr ⟨r, shorter r inSwept, same⟩)
    refine Stable.bind (stable_save watches still).observe fun saved => ?_
    rcases saved with e | _
    · exact stable_pure _
    · exact stable_pure _

theorem stable_settle {state : ControllerState} (absent : a ∉ anchors state.cleanup) :
    Stable I (do let cleaned ← c.cleanupLocked state; pure cleaned.2) :=
  Stable.bind (stable_cleanupLocked watches absent) fun _ => stable_pure _

theorem stable_transitionFailure {state : ControllerState} {primary : Err}
    (absent : a ∉ anchors state.cleanup) :
    Stable I (c.transitionFailure state primary : Prog World Stop α) :=
  Stable.bind (stable_cleanupLocked watches absent) fun _ => stable_fail _

end Watches

/-! ### Prepare, commit and recover -/

theorem absent_appendCleanup {cleanup : List Retained} {r : Retained}
    (absent : a ∉ anchors cleanup) (other : r.anchor ≠ a) : a ∉ anchors (appendCleanup cleanup r) := by
  unfold appendCleanup
  split
  · exact absent
  · intro listed
    rw [anchors, List.map_append, List.mem_append] at listed
    rcases listed with inOld | isNew
    · exact absent inOld
    · exact other (List.mem_singleton.mp isNew).symm

theorem absent_removeCleanup {cleanup : List Retained} (absent : a ∉ anchors cleanup) :
    a ∉ anchors (removeCleanup cleanup b) := by
  intro listed
  obtain ⟨r, left, same⟩ := List.mem_map.mp listed
  exact absent (List.mem_map.mpr ⟨r, List.mem_of_mem_filter left, same⟩)

theorem removed_removeCleanup (cleanup : List Retained) : a ∉ anchors (removeCleanup cleanup a) := by
  intro listed
  obtain ⟨r, left, same⟩ := List.mem_map.mp listed
  simpa [same] using (List.mem_filter.mp left).2

/-- Turning to `next` retires no pending generation anchored at `a`. -/
def Spares (a next : Cid) (state : ControllerState) : Prop :=
  ∀ p, superseded state next = some p → p.anchor ≠ a

theorem returns_guard_bind {Q : β → Prop} {condition : Bool} {e : Stop}
    {next : Unit → Prog World Stop β} (rest : Returns Q (next ())) :
    Returns Q (Fallible.guard condition e >>= next) :=
  returns_bind (returns_any _) fun _ _ => rest

theorem retirePending_returns {state : ControllerState} {next : Cid}
    (absent : a ∉ anchors state.cleanup) (spares : Spares a next state) :
    Returns (fun left => a ∉ anchors left.cleanup) (c.retirePending state next) := by
  unfold Controller.retirePending
  rcases old : superseded state next with _ | p
  · exact returns_pure absent
  · refine returns_bind (cleanupLocked_returns state) fun cleaned swept =>
      returns_guard_bind (returns_pure ?_)
    exact absent_appendCleanup (swept.absent absent) (spares p old)

theorem reserveSlot_returns {state : ControllerState} {next : Cid} {text : String}
    (absent : a ∉ anchors state.cleanup) :
    Returns (fun left => left.current = state.current ∧ a ∉ anchors left.cleanup)
      (c.reserveSlot state next text) := by
  unfold Controller.reserveSlot
  split
  · refine returns_bind (cleanupLocked_returns state) fun cleaned swept =>
      returns_guard_bind (returns_pure ?_)
    exact ⟨swept.current, swept.absent absent⟩
  · exact returns_pure ⟨rfl, absent⟩

section Watches

variable (watches : Watches a I)
include watches

variable {state : ControllerState} {next : Cid}

theorem stable_retirePending (absent : a ∉ anchors state.cleanup) :
    Stable I (c.retirePending state next) := by
  unfold Controller.retirePending
  rcases superseded state next with _ | p
  · exact stable_pure _
  · exact Stable.bind (stable_cleanupLocked watches absent) fun _ =>
      Stable.bind (stable_guard _ _) fun _ => stable_pure _

theorem stable_reserveSlot {text : String} (absent : a ∉ anchors state.cleanup) :
    Stable I (c.reserveSlot state next text) := by
  unfold Controller.reserveSlot
  split
  · exact Stable.bind (stable_cleanupLocked watches absent) fun _ =>
      Stable.bind (stable_guard _ _) fun _ => stable_pure _
  · exact stable_pure _

theorem stable_observed {x : Prog World Stop Unit} (kept : Stable I x)
    (absent : a ∉ anchors state.cleanup) :
    Stable I (do
      match ← observe x with
      | .error e => c.transitionFailure state e
      | .ok _ => pure ()) := by
  refine Stable.bind kept.observe fun observed => ?_
  rcases observed with e | _
  · exact stable_transitionFailure watches absent
  · exact stable_pure _

theorem stable_pinCandidate (absent : a ∉ anchors state.cleanup) :
    Stable I (c.pinCandidate state next) := by
  have add := stable_observed watches (stable_pinAddRecursive watches next c.pinName) absent (c := c)
  unfold Controller.pinCandidate
  rcases state.current with _ | ⟨generation, old, ownership, retainedAt⟩
  · exact add
  · cases ownership with
    | borrowed => exact add
    | owned =>
      refine Stable.bind (stable_pinStatus watches old) fun status => ?_
      rcases c.pinnedAs .owned status with e | _
      · exact stable_fail _
      · exact stable_observed watches (stable_pinUpdateRecursive watches old next) absent

theorem stable_verifyCandidate {ownership : Ownership} (absent : a ∉ anchors state.cleanup) :
    Stable I (c.verifyCandidate state next ownership) := by
  refine Stable.bind (stable_pinStatus watches next).observe fun status => ?_
  rcases status with e | status
  · exact stable_transitionFailure watches absent
  · dsimp only
    rcases c.pinnedAs ownership status with e | _
    · exact stable_transitionFailure watches absent
    · exact stable_pure _

theorem stable_dropPending {current : Retained} (absent : a ∉ anchors state.cleanup)
    (spares : Spares a current.anchor state) : Stable I (c.dropPending state current) := by
  unfold Controller.dropPending
  rcases pending : state.pending with _ | p
  · exact stable_settle watches absent
  · dsimp only
    split
    · rename_i superseding
      have retired : a ∉ anchors (if p.ownership = .owned then appendCleanup state.cleanup p
          else state.cleanup) := by
        split
        · rename_i owned
          refine absent_appendCleanup absent (spares p ?_)
          simp [superseded, pending, superseding, owned]
        · exact absent
      exact Stable.bind (stable_save watches retired) fun _ => stable_settle watches retired
    · exact stable_settle watches absent

theorem stable_pinPending {found : Option PinStatus} {ownership : Ownership}
    (absent : a ∉ anchors state.cleanup) : Stable I (c.pinPending state found next ownership) := by
  refine Stable.bind (stable_save watches absent) fun _ => ?_
  split
  · exact Stable.bind (stable_pinCandidate watches absent) fun _ =>
      Stable.bind (stable_verifyCandidate watches absent) fun _ => stable_settle watches absent
  · exact Stable.bind (stable_verifyCandidate watches absent) fun _ => stable_settle watches absent

theorem stable_prepareNext {now : Int} {n : Generation} (absent : a ∉ anchors state.cleanup)
    (spares : Spares a (c.anchor n) state) : Stable I (c.prepareNext now state n) := by
  refine Stable.bind (stable_pinStatus watches _) fun found =>
    Stable.bind (stable_returned _) fun ownership =>
    Stable.bind_returns (stable_retirePending watches absent)
      (retirePending_returns absent spares) fun retired absent =>
    Stable.bind_returns (stable_reserveSlot watches absent) (reserveSlot_returns absent)
      fun reserved kept => ?_
  exact stable_pinPending watches (absent_removeCleanup kept.2)

end Watches

/-! ### Runs from a known world -/

variable {g n : Generation} {expired : Bool} {now : Int} {after : World} {debts : List Err}

variable {x : Prog World Stop α} {value : α} {state : ControllerState} {u : Unit}
  {ownership : Ownership}

theorem bind_stays {next : α → Prog World Stop β} (first : I (x w).2)
    (second : ∀ value middle, x w = (.ok value, middle) → I middle → I (next value middle).2) :
    I ((x >>= next) w).2 := by
  rw [bind_run]
  rcases ran : x w with ⟨outcome, middle⟩
  rw [ran] at first
  rcases outcome with e | value
  · exact first
  · exact second value middle ran first

theorem rpc_ok {act : World → α × World} (ran : rpc act w = (.ok value, after)) :
    (act w.draw.2) = (value, after) := by
  unfold rpc at ran
  rcases draw : w.draw with ⟨outcome, drawn⟩
  rw [draw] at ran
  cases outcome with
  | ok =>
    cases ran
    rfl
  | failBefore | failAfter | crashBefore | crashAfter => cases ran

theorem checked_ok {x : Except String α} (ran : checked x w = (.ok value, after)) :
    x = .ok value ∧ after = w := by
  cases x with
  | ok v =>
    cases ran
    exact ⟨rfl, rfl⟩
  | error text => cases ran

theorem returned_ok {x : Except Err α} (ran : returned x w = (.ok value, after)) :
    x = .ok value ∧ after = w := by
  cases x with
  | ok v =>
    cases ran
    exact ⟨rfl, rfl⟩
  | error e => cases ran

theorem loadState_ok (ran : c.loadState w = (.ok state, after)) :
    state = w.ledger ∧ after = w ∧ validateControllerState state = .ok () := by
  obtain ⟨seen, _, got, ran⟩ := (bind_ok_iff _ _ _ _ _).mp ran
  cases got
  obtain ⟨_, _, valid, ran⟩ := (bind_ok_iff _ _ _ _ _).mp ran
  obtain ⟨valid, rfl⟩ := checked_ok valid
  obtain ⟨_, _, mine, ran⟩ := (bind_ok_iff _ _ _ _ _).mp ran
  obtain ⟨_, rfl⟩ := checked_ok mine
  cases ran
  exact ⟨rfl, rfl, valid⟩

theorem stable_loadState : Stable I c.loadState :=
  Stable.bind keeps_get fun _ => Stable.bind (stable_checked _) fun _ =>
    Stable.bind (stable_checked _) fun _ => stable_pure _

variable {status : Option PinStatus} {r : Retained} {seen : List Cid}

theorem pinStatus_ok (ran : pinStatus a w = (.ok status, after)) :
    status = after.status a ∧ after.ledger = w.ledger := by
  have acted := rpc_ok ran
  cases acted
  exact ⟨rfl, draw_ledger w⟩

theorem putBlock_ok {block : Block} (ran : putBlock block w = (.ok u, after)) :
    after.ledger = w.ledger := by
  have acted := rpc_ok ran
  cases acted
  exact draw_ledger w

theorem pinnedAs_ok (ok : c.pinnedAs ownership status = .ok u) :
    ∃ s, status = some s ∧ s.recursive = true := by
  rcases status with _ | status
  · cases ok
  · unfold Controller.pinnedAs at ok
    by_cases recursive : status.recursive = true
    · exact ⟨status, rfl, recursive⟩
    · simp [recursive] at ok

theorem save_ok (ran : c.saveControllerState state w = (.ok u, after)) : after.ledger = state := by
  iterate 5
    obtain ⟨_, _, _, ran⟩ := (bind_ok_iff _ _ _ _ _).mp ran
  have acted := rpc_ok ran
  cases acted
  rfl

theorem requirePinned_ok (ran : c.requirePinned r w = (.ok u, after)) (clear : Clear r.anchor w) :
    Safe r.anchor after := by
  obtain ⟨status, middle, read, checks⟩ := (bind_ok_iff _ _ _ _ _).mp ran
  obtain ⟨passed, rfl⟩ := returned_ok checks
  obtain ⟨same, ledger⟩ := pinStatus_ok read
  obtain ⟨found, isFound, recursive⟩ := pinnedAs_ok passed
  refine ⟨⟨found, same ▸ isFound, recursive⟩, ?_⟩
  rw [ledger]
  exact clear

theorem checkAnchor_ok {seen' : List Cid} (ok : checkAnchor seen r = .ok seen') :
    r.anchor ∉ seen ∧ seen' = r.anchor :: seen := by
  unfold checkAnchor at ok
  split at ok
  · cases ok
  · rename_i fresh
    cases ok
    exact ⟨fresh, rfl⟩

theorem checkCleanup_absent {cleanup : List Retained} (ok : checkCleanup seen cleanup = .ok u) :
    ∀ anchor ∈ seen, anchor ∉ anchors cleanup := by
  induction cleanup generalizing seen with
  | nil => simp [anchors]
  | cons r rest ih =>
    intro anchor inSeen listed
    unfold checkCleanup at ok
    rcases refused : refuse (r.ownership ≠ .owned)
      "replica: cleanup generation has non-owned ownership" with text | _
    · rw [refused] at ok
      cases ok
    · rw [refused] at ok
      rcases added : checkAnchor seen r with text | seen'
      · simp only [added, bind, Except.bind] at ok
        cases ok
      · simp only [added, bind, Except.bind] at ok
        obtain ⟨fresh, rfl⟩ := checkAnchor_ok added
        rcases List.mem_cons.mp listed with same | below
        · exact fresh (same ▸ inSeen)
        · exact ih ok anchor (List.mem_cons_of_mem _ inSeen) below

/-- A ledger that passes its own check lists no current anchor for cleanup. -/
theorem current_not_cleanup {current : Retained} (valid : validateControllerState state = .ok ())
    (isCurrent : state.current = some current) : current.anchor ∉ anchors state.cleanup := by
  have first : checkSlot [] (some current) = .ok [current.anchor] := by
    simp [checkSlot, checkAnchor]
  unfold validateControllerState at valid
  simp only [isCurrent, first, bind, Except.bind] at valid
  rcases pending : checkSlot [current.anchor] state.pending with text | seen
  · rw [pending] at valid
    cases valid
  · rw [pending] at valid
    refine checkCleanup_absent valid current.anchor ?_
    rcases slot : state.pending with _ | p
    · rw [slot] at pending
      cases pending
      exact List.mem_singleton_self _
    · rw [slot] at pending
      obtain ⟨_, rfl⟩ := checkAnchor_ok pending
      exact List.mem_cons_of_mem _ (List.mem_singleton_self _)

theorem transitionFailure_not_ok {primary : Err} :
    (c.transitionFailure state primary : Prog World Stop α) w ≠ (.ok value, after) := by
  intro ran
  obtain ⟨_, _, _, stopped⟩ := (bind_ok_iff _ _ _ _ _).mp ran
  cases stopped

theorem observe_ok {result : Except Err α} (ran : observe x w = (.ok result, after)) :
    (∃ value, result = .ok value ∧ x w = (.ok value, after)) ∨ ∃ e, result = .error e := by
  unfold observe at ran
  rcases inner : x w with ⟨outcome, middle⟩
  rw [inner] at ran
  rcases outcome with stop | value
  · cases stop with
    | failed e =>
      cases ran
      exact .inr ⟨e, rfl⟩
    | crashed => cases ran
  · cases ran
    exact .inl ⟨value, rfl, rfl⟩

theorem verifyCandidate_ok (ran : c.verifyCandidate state a ownership w = (.ok u, after))
    (clear : Clear a w) : Safe a after := by
  obtain ⟨result, middle, read, ran⟩ := (bind_ok_iff _ _ _ _ _).mp ran
  rcases observe_ok read with ⟨status, rfl, inner⟩ | ⟨e, rfl⟩
  · obtain ⟨same, ledger⟩ := pinStatus_ok inner
    rcases passed : c.pinnedAs ownership status with e | _
    · simp only [passed] at ran
      exact absurd ran transitionFailure_not_ok
    · simp only [passed] at ran
      cases ran
      obtain ⟨found, isFound, recursive⟩ := pinnedAs_ok passed
      refine ⟨⟨found, same ▸ isFound, recursive⟩, ?_⟩
      rw [ledger]
      exact clear
  · exact absurd ran transitionFailure_not_ok

theorem Stable.ran (stable : Stable I x) {outcome : Except Stop α} (ran : x w = (outcome, after))
    (holds : I w) : I after := by
  have step := stable w holds
  rw [ran] at step
  exact step

theorem pinPending_ok {found : Option PinStatus}
    (ran : c.pinPending state found a ownership w = (.ok debts, after))
    (absent : a ∉ anchors state.cleanup) : Safe a after := by
  obtain ⟨_, saved, wrote, ran⟩ := (bind_ok_iff _ _ _ _ _).mp ran
  have clear : Clear a saved := by
    unfold Clear
    rw [save_ok wrote]
    exact absent
  -- what follows the optional pin is the same on both branches
  have finish : ∀ middle, Clear a middle → (do
        c.verifyCandidate state a ownership
        let cleaned ← c.cleanupLocked state
        pure cleaned.2 : Prog World Stop (List Err)) middle = (.ok debts, after) → Safe a after := by
    intro middle clear ran
    obtain ⟨_, verified, checks, ran⟩ := (bind_ok_iff _ _ _ _ _).mp ran
    exact (stable_settle (watches_safe a) absent).ran ran (verifyCandidate_ok checks clear)
  by_cases missing : found.isNone = true
  · simp only [missing, if_true] at ran
    obtain ⟨_, middle, pinned, ran⟩ := (bind_ok_iff _ _ _ _ _).mp ran
    exact finish middle ((stable_pinCandidate (watches_clear a) absent).ran pinned clear) ran
  · simp only [missing, if_false, Bool.false_eq_true] at ran
    exact finish saved clear ran

theorem prepareNext_ok (ran : c.prepareNext now state n w = (.ok debts, after)) :
    Safe (c.anchor n) after := by
  iterate 4
    obtain ⟨_, _, _, ran⟩ := (bind_ok_iff _ _ _ _ _).mp ran
  exact pinPending_ok ran (removed_removeCleanup _)

theorem spares_self : Spares a a state := by
  intro p retired
  have differs := (Option.filter_eq_some_iff.mp retired).2
  intro same
  simp [same] at differs

theorem prepare_ok (ran : c.prepare expired now g w = (.ok debts, after)) :
    ∃ n, c.candidate g = .ok n ∧ Safe (c.anchor n) after := by
  obtain ⟨_, _, _, ran⟩ := (bind_ok_iff _ _ _ _ _).mp ran
  obtain ⟨n, _, normalized, ran⟩ := (bind_ok_iff _ _ _ _ _).mp ran
  obtain ⟨isCandidate, _⟩ := checked_ok normalized
  obtain ⟨_, _, _, ran⟩ := (bind_ok_iff _ _ _ _ _).mp ran
  obtain ⟨state, loaded, load, rest⟩ := (bind_ok_iff _ _ _ _ _).mp ran
  obtain ⟨same, rfl, valid⟩ := loadState_ok load
  refine ⟨n, isCandidate, ?_⟩
  rcases slot : state.current with _ | current
  · simp only [slot] at rest
    exact prepareNext_ok rest
  · simp only [slot] at rest
    by_cases already : current.anchor = c.anchor n
    · rw [if_pos already] at rest
      have absent := current_not_cleanup valid slot
      obtain ⟨_, middle, checks, rest⟩ := (bind_ok_iff _ _ _ _ _).mp rest
      have clear : Clear current.anchor loaded := by
        rw [Clear, ← same]
        exact absent
      have safe : Safe current.anchor middle := requirePinned_ok checks clear
      rw [← already]
      exact (stable_dropPending (watches_safe _) absent spares_self).ran rest safe
    · rw [if_neg already] at rest
      exact prepareNext_ok rest

theorem prepare_safe (safe : Safe a w)
    (spares : ∀ n, c.candidate g = .ok n → Spares a (c.anchor n) w.ledger) :
    Safe a (c.prepare expired now g w).2 := by
  have watches := watches_safe a
  refine bind_stays (stable_guard _ _ w safe) fun _ started guarded safe => ?_
  obtain rfl : started = w := by
    cases expired with
    | false =>
      cases guarded
      rfl
    | true => cases guarded
  refine bind_stays (stable_checked _ _ safe) fun n _ normalized safe => ?_
  obtain ⟨isCandidate, rfl⟩ := checked_ok normalized
  refine bind_stays (stable_rpc watches (fun _ holds => holds) _ safe) fun _ put wrote safe => ?_
  refine bind_stays (stable_loadState _ safe) fun state loaded load safe => ?_
  obtain ⟨rfl, rfl, valid⟩ := loadState_ok load
  have spared : Spares a (c.anchor n) loaded.ledger := by
    rw [putBlock_ok wrote]
    exact spares n isCandidate
  have next : Safe a (c.prepareNext now loaded.ledger n loaded).2 :=
    stable_prepareNext watches safe.kept spared loaded safe
  rcases slot : loaded.ledger.current with _ | current
  · exact next
  · dsimp only
    split
    · rename_i already
      refine Stable.bind (stable_requirePinned watches current)
        (fun _ => stable_dropPending watches safe.kept ?_) loaded safe
      rw [already]
      exact spared
    · exact next

theorem commit_safe (isCandidate : c.candidate g = .ok n) (safe : Safe (c.anchor n) w) :
    Safe (c.anchor n) (c.commit now g w).2 := by
  have watches := watches_safe (c.anchor n)
  refine bind_stays (stable_checked _ _ safe) fun m _ normalized safe => ?_
  obtain ⟨isNormal, rfl⟩ := checked_ok normalized
  obtain rfl : m = n := Except.ok.inj (isNormal.symm.trans isCandidate)
  refine bind_stays (stable_loadState _ safe) fun state loaded load safe => ?_
  obtain ⟨rfl, rfl, valid⟩ := loadState_ok load
  dsimp only
  rcases slot : loaded.ledger.pending.filter _ with _ | committed
  · dsimp only
    split
    · exact stable_settle watches safe.kept loaded safe
    · exact stable_fail _ loaded safe
  · have isAnchor : committed.anchor = c.anchor m := by
      have passed := (Option.filter_eq_some_iff.mp slot).2
      simp only [Bool.and_eq_true, decide_eq_true_eq] at passed
      exact passed.1
    refine Stable.bind (stable_requirePinned watches committed) (fun _ =>
      Stable.bind_returns (stable_reserveSlot watches safe.kept) (reserveSlot_returns safe.kept)
        fun reserved kept => ?_) loaded safe
    have still : c.anchor m ∉ anchors (promote now reserved committed).cleanup := by
      unfold promote
      rcases reserved.current with _ | previous
      · exact kept.2
      · dsimp only
        split
        · rename_i replaced
          exact absent_appendCleanup kept.2 (isAnchor ▸ replaced.1)
        · exact kept.2
    exact Stable.bind (stable_save watches still) fun _ => stable_settle watches still

theorem finish_safe {state : ControllerState} (kept : a ∉ anchors state.cleanup) :
    Stable (Safe a) (do
      match state.pending with
        | some pending =>
          let found ← pinStatus pending.anchor
          if found.isSome then c.requirePinned pending
        | none => pure ()
      let cleaned ← c.cleanupLocked state
      pure cleaned.2 : Prog World Stop (List Err)) := by
  have watches := watches_safe a
  rcases state.pending with _ | pending
  · exact stable_settle watches kept
  · refine Stable.bind (stable_pinStatus watches _) fun found => ?_
    split
    · exact Stable.bind (stable_requirePinned watches _) fun _ => stable_settle watches kept
    · exact stable_settle watches kept

theorem recover_safe (safe : Safe a w) : Safe a (c.recover w).2 := by
  have watches := watches_safe a
  refine bind_stays (stable_loadState _ safe) fun state loaded load safe => ?_
  obtain ⟨rfl, rfl, valid⟩ := loadState_ok load
  refine Stable.bind (stable_rpc watches fun _ holds => holds) (fun named =>
    Stable.bind (stable_guard _ _) fun _ => ?_) loaded safe
  rcases loaded.ledger.current with _ | current
  · exact finish_safe safe.kept
  · exact Stable.bind (stable_requirePinned watches _) fun _ => finish_safe safe.kept

theorem protectsAll_safe {wants : List Head} (safe : Safe a w) :
    Safe a (c.protectsAll wants w).2 := by
  refine Stable.bind stable_loadState (fun state => ?_) w safe
  split
  · exact Stable.bind (stable_requirePinned (watches_safe a) _) fun _ => stable_pure _
  · exact stable_fail _

/-! ### Admissions across both stores -/

inductive Phase where
  | down
  | idle
  | prepared (g : Generation)
  | checkpointed (g : Generation)
  deriving DecidableEq, Repr

structure System where
  world : World
  checkpoint : Option Generation
  phase : Phase
  deriving DecidableEq

def System.fresh (pins : List (Cid × PinStatus)) : System :=
  { world := { kv := none, pins, script := [] }, checkpoint := none, phase := .down }

/-- What happens next. A script says how the calls out of the process go. -/
inductive Event where
  | restart (script : List Outcome)
  | prepare (script : List Outcome) (expired : Bool) (now : Int) (g : Generation)
  | checkpoint
  | commit (script : List Outcome) (now : Int)
  /-- the checkpoint write failed, or `Commit` was skipped -/
  | abandon
  | crash

def World.meets (w : World) (script : List Outcome) : World := { w with script }

/-- Startup: `Recover`, then `ProtectsAll` for the checkpoint's heads before any of them
is exposed. -/
def Controller.resume (checkpoint : Option Generation) : Prog World Stop Unit := do
  let _ ← c.recover
  match checkpoint with
  | none => pure ()
  | some g =>
    let _ ← c.protectsAll g.heads
    pure ()

def Phase.reached (next failed : Phase) {α : Type} : Except Stop α → Phase
  | .ok _ => next
  | .error (.failed _) => failed
  | .error .crashed => .down

variable (c) in
def System.step (s : System) : Event → Option System
  | .restart script =>
    if s.phase = .down then
      let (result, world) := c.resume s.checkpoint (s.world.meets script)
      some { s with world, phase := Phase.reached .idle .down result }
    else none
  | .prepare script expired now g =>
    if s.phase = .idle then
      let (result, world) := c.prepare expired now g (s.world.meets script)
      some { s with world, phase := Phase.reached (.prepared g) .idle result }
    else none
  | .checkpoint =>
    match s.phase with
    | .prepared g => some { s with checkpoint := some g, phase := .checkpointed g }
    | _ => none
  | .commit script now =>
    match s.phase with
    | .checkpointed g =>
      let (result, world) := c.commit now g (s.world.meets script)
      some { s with world, phase := Phase.reached .idle .idle result }
    | _ => none
  | .abandon =>
    match s.phase with
    | .prepared _ | .checkpointed _ => some { s with phase := .idle }
    | _ => none
  | .crash => some { s with phase := .down }

def System.Protected (c : Controller) (s : System) : Prop :=
  ∀ g, s.checkpoint = some g → ∃ n, c.candidate g = .ok n ∧
    ∃ status, s.world.status (c.anchor n) = some status ∧ status.recursive = true

/-- A checkpointed generation is promoted before another one is prepared: what `Prepare`
supersedes is not the pending generation that the checkpoints name. -/
def System.Promoted (c : Controller) (s : System) : Event → Prop
  | .prepare _ _ _ g => ∀ d m n, s.checkpoint = some d → c.candidate d = .ok m →
      c.candidate g = .ok n → Spares (c.anchor m) (c.anchor n) s.world.ledger
  | _ => True

inductive System.Reaches (c : Controller) (guard : System → Event → Prop) (start : System) :
    System → Prop where
  | refl : System.Reaches c guard start start
  | step {s s' : System} {e : Event} (before : System.Reaches c guard start s) (met : guard s e)
      (taken : s.step c e = some s') : System.Reaches c guard start s'

structure System.Sound (c : Controller) (s : System) : Prop where
  checkpoint : ∀ g, s.checkpoint = some g →
    ∃ n, c.candidate g = .ok n ∧ Safe (c.anchor n) s.world
  prepared : ∀ g, s.phase = .prepared g →
    ∃ n, c.candidate g = .ok n ∧ Safe (c.anchor n) s.world
  checkpointed : ∀ g, s.phase = .checkpointed g → s.checkpoint = some g

theorem Safe.meets (safe : Safe a w) (script : List Outcome) : Safe a (w.meets script) :=
  ⟨safe.pinned, safe.kept⟩

theorem resume_safe {checkpoint : Option Generation} (safe : Safe a w) :
    Safe a (c.resume checkpoint w).2 := by
  refine bind_stays (recover_safe safe) fun _ recovered _ safe => ?_
  rcases checkpoint with _ | d
  · exact safe
  · exact bind_stays (protectsAll_safe safe) fun _ _ _ safe => safe

variable {failed : Phase} {outcome : Except Stop α} {s : System} {phase : Phase}

theorem reached_prepared {next : Phase} (phase : Phase.reached next failed outcome = .prepared g)
    (other : failed ≠ .prepared g) : ∃ value, outcome = .ok value ∧ next = .prepared g := by
  rcases outcome with stop | value
  · cases stop with
    | failed e => exact absurd phase other
    | crashed => cases phase
  · exact ⟨value, rfl, phase⟩

theorem reached_checkpointed {next : Phase}
    (phase : Phase.reached next failed outcome = .checkpointed g) :
    next = .checkpointed g ∨ failed = .checkpointed g := by
  rcases outcome with stop | value
  · cases stop with
    | failed e => exact .inr phase
    | crashed => cases phase
  · exact .inl phase

/-- A call that keeps the checkpoint's anchor and leaves no half-done admission. -/
theorem System.Sound.call {world : World} (sound : s.Sound c)
    (keeps : ∀ g n, s.checkpoint = some g → c.candidate g = .ok n → Safe (c.anchor n) s.world →
      Safe (c.anchor n) world)
    (prepared : ∀ g, phase = .prepared g → ∃ n, c.candidate g = .ok n ∧ Safe (c.anchor n) world)
    (checkpointed : ∀ g, phase ≠ .checkpointed g) :
    System.Sound c { s with world, phase } where
  checkpoint g named := by
    obtain ⟨n, isCandidate, safe⟩ := sound.checkpoint g named
    exact ⟨n, isCandidate, keeps g n named isCandidate safe⟩
  prepared := prepared
  checkpointed g now := absurd now (checkpointed g)

theorem System.Sound.halt (sound : s.Sound c) (rests : phase = .down ∨ phase = .idle) :
    System.Sound c { s with phase } := by
  refine sound.call (fun _ _ _ _ safe => safe) ?_ ?_
  · rintro g rfl
    rcases rests with wrong | wrong <;> cases wrong
  · rintro g rfl
    rcases rests with wrong | wrong <;> cases wrong

theorem System.Sound.step {s' : System} {e : Event} (sound : s.Sound c)
    (promoted : s.Promoted c e) (taken : s.step c e = some s') : s'.Sound c := by
  cases e with
  | restart script =>
    simp only [System.step] at taken
    split at taken
    · cases taken
      refine sound.call (fun g n _ _ safe => resume_safe (safe.meets script)) ?_ ?_
      · intro g phase
        obtain ⟨_, _, wrong⟩ := reached_prepared phase (by simp)
        cases wrong
      · intro g phase
        rcases reached_checkpointed phase with wrong | wrong <;> cases wrong
    · cases taken
  | prepare script expired now g =>
    simp only [System.step] at taken
    split at taken
    · cases taken
      refine sound.call (fun d m named isCandidate safe => ?_) ?_ ?_
      · exact prepare_safe (safe.meets script) fun n isNext =>
          promoted d m n named isCandidate isNext
      · intro d phase
        obtain ⟨debts, ended, isNext⟩ := reached_prepared phase (by simp)
        cases isNext
        exact prepare_ok (Prod.ext ended rfl)
      · intro d phase
        rcases reached_checkpointed phase with wrong | wrong <;> cases wrong
    · cases taken
  | checkpoint =>
    simp only [System.step] at taken
    split at taken
    · rename_i g phase
      cases taken
      refine ⟨fun d named => ?_, fun d wrong => (by cases wrong), fun d now => ?_⟩
      · cases named
        exact sound.prepared g phase
      · cases now
        rfl
    · cases taken
  | commit script now =>
    simp only [System.step] at taken
    split at taken
    · rename_i g phase
      cases taken
      refine sound.call (fun d m named isCandidate safe => ?_) ?_ ?_
      · rw [sound.checkpointed g phase] at named
        cases named
        exact commit_safe isCandidate (safe.meets script)
      · intro d phase
        obtain ⟨_, _, wrong⟩ := reached_prepared phase (by simp)
        cases wrong
      · intro d phase
        rcases reached_checkpointed phase with wrong | wrong <;> cases wrong
    · cases taken
  | abandon =>
    simp only [System.step] at taken
    split at taken
    · cases taken
      exact sound.halt (.inr rfl)
    · cases taken
      exact sound.halt (.inr rfl)
    · cases taken
  | crash =>
    cases taken
    exact sound.halt (.inl rfl)

theorem System.Sound.fresh (pins : List (Cid × PinStatus)) : (System.fresh pins).Sound c where
  checkpoint _ named := by cases named
  prepared _ phase := by cases phase
  checkpointed _ phase := by cases phase

theorem System.Reaches.sound {start : System}
    (reached : System.Reaches c (System.Promoted c) start s) (sound : start.Sound c) :
    s.Sound c := by
  induction reached with
  | refl => exact sound
  | step before met taken ih => exact ih.step met taken

/-! ### An admission that stops before `Commit` -/

def Controller.owns (c : Controller) (g : Generation) : Retained :=
  { generation := g, anchor := c.anchor g, ownership := .owned, retainedAt := 0 }

def Controller.awaits (c : Controller) (g : Generation) (cleanup : List Retained) :
    ControllerState :=
  { current := none, pending := some (c.owns g), cleanup }

def Controller.holds (c : Controller) (g : Generation) : World :=
  { kv := some (c.awaits g []), pins := [(c.anchor g, { recursive := true, name := c.pinName })],
    script := [] }

def Controller.stopped (c : Controller) (g : Generation) (phase : Phase) : System :=
  { world := c.holds g, checkpoint := some g, phase }

def sampleController : Controller :=
  { ipld := DagCbor.codec, replicaID := "r", pinName := "bloar", stateBytes := fun _ => 0 }

def sampleHead : Head :=
  { name := "h", manifest := none, syncedTo := 1
    root := some { version := 1, codec := dagCBOR
                   hash := { code := sha2_256, length := 32, digest := ⟨0⟩ } } }

def sampleGeneration (updatedAt : Nat) : Generation :=
  { replicaID := "r", updatedAt, heads := [sampleHead] }

/-- The first admission of a process that stops before `Commit`, and the restart after it. -/
theorem stopped_reached (guard : System → Event → Prop)
    (free : ∀ s e, s.checkpoint = none → guard s e)
    (quiet : ∀ s, guard s .crash ∧ guard s (.restart [])) :
    System.Reaches sampleController guard (System.fresh [])
      (sampleController.stopped (sampleGeneration 1) .idle) := by
  have booted : (System.fresh []).step sampleController (.restart []) =
      some { System.fresh [] with phase := .idle } := by decide +kernel
  have prepared : System.step sampleController { System.fresh [] with phase := .idle }
      (.prepare [] false 0 (sampleGeneration 1)) =
      some { world := sampleController.holds (sampleGeneration 1), checkpoint := none
             phase := .prepared (sampleGeneration 1) } := by decide +kernel
  have restarted : (sampleController.stopped (sampleGeneration 1) .down).step sampleController
      (.restart []) = some (sampleController.stopped (sampleGeneration 1) .idle) := by
    decide +kernel
  have first := System.Reaches.refl.step (free _ _ rfl) booted
  have second := first.step (free _ _ rfl) prepared
  have third : System.Reaches sampleController guard (System.fresh [])
      (sampleController.stopped (sampleGeneration 1) (.checkpointed (sampleGeneration 1))) :=
    second.step (e := .checkpoint) (free _ _ rfl) rfl
  have fourth : System.Reaches sampleController guard (System.fresh [])
      (sampleController.stopped (sampleGeneration 1) .down) :=
    third.step (e := .crash) (quiet _).1 rfl
  exact fourth.step (quiet _).2 restarted

/-- Over every run in which a checkpointed generation is promoted before another one is
prepared, the generation that the durable checkpoints name stays recursively pinned. A
moment inside a call is the end of the run whose script crashes there. -/
theorem checkpoint_protected (c : Controller) (pins : List (Cid × PinStatus)) (s : System)
    (reached : System.Reaches c (System.Promoted c) (System.fresh pins) s) : s.Protected c := by
  intro g named
  obtain ⟨n, isCandidate, safe⟩ := (reached.sound (System.Sound.fresh pins)).checkpoint g named
  exact ⟨n, isCandidate, safe.pinned⟩

theorem checkpoint_protected_stopped :
    (sampleController.stopped (sampleGeneration 1) .idle).Protected sampleController :=
  checkpoint_protected sampleController [] _
    (stopped_reached _ (fun s e fresh => by
      cases e with
      | prepare script expired now g =>
        intro d m n named
        rw [fresh] at named
        cases named
      | _ => trivial) fun _ => ⟨trivial, trivial⟩)

/-- The process stops before `Commit`, the restart accepts the pending pin, and the next
poll prepares a newer generation: its cleanup unpins the one that the durable checkpoints
still name. -/
theorem checkpoint_unpinned :
    ∃ s, System.Reaches sampleController (fun _ _ => True) (System.fresh []) s ∧
      s.phase = .prepared (sampleGeneration 2) ∧ s.checkpoint = some (sampleGeneration 1) ∧
      ¬ s.Protected sampleController := by
  have stopped := stopped_reached (fun _ _ => True) (fun _ _ _ => trivial)
    fun _ => ⟨trivial, trivial⟩
  have taken : (sampleController.stopped (sampleGeneration 1) .idle).step sampleController
      (.prepare [] false 0 (sampleGeneration 2)) =
      some { world := sampleController.holds (sampleGeneration 2)
             checkpoint := some (sampleGeneration 1)
             phase := .prepared (sampleGeneration 2) } := by decide +kernel
  refine ⟨_, stopped.step trivial taken, rfl, rfl, fun guarded => ?_⟩
  obtain ⟨n, isCandidate, status, found, _⟩ := guarded (sampleGeneration 1) rfl
  have same : sampleController.candidate (sampleGeneration 1) = .ok (sampleGeneration 1) := by
    decide +kernel
  have missing : (sampleController.holds (sampleGeneration 2)).status
      (sampleController.anchor (sampleGeneration 1)) = none := by decide +kernel
  cases same.symm.trans isCandidate
  cases missing.symm.trans found

end Bloar.Replica
