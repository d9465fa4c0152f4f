import Bloar.Refinement

/-!
A head as the indexers that write it see it: the last covered slot and the versioned
hashes of each slot. `Log.applyRefs` is the part of a refs POST that depends on these
alone; the engine refines it.
-/

namespace Bloar.Indexing
open Ipld Schema Archive Fallible

@[ext] structure Log where
  synced : Option Nat
  hashes : Nat → List VersionedHash

namespace Log

def empty : Log := ⟨none, fun _ => []⟩

def resume (originSlot : Nat) (log : Log) : Nat :=
  match log.synced with
  | none => originSlot
  | some s => s + 1

def Covers (originSlot : Nat) (log : Log) (slot : Nat) : Prop :=
  originSlot ≤ slot ∧ ∃ s, log.synced = some s ∧ slot ≤ s

def extend (log : Log) (rows : List RefRow) (newSyncedTo : Nat) : Log where
  synced := some newSyncedTo
  hashes slot :=
    match rows.find? fun r => r.slot = slot with
    | some r => r.vhs
    | none => log.hashes slot

def cut (log : Log) (slot : Nat) : Log where
  synced := some slot
  hashes s := if s ≤ slot then log.hashes s else []

def shapely (originSlot newSyncedTo : Nat) (rows : List RefRow) : Bool :=
  decide (originSlot ≤ newSyncedTo) &&
    (validateShapeFrom originSlot newSyncedTo 0 none rows).isOk

/-- `ApplyRefs`: a batch that ends within coverage must replay what is there, any other
must lie past it. It carries no start, so nothing ties it to the slot after coverage. -/
def applyRefs (originSlot : Nat) (log : Log) (rows : List RefRow) (newSyncedTo : Nat) :
    Option Log :=
  if shapely originSlot newSyncedTo rows then
    match log.synced with
    | none => some (log.extend rows newSyncedTo)
    | some s =>
      if newSyncedTo ≤ s then
        if ∀ r ∈ rows, log.hashes r.slot = r.vhs then some log else none
      else if ∀ r ∈ rows, s < r.slot then some (log.extend rows newSyncedTo)
      else none
  else none

end Log

def rowAt (rows : List RefRow) (slot : Nat) : List VersionedHash :=
  match rows.find? fun r => r.slot = slot with
  | some r => r.vhs
  | none => []

theorem rowAt_cons (r : RefRow) (rest : List RefRow) (s : Nat) :
    rowAt (r :: rest) s = if r.slot = s then r.vhs else rowAt rest s := by
  unfold rowAt
  by_cases same : r.slot = s <;> simp [same]

variable {originSlot newSyncedTo : Nat} {rows : List RefRow} {log log' : Log}

theorem shapely_iff : Log.shapely originSlot newSyncedTo rows = true ↔
    Shaped originSlot newSyncedTo rows := by
  have isOk : (validateShapeFrom originSlot newSyncedTo 0 none rows).isOk = true ↔
      validateShapeFrom originSlot newSyncedTo 0 none rows = .ok () := by
    rcases validateShapeFrom originSlot newSyncedTo 0 none rows with e | u
    · simp [Except.isOk, Except.toBool]
    · simp [Except.isOk, Except.toBool]
  rw [Log.shapely, Bool.and_eq_true, decide_eq_true_eq, isOk, validateShapeFrom_ok_iff]
  constructor
  · rintro ⟨coverage, -, ascending, each⟩
    exact ⟨coverage, ascending, fun r member => (each r member).1,
      fun r member => (each r member).2.1, fun r member => (each r member).2.2.1,
      fun r member => (each r member).2.2.2⟩
  · intro shaped
    exact ⟨shaped.coverage, by simp, shaped.ascending, fun r member =>
      ⟨shaped.after_origin r member, shaped.before_end r member, shaped.filled r member,
        shaped.ceiling r member⟩⟩

inductive Log.Accepted (originSlot : Nat) (log : Log) (rows : List RefRow) (newSyncedTo : Nat) :
    Log → Prop where
  | replay {s : Nat} (covered : log.synced = some s) (back : newSyncedTo ≤ s)
      (carried : ∀ r ∈ rows, log.hashes r.slot = r.vhs) :
      Accepted originSlot log rows newSyncedTo log
  | advance (shaped : Shaped originSlot newSyncedTo rows)
      (past : ∀ s, log.synced = some s → s < newSyncedTo ∧ ∀ r ∈ rows, s < r.slot) :
      Accepted originSlot log rows newSyncedTo (log.extend rows newSyncedTo)

theorem applyRefs_accepted (applied : log.applyRefs originSlot rows newSyncedTo = some log') :
    Log.Accepted originSlot log rows newSyncedTo log' := by
  unfold Log.applyRefs at applied
  split at applied
  · rename_i shape
    have shaped := shapely_iff.mp shape
    split at applied
    · rename_i fresh
      cases applied
      exact .advance shaped fun s covered => by simp [fresh] at covered
    · rename_i s covered
      split at applied
      · rename_i back
        split at applied
        · rename_i carried
          cases applied
          exact .replay covered back carried
        · cases applied
      · rename_i ahead
        split at applied
        · rename_i past
          cases applied
          refine .advance shaped fun t same => ?_
          obtain rfl : s = t := Option.some.inj (covered.symm.trans same)
          exact ⟨Nat.lt_of_not_le ahead, past⟩
        · cases applied
  · cases applied

theorem applyRefs_of_advance (shaped : Shaped originSlot newSyncedTo rows)
    (past : ∀ s, log.synced = some s → s < newSyncedTo ∧ ∀ r ∈ rows, s < r.slot) :
    log.applyRefs originSlot rows newSyncedTo = some (log.extend rows newSyncedTo) := by
  unfold Log.applyRefs
  rw [if_pos (shapely_iff.mpr shaped)]
  rcases covered : log.synced with _ | s
  · rfl
  · obtain ⟨ahead, after⟩ := past s covered
    simp only
    rw [if_neg (Nat.not_le.mpr ahead), if_pos after]

theorem applyRefs_of_replay {s : Nat} (shaped : Shaped originSlot newSyncedTo rows)
    (covered : log.synced = some s) (back : newSyncedTo ≤ s)
    (carried : ∀ r ∈ rows, log.hashes r.slot = r.vhs) :
    log.applyRefs originSlot rows newSyncedTo = some log := by
  unfold Log.applyRefs
  rw [if_pos (shapely_iff.mpr shaped)]
  simp only [covered]
  rw [if_pos back, if_pos carried]

/-! ### A log against the truth -/

section Truth

variable {truth : Nat → List VersionedHash → Prop} {start slot : Nat}

abbrev Exactly (truth : Nat → List VersionedHash) (slot : Nat) (vhs : List VersionedHash) : Prop :=
  vhs = truth slot

def Log.Records (originSlot : Nat) (truth : Nat → List VersionedHash → Prop) (log : Log) : Prop :=
  ∀ slot, log.Covers originSlot slot → truth slot (log.hashes slot)

def Log.Bare (log : Log) : Prop :=
  ∀ slot, (∀ s, log.synced = some s → s < slot) → log.hashes slot = []

def Tells (truth : Nat → List VersionedHash → Prop) (start last : Nat) (rows : List RefRow) : Prop :=
  ∀ slot, start ≤ slot → slot ≤ last → truth slot (rowAt rows slot)

theorem covers_iff : log.Covers originSlot slot ↔ originSlot ≤ slot ∧ slot < log.resume originSlot := by
  unfold Log.Covers Log.resume
  rcases log.synced with _ | s
  · simp
  · simp

variable (accepted : Log.Accepted originSlot log rows newSyncedTo log')
include accepted

theorem Log.Accepted.resume_le : log.resume originSlot ≤ log'.resume originSlot := by
  cases accepted with
  | replay covered back carried => exact Nat.le_refl _
  | advance shaped past =>
    have origin := shaped.coverage
    rcases covered : log.synced with _ | s
    · simp only [Log.resume, covered, Log.extend]
      omega
    · have ahead := (past s covered).1
      simp only [Log.resume, covered, Log.extend]
      omega

theorem Log.Accepted.last_lt : newSyncedTo < log'.resume originSlot := by
  cases accepted with
  | replay covered back carried =>
    simp only [Log.resume, covered]
    omega
  | advance shaped past =>
    simp only [Log.resume, Log.extend]
    omega

/-- Coverage after a batch is the old one, or the batch's own with its scan before it. -/
theorem Log.Accepted.reaches {synced : Nat} (start_le : start ≤ log.resume originSlot)
    (covered : log'.synced = some synced) :
    log.synced = some synced ∨ newSyncedTo = synced ∧ start ≤ newSyncedTo := by
  cases accepted with
  | replay old back carried => exact .inl covered
  | advance shaped past =>
    cases covered
    have origin := shaped.coverage
    refine .inr ⟨rfl, ?_⟩
    rcases old : log.synced with _ | s
    · simp only [Log.resume, old] at start_le
      omega
    · have ahead := (past s old).1
      simp only [Log.resume, old] at start_le
      omega

omit accepted

theorem hashes_extend_of_covered (past : ∀ s, log.synced = some s →
      s < newSyncedTo ∧ ∀ r ∈ rows, s < r.slot) (covered : log.Covers originSlot slot) :
    (log.extend rows newSyncedTo).hashes slot = log.hashes slot := by
  obtain ⟨-, s, synced, inside⟩ := covered
  have missing : rows.find? (fun r => r.slot = slot) = none := by
    rw [List.find?_eq_none]
    intro r member
    have after := (past s synced).2 r member
    simp only [decide_eq_true_eq]
    omega
  simp [Log.extend, missing]

theorem hashes_extend_of_bare (bare : log.hashes slot = []) :
    (log.extend rows newSyncedTo).hashes slot = rowAt rows slot := by
  unfold Log.extend rowAt
  simp only [bare]

include accepted

theorem Log.Accepted.bare (bare : log.Bare) : log'.Bare := by
  cases accepted with
  | replay covered back carried => exact bare
  | advance shaped past =>
    intro slot outside
    have far : newSyncedTo < slot := outside newSyncedTo rfl
    have missing : rows.find? (fun r => r.slot = slot) = none := by
      rw [List.find?_eq_none]
      intro r member
      have inside := shaped.before_end r member
      simp only [decide_eq_true_eq]
      omega
    have before : log.hashes slot = [] := by
      refine bare slot fun s covered => ?_
      have ahead := (past s covered).1
      omega
    simp [Log.extend, missing, before]

/-- A batch that tells the truth from the first uncovered slot on keeps the log true. -/
theorem Log.Accepted.records (bare : log.Bare) (tells : Tells truth start newSyncedTo rows)
    (reaches : start ≤ log.resume originSlot) (records : log.Records originSlot truth) :
    log'.Records originSlot truth := by
  cases accepted with
  | replay covered back carried => exact records
  | advance shaped past =>
    intro slot covers
    by_cases old : log.Covers originSlot slot
    · rw [hashes_extend_of_covered past old]
      exact records slot old
    · obtain ⟨origin, s, synced, inside⟩ := covers
      cases synced
      have beyond : log.resume originSlot ≤ slot := by
        rw [covers_iff] at old
        omega
      have empty : log.hashes slot = [] := by
        refine bare slot fun s covered => ?_
        simp only [Log.resume, covered] at beyond
        omega
      rw [hashes_extend_of_bare empty]
      exact tells slot (by omega) inside

omit accepted

theorem Log.bare_empty : Log.empty.Bare := fun _ _ => rfl

theorem Log.records_empty : Log.empty.Records originSlot truth := by
  rintro slot ⟨-, s, synced, -⟩
  cases synced

theorem Log.bare_cut (log : Log) (slot : Nat) : (log.cut slot).Bare := by
  intro s outside
  have far : slot < s := outside slot rfl
  simp only [Log.cut]
  rw [if_neg (by omega)]

theorem Log.Records.cut (records : log.Records originSlot truth)
    (inside : ∃ s, log.synced = some s ∧ slot ≤ s) : (log.cut slot).Records originSlot truth := by
  rintro s ⟨origin, t, synced, le⟩
  cases synced
  obtain ⟨old, synced, within⟩ := inside
  simp only [Log.cut]
  rw [if_pos le]
  exact records s ⟨origin, old, synced, by omega⟩

end Truth

/-! ### The engine refines the log -/

section Engine

variable {σ : Type} {ipld : Codec} {cfg : Config σ} {holds : World σ → Cid → Prop}
variable {unread flaky : Prop} {params : Params} {m : Contents} {f : Flat} {w w' : World σ}

def logOf (f : Flat) : Log := ⟨f.synced, fun slot => (f.entries slot).map RefEntry.vh⟩

theorem resolved_find {rows : List RefRow} {out : List Row}
    (resolved : List.Forall₂ Resolved rows out) (slot : Nat) :
    (out.find? fun r => r.slot = slot).map (fun r => r.entries.map RefEntry.vh) =
      (rows.find? fun r => r.slot = slot).map RefRow.vhs := by
  induction resolved with
  | nil => rfl
  | cons head rest ih =>
    rename_i r row rows' out'
    by_cases same : r.slot = slot
    · have sameRow : row.slot = slot := head.slot.trans same
      simp [same, sameRow, head.vhs]
    · have otherRow : ¬ row.slot = slot := fun sameRow => same (head.slot.symm.trans sameRow)
      simpa [same, otherRow] using ih

theorem logOf_extend {rows : List RefRow} {out : List Row}
    (resolved : List.Forall₂ Resolved rows out) :
    logOf (f.extend out newSyncedTo) = (logOf f).extend rows newSyncedTo := by
  ext1
  · rfl
  · funext slot
    have found := resolved_find resolved slot
    simp only [logOf, Flat.extend, Log.extend]
    cases inRows : rows.find? fun r => r.slot = slot with
    | none =>
      rw [inRows, Option.map_none, Option.map_eq_none_iff] at found
      simp [found]
    | some r =>
      rw [inRows, Option.map_some, Option.map_eq_some_iff] at found
      obtain ⟨row, isRow, hashes⟩ := found
      simp [isRow, hashes]

theorem applyRefs_shaped
    (represents : Represents ipld params holds w m) {r : ApplyResult}
    (ran : Archive.applyRefs ipld cfg rows newSyncedTo w = (.ok r, w')) :
    Shaped params.originSlot newSyncedTo rows := by
  have indexed := represents.toIndexed
  obtain ⟨st, _, read, ran⟩ := (bind_ok_iff _ _ _ _ _).mp ran
  cases read
  obtain ⟨u, _, checked, -⟩ := (bind_ok_iff _ _ _ _ _).mp ran
  rw [← indexed.params_eq]
  rcases shape : validateShape w.cur rows newSyncedTo with e | v
  · rw [shape] at checked
    cases checked
  · exact validateShape_ok_iff.mp shape

theorem applyRefs_log (up : Upholds ipld cfg holds unread flaky)
    (unobserved : Unobserved holds) (represents : Represents ipld params holds w m)
    (agrees : Agrees m f) {r : ApplyResult}
    (ran : Archive.applyRefs ipld cfg rows newSyncedTo w = (.ok r, w')) :
    (logOf f).applyRefs params.originSlot rows newSyncedTo =
      some (logOf (f.apply (answers cfg w.shared rows) newSyncedTo)) := by
  have shaped := applyRefs_shaped represents ran
  rcases post_ok (up.applyRefs_spec unobserved represents) ran with
    ⟨-, replays, -, -, -⟩ | ⟨-, -, -, out, middle, resolved, extended⟩
  · rw [agrees.apply_replays replays]
    obtain ⟨⟨s, covered, back⟩, carries⟩ := replays
    refine applyRefs_of_replay shaped (agrees.synced.trans covered) back fun row member => ?_
    obtain ⟨stored, inside, same, hashes⟩ := carries row member
    have found := represents.valid.find_row inside
    rw [same] at found
    simp only [logOf, agrees.entries, found, Option.map_some, Option.getD_some]
    exact hashes
  · rw [resolveRows_answers resolved, agrees.apply_extends extended.advances,
      logOf_extend extended.resolved]
    refine applyRefs_of_advance shaped fun s covered => ?_
    exact extended.advances s (agrees.synced.symm.trans covered)

/-! ### Heads that only grow -/

variable {present : σ → Cid → Prop}

/-- A run's log has nothing outside coverage and nothing before the origin. -/
theorem Run.entries_outside (run : Run ipld cfg present params w f)
    (durable : Durable ipld cfg present) {slot : Nat}
    (outside : ¬ (logOf f).Covers params.originSlot slot) : f.entries slot = [] := by
  obtain ⟨m, represents, agrees⟩ := run.represents durable
  have missing : m.rows.find? (fun r => r.slot = slot) = none := by
    rw [List.find?_eq_none]
    intro r member same
    have at_slot : r.slot = slot := by simpa using same
    obtain ⟨s, covered, le⟩ := represents.valid.covered r member
    have origin := represents.valid.after_origin r member
    exact outside ⟨by omega, s, agrees.synced.trans covered, by omega⟩
  rw [agrees.entries slot, missing]
  rfl

structure Precedes (originSlot : Nat) (f f' : Flat) : Prop where
  covers : ∀ slot, (logOf f).Covers originSlot slot → (logOf f').Covers originSlot slot
  entries : ∀ slot, (logOf f).Covers originSlot slot → f'.entries slot = f.entries slot

theorem Precedes.refl (originSlot : Nat) (f : Flat) : Precedes originSlot f f :=
  ⟨fun _ => id, fun _ _ => rfl⟩

theorem Precedes.trans {originSlot : Nat} {f f' f'' : Flat} (first : Precedes originSlot f f')
    (later : Precedes originSlot f' f'') : Precedes originSlot f f'' where
  covers slot covered := later.covers slot (first.covers slot covered)
  entries slot covered :=
    (later.entries slot (first.covers slot covered)).trans (first.entries slot covered)

theorem Run.applyRefs_precedes (run : Run ipld cfg present params w f)
    (durable : Durable ipld cfg present) {r : ApplyResult}
    (ran : Archive.applyRefs ipld cfg rows newSyncedTo w = (.ok r, w')) :
    Precedes params.originSlot f (f.apply (answers cfg w.shared rows) newSyncedTo) := by
  obtain ⟨m, represents, agrees⟩ := run.represents durable
  rcases post_ok (durable.upholds.applyRefs_spec (present_unobserved present) represents) ran with
    ⟨-, replays, -, -, -⟩ | ⟨-, -, -, out, middle, resolved, extended⟩
  · rw [agrees.apply_replays replays]
    exact Precedes.refl _ _
  · rw [resolveRows_answers resolved, agrees.apply_extends extended.advances]
    constructor
    · rintro slot ⟨origin, s, covered, le⟩
      have ahead := (extended.advances s (agrees.synced.symm.trans covered)).1
      exact ⟨origin, newSyncedTo, rfl, by omega⟩
    · rintro slot ⟨origin, s, covered, le⟩
      have missing : out.find? (fun r => r.slot = slot) = none := by
        rw [List.find?_eq_none]
        intro row member
        obtain ⟨refRow, inRows, same⟩ := resolved_mem extended.resolved member
        have after := (extended.advances s (agrees.synced.symm.trans covered)).2 refRow inRows
        rw [← same.slot] at after
        simp only [decide_eq_true_eq]
        omega
      simp [Flat.extend, missing]

end Engine

end Bloar.Indexing
