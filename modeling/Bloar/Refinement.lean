import Bloar.Durable

/-!
The head engine as a flat map. A reader of the archive thinks of a head as a last
covered slot and a list of entries per slot, and of a call as an update of these.
`Run` takes a head from `New` through any calls, failing ones included, with the
store and everything else that uses it moving in between, and carries that map
along.
-/

namespace Bloar.Archive
open Ipld Schema Fallible
variable {σ : Type}

/-! ### Calls -/

inductive Call where
  | applyRefs (rows : List RefRow) (newSyncedTo : Nat)
  | truncate (slot : Nat)
  | truncateRetainingWindow (slot windowSlots : Nat)
  | truncateToEmpty
  deriving DecidableEq, Repr

def Call.perform (ipld : Codec) (cfg : Config σ) : Call → Engine σ Unit
  | .applyRefs rows newSyncedTo => do let _ ← Archive.applyRefs ipld cfg rows newSyncedTo
  | .truncate slot => do let _ ← Archive.truncate ipld cfg slot
  | .truncateRetainingWindow slot windowSlots => do
      let _ ← Archive.truncateRetainingWindow ipld cfg slot windowSlots
  | .truncateToEmpty => do let _ ← Archive.truncateToEmpty ipld cfg

variable {rows : List RefRow}

section Answers
variable (cfg : Config σ)

/-- The entries the resolver names for some hashes, asked one after the other, with
each blob read before the next question. -/
def answerVHs (resolve : VersionedHash → σ → Except String (Link × Bool) × σ) :
    σ → List VersionedHash → List RefEntry × σ
  | s, [] => ([], s)
  | s, vh :: rest =>
    match resolve vh s with
    | (.ok (some c, true), s) =>
      let (entries, s) := answerVHs resolve (cfg.get c s).2 rest
      ({ vh, blob := some c } :: entries, s)
    | (_, s) => answerVHs resolve s rest

def answerRows (resolve : VersionedHash → σ → Except String (Link × Bool) × σ) :
    σ → List RefRow → List Row × σ
  | s, [] => ([], s)
  | s, r :: rest =>
    let (entries, s) := answerVHs cfg resolve s r.vhs
    let (rows, s) := answerRows resolve s rest
    ({ slot := r.slot, entries } :: rows, s)

def answers (s : σ) (rows : List RefRow) : List Row :=
  match cfg.resolver with
  | none => []
  | some resolve => (answerRows cfg resolve s rows).1

end Answers

section AnswerFacts
variable {cfg : Config σ} {resolve : VersionedHash → σ → Except String (Link × Bool) × σ}

variable {w after : World σ}

theorem resolveBlob_run (vh : VersionedHash) {answer : Link × Bool}
    (ran : resolveBlob resolve vh w = (.ok answer, after)) :
    resolve vh w.shared = (.ok answer, after.shared) := by
  unfold resolveBlob at ran
  rcases asked : resolve vh w.shared with ⟨outcome, s⟩
  rw [asked] at ran
  cases outcome with
  | ok found =>
    cases ran
    rfl
  | error text => cases ran

theorem probeBlob_run {c : Cid} {present : Bool} (ran : probeBlob cfg c w = (.ok present, after)) :
    after.shared = (cfg.get c w.shared).2 := by
  unfold probeBlob at ran
  rcases asked : cfg.get c w.shared with ⟨outcome, s⟩
  rw [asked] at ran
  cases outcome with
  | ok block =>
    cases ran
    rfl
  | error e =>
    cases e with
    | notFound =>
      cases ran
      rfl
    | other text => cases ran

theorem resolveVHs_answers {vhs : List VersionedHash} {entries : List RefEntry}
    (ran : resolveVHs cfg resolve vhs w = (.ok ([], entries), after)) :
    answerVHs cfg resolve w.shared vhs = (entries, after.shared) := by
  induction vhs generalizing w entries with
  | nil =>
    cases ran
    rfl
  | cons vh rest ih =>
    rw [resolveVHs, bind_ok_iff] at ran
    obtain ⟨answer, asked, first, ran⟩ := ran
    have named := resolveBlob_run vh first
    rw [answerVHs, named]
    split at ran
    · rename_i c
      rw [bind_ok_iff] at ran
      obtain ⟨present, probed, second, ran⟩ := ran
      rw [bind_ok_iff] at ran
      obtain ⟨⟨missing, found⟩, last, third, ran⟩ := ran
      have state := probeBlob_run second
      cases present with
      | false => cases ran
      | true =>
        cases ran
        simp only
        rw [← state, ih third]
    · rw [bind_ok_iff] at ran
      obtain ⟨⟨missing, found⟩, last, second, ran⟩ := ran
      cases ran

theorem resolveRowsFrom_answers {out : List Row}
    (ran : resolveRowsFrom cfg resolve rows w = (.ok ([], out), after)) :
    answerRows cfg resolve w.shared rows = (out, after.shared) := by
  induction rows generalizing w out with
  | nil =>
    cases ran
    rfl
  | cons r rest ih =>
    rw [resolveRowsFrom, bind_ok_iff] at ran
    obtain ⟨⟨missing, entries⟩, middle, first, ran⟩ := ran
    rw [bind_ok_iff] at ran
    obtain ⟨⟨more, found⟩, last, second, ran⟩ := ran
    obtain ⟨same, rfl⟩ := Prod.mk.inj ran
    simp only [Except.ok.injEq, Prod.mk.injEq, List.append_eq_nil_iff] at same
    obtain ⟨⟨rfl, rfl⟩, rfl⟩ := same
    rw [answerRows, resolveVHs_answers first]
    simp only
    rw [ih second]

theorem resolveRows_answers {out : List Row} (ran : resolveRows cfg rows w = (.ok out, after)) :
    answers cfg w.shared rows = out := by
  unfold resolveRows at ran
  unfold answers
  cases resolver : cfg.resolver with
  | none =>
    rw [resolver] at ran
    cases ran
  | some resolve =>
    rw [resolver] at ran
    simp only [bind_ok_iff] at ran
    obtain ⟨⟨missing, found⟩, middle, first, ran⟩ := ran
    dsimp only at ran ⊢
    split at ran
    · rename_i none
      subst none
      cases ran
      rw [resolveRowsFrom_answers first]
    · cases ran

end AnswerFacts

/-! ### The flat map -/

/-- What a head is to its reader: the last covered slot and the entries of each. -/
@[ext] structure Flat where
  synced : Option Nat
  entries : Nat → List RefEntry

namespace Flat

def empty : Flat := ⟨none, fun _ => []⟩

def extend (f : Flat) (rows : List Row) (newSyncedTo : Nat) : Flat where
  synced := some newSyncedTo
  entries slot :=
    match rows.find? fun r => r.slot = slot with
    | some r => r.entries
    | none => f.entries slot

def cut (f : Flat) (slot : Nat) : Flat where
  synced := some slot
  entries s := if s ≤ slot then f.entries s else []

/-- A batch that ends within coverage is a replay and changes nothing. -/
def apply (f : Flat) (rows : List Row) (newSyncedTo : Nat) : Flat :=
  match f.synced with
  | none => f.extend rows newSyncedTo
  | some s => if newSyncedTo ≤ s then f else f.extend rows newSyncedTo

def step (f : Flat) (answers : List RefRow → List Row) : Call → Flat
  | .applyRefs rows newSyncedTo => f.apply (answers rows) newSyncedTo
  | .truncate slot => f.cut slot
  | .truncateRetainingWindow slot _ => f.cut slot
  | .truncateToEmpty => empty

def after (f : Flat) (answers : List RefRow → List Row) (call : Call) : Except Error Unit → Flat
  | .ok _ => f.step answers call
  | .error _ => f

def answer (f : Flat) (originSlot slot : Nat) (covered : Result) : Result :=
  if slot < originSlot then .of .beforeOrigin slot
  else
    match f.synced with
    | none => .of .notYetCovered slot
    | some s => if s < slot then .of .notYetCovered slot else covered

def lookup (f : Flat) (originSlot slot : Nat) : Result :=
  f.answer originSlot slot { Result.of .found slot with entries := f.entries slot }

def lookupVHs (f : Flat) (originSlot slot : Nat) (vhs : List VersionedHash) : Result :=
  f.answer originSlot slot
    (match vhs.find? fun vh => vh ∉ (f.entries slot).map RefEntry.vh with
    | some missing => { status := .absent, slot, entries := [], missingVH := some missing }
    | none =>
      { Result.of .found slot with
        entries := vhs.filterMap fun vh => (f.entries slot).find? fun e => e.vh = vh })

end Flat

/-- A head from `New` on, with the flat map its calls make. Between its calls the
store may change in any way that loses nothing, its log of writes may be started
anew, and the head may be opened again at its root. -/
inductive Run (ipld : Codec) (cfg : Config σ) (present : σ → Cid → Prop) (params : Params) :
    World σ → Flat → Prop where
  | new {shared : σ} {w : World σ}
      (made : Archive.new ipld cfg params (newHead shared params) = (.ok (), w)) :
      Run ipld cfg present params w .empty
  | call {w : World σ} {f : Flat} (run : Run ipld cfg present params w f) (call : Call) :
      Run ipld cfg present params (call.perform ipld cfg w).2
        (f.after (answers cfg w.shared) call (call.perform ipld cfg w).1)
  | around {w : World σ} {f : Flat} (run : Run ipld cfg present params w f) (shared : σ)
      (history : List Event) (kept : ∀ c, present w.shared c → present shared c) :
      Run ipld cfg present params { w with shared, history } f
  | reopened {w w' : World σ} {f : Flat} (run : Run ipld cfg present params w f)
      (loaded : load ipld cfg w.cur.root (newHead w.shared params) = (.ok (), w')) :
      Run ipld cfg present params w' f

/-! ### Contents and the flat map -/

structure Agrees (m : Contents) (f : Flat) : Prop where
  synced : f.synced = m.coverage
  entries : ∀ slot, f.entries slot = ((m.rows.find? fun r => r.slot = slot).map Row.entries).getD []

section Agreement
variable {params : Params} {m : Contents} {f : Flat}

theorem Agrees.empty : Agrees ⟨none, []⟩ .empty := ⟨rfl, fun _ => rfl⟩

variable {rows : List RefRow} {out : List Row} {newSyncedTo : Nat}

theorem Agrees.extend (agrees : Agrees m f) (valid : m.Valid params)
    (resolved : List.Forall₂ Resolved rows out) (advances : Advances m rows newSyncedTo) :
    Agrees ⟨some newSyncedTo, m.rows ++ out⟩ (f.extend out newSyncedTo) := by
  refine ⟨rfl, fun slot => ?_⟩
  simp only [Flat.extend, List.find?_append]
  cases old : m.rows.find? fun r => r.slot = slot with
  | none =>
    have before := agrees.entries slot
    rw [old] at before
    cases out.find? fun r => r.slot = slot with
    | none => simpa using before
    | some r => simp
  | some r =>
    -- A slot the head already carries is not in the batch.
    have new : out.find? (fun r => r.slot = slot) = none := by
      rw [List.find?_eq_none]
      intro row member
      obtain ⟨refRow, inRows, same⟩ := resolved_mem resolved member
      have inside := List.mem_of_find?_eq_some old
      have at_slot : r.slot = slot := by simpa using List.find?_some old
      obtain ⟨s, covered, le⟩ := valid.covered r inside
      have after := (advances s covered).2 refRow inRows
      rw [← same.slot] at after
      simp only [decide_eq_true_eq]
      omega
    simp [new, agrees.entries slot, old]

theorem Agrees.cut (agrees : Agrees m f) (slot : Nat) : Agrees (m.upTo slot) (f.cut slot) := by
  refine ⟨rfl, fun s => ?_⟩
  simp only [Flat.cut, Contents.upTo, List.find?_filter]
  by_cases inside : s ≤ slot
  · have same : (fun r : Row => decide (r.slot ≤ slot) && decide (r.slot = s)) =
        fun r => decide (r.slot = s) := by
      funext r
      by_cases at_slot : r.slot = s <;> simp [at_slot, inside]
    simp [inside, same, agrees.entries s]
  · have none : m.rows.find? (fun r : Row => decide (r.slot ≤ slot) && decide (r.slot = s)) =
        none := by
      rw [List.find?_eq_none]
      intro r _
      simp only [Bool.and_eq_true, decide_eq_true_eq]
      omega
    simp [inside, none]

theorem Agrees.apply_extends (agrees : Agrees m f) (advances : Advances m rows newSyncedTo) :
    f.apply out newSyncedTo = f.extend out newSyncedTo := by
  unfold Flat.apply
  rw [agrees.synced]
  cases covered : m.coverage with
  | none => rfl
  | some s =>
    have after := (advances s covered).1
    simp only
    rw [if_neg (by omega)]

theorem Agrees.apply_replays (agrees : Agrees m f) (replays : Replays m rows newSyncedTo) :
    f.apply out newSyncedTo = f := by
  obtain ⟨⟨s, covered, back⟩, -⟩ := replays
  unfold Flat.apply
  rw [agrees.synced, covered]
  simp only
  rw [if_pos back]

theorem Contents.Valid.find_row (valid : m.Valid params) {r : Row} (member : r ∈ m.rows) :
    m.rows.find? (fun x => x.slot = r.slot) = some r :=
  (find_slot_iff valid.ascending).mpr ⟨member, rfl⟩

theorem Agrees.mem_rows_iff (agrees : Agrees m f) (valid : m.Valid params) (r : Row) :
    r ∈ m.rows ↔ f.entries r.slot = r.entries ∧ r.entries ≠ [] := by
  constructor
  · intro member
    refine ⟨?_, List.ne_nil_of_length_pos (valid.admitted r member).filled⟩
    rw [agrees.entries, valid.find_row member]
    rfl
  · rintro ⟨same, some⟩
    rw [agrees.entries] at same
    cases found : m.rows.find? fun x => x.slot = r.slot with
    | none =>
      rw [found] at same
      exact absurd same.symm some
    | some other =>
      rw [found] at same
      have slot : other.slot = r.slot := by simpa using List.find?_some found
      have equal : other = r := by
        obtain ⟨otherSlot, otherEntries⟩ := other
        obtain ⟨slot', entries'⟩ := r
        simp_all
      exact equal ▸ List.mem_of_find?_eq_some found

theorem rows_ext {a b : List Row} (ascendingA : a.Pairwise fun x y => x.slot < y.slot)
    (ascendingB : b.Pairwise fun x y => x.slot < y.slot) (same : ∀ r, r ∈ a ↔ r ∈ b) : a = b := by
  have distinct : ∀ {l : List Row}, l.Pairwise (fun x y => x.slot < y.slot) → l.Nodup := by
    intro l ascending
    refine ascending.imp fun {x y} less equal => ?_
    rw [equal] at less
    omega
  have perm : a.Perm b := (List.perm_ext_iff_of_nodup (distinct ascendingA)
    (distinct ascendingB)).mpr same
  exact perm.eq_of_pairwise (fun x y _ _ less greater => by omega) ascendingA ascendingB

theorem Agrees.unique {m' : Contents} (agrees : Agrees m f) (agrees' : Agrees m' f)
    (valid : m.Valid params) (valid' : m'.Valid params) : m = m' := by
  obtain ⟨coverage, rows⟩ := m
  obtain ⟨coverage', rows'⟩ := m'
  have synced : coverage = coverage' := agrees.synced.symm.trans agrees'.synced
  have same : rows = rows' := rows_ext valid.ascending valid'.ascending fun r =>
    (agrees.mem_rows_iff valid r).trans (agrees'.mem_rows_iff valid' r).symm
  rw [synced, same]

end Agreement

/-! ### What a run keeps -/

section Runs
variable {ipld : Codec} {cfg : Config σ} {present : σ → Cid → Prop} {unread flaky : Prop}
variable {holds : World σ → Cid → Prop} {params : Params} {m : Contents} {f : Flat} {w w' : World σ}

inductive Settled (ipld : Codec) (params : Params) (holds : World σ → Cid → Prop) (m : Contents)
    (w w' : World σ) : Contents → Prop where
  | stays (grows : Grows holds w w') : Settled ipld params holds m w w' m
  | moves {m' : Contents} (represents : Represents ipld params holds w' m')
      (published : Published ipld holds w w' w'.cur) : Settled ipld params holds m w w' m'

variable (up : Upholds ipld cfg holds unread flaky)
include up

theorem Upholds.perform_settled (unobserved : Unobserved holds)
    (represents : Represents ipld params holds w m) (agrees : Agrees m f) {call : Call}
    (ran : call.perform ipld cfg w = (.ok (), w')) :
    ∃ m', Settled ipld params holds m w w' m' ∧ Agrees m' (f.step (answers cfg w.shared) call) := by
  have rewound : ∀ {slot windowSlots : Nat} {retainWindow : Bool} {root : Link},
      truncateWith ipld cfg slot windowSlots retainWindow w = (.ok root, w') →
      ∃ m', Settled ipld params holds m w w' m' ∧ Agrees m' (f.cut slot) := by
    intro slot windowSlots retainWindow root cut
    obtain ⟨-, -, represents', published⟩ :=
      post_ok (up.truncateWith_spec unobserved represents slot windowSlots retainWindow) cut
    exact ⟨_, .moves represents' published, agrees.cut slot⟩
  cases call with
  | applyRefs rows newSyncedTo =>
    simp only [Call.perform, bind_ok_iff] at ran
    obtain ⟨r, after, applied, ⟨⟩⟩ := ran
    rcases post_ok (up.applyRefs_spec unobserved represents) applied with
      ⟨-, replays, -, -, grows⟩ | ⟨-, -, -, out, middle, resolved, extended⟩
    · refine ⟨m, .stays grows, ?_⟩
      rw [Flat.step, agrees.apply_replays replays]
      exact agrees
    · refine ⟨_, .moves extended.represents extended.published, ?_⟩
      rw [Flat.step, resolveRows_answers resolved, agrees.apply_extends extended.advances]
      exact agrees.extend represents.valid extended.resolved extended.advances
  | truncate slot =>
    simp only [Call.perform, bind_ok_iff] at ran
    obtain ⟨root, after, cut, ⟨⟩⟩ := ran
    exact rewound cut
  | truncateRetainingWindow slot windowSlots =>
    simp only [Call.perform, bind_ok_iff] at ran
    obtain ⟨root, after, cut, ⟨⟩⟩ := ran
    exact rewound cut
  | truncateToEmpty =>
    simp only [Call.perform, bind_ok_iff] at ran
    obtain ⟨root, after, cut, ⟨⟩⟩ := ran
    obtain ⟨-, represents', published⟩ :=
      post_ok (up.truncateToEmpty_spec unobserved represents) cut
    exact ⟨_, .moves represents' published, .empty⟩

theorem Upholds.perform_keepsOnError (call : Call) :
    KeepsOnError (Grows holds) (call.perform ipld cfg) := by
  have total (s : World σ) : ∃ r after, (pure () : Engine σ Unit) s = (.ok r, after) := ⟨_, _, rfl⟩
  cases call with
  | applyRefs rows newSyncedTo =>
    exact keepsOnError_bind_total (up.applyRefs_keepsOnError rows newSyncedTo) fun _ => total
  | truncate slot => exact keepsOnError_bind_total (up.truncateWith_keepsOnError slot 0 false) fun _ => total
  | truncateRetainingWindow slot windowSlots =>
    exact keepsOnError_bind_total (up.truncateWith_keepsOnError slot windowSlots true) fun _ => total
  | truncateToEmpty => exact keepsOnError_bind_total up.truncateToEmpty_keepsOnError fun _ => total

omit up in
theorem Settled.represents {m' : Contents} (settled : Settled ipld params holds m w w' m')
    (before : Represents ipld params holds w m) : Represents ipld params holds w' m' := by
  cases settled with
  | stays grows => exact before.mono grows
  | moves represents published => exact represents

theorem Upholds.perform_represents (unobserved : Unobserved holds)
    (represents : Represents ipld params holds w m) (agrees : Agrees m f) (call : Call) :
    ∃ m', Represents ipld params holds (call.perform ipld cfg w).2 m' ∧
      Agrees m' (f.after (answers cfg w.shared) call (call.perform ipld cfg w).1) := by
  rcases ran : call.perform ipld cfg w with ⟨outcome, w'⟩
  cases outcome with
  | ok u =>
    obtain ⟨m', settled, agrees'⟩ := up.perform_settled unobserved represents agrees ran
    exact ⟨m', settled.represents represents, agrees'⟩
  | error e =>
    exact ⟨m, represents.mono (up.perform_keepsOnError call w e w' ran), agrees⟩

omit up

variable (run : Run ipld cfg present params w f)
include run

theorem Run.performed (call : Call) (ran : call.perform ipld cfg w = (.ok (), w')) :
    Run ipld cfg present params w' (f.step (answers cfg w.shared) call) := by
  have called := run.call call
  rw [ran] at called
  exact called

/-- Whatever a run did, its head is the canonical index of the run's flat map, and
all of it is present. -/
theorem Run.represents (durable : Durable ipld cfg present) :
    ∃ m, Represents ipld params (Present present) w m ∧ Agrees m f := by
  have up := durable.upholds
  have unobserved := present_unobserved present
  induction run with
  | new made => exact ⟨_, (post_ok (up.new_spec unobserved params _) made).1, .empty⟩
  | call run call ih =>
    obtain ⟨m, represents, agrees⟩ := ih
    exact up.perform_represents unobserved represents agrees call
  | around run shared history kept ih =>
    obtain ⟨m, represents, agrees⟩ := ih
    exact ⟨m, represents.transport rfl fun _ held => kept _ held, agrees⟩
  | @reopened w w' f run loaded ih =>
    obtain ⟨m, represents, agrees⟩ := ih
    rw [load, bind_ok_iff] at loaded
    obtain ⟨st, middle, read, ⟨⟩⟩ := loaded
    rw [represents.root] at read
    have stored : Stored ipld (Present present) (newHead w.shared params)
        (rootNode ipld params m) := ⟨represents.rootStored.held, represents.rootStored.fits⟩
    have loaded := post_ok (up.loadState_spec represents.usable represents.valid stored) read
    have grows := up.loadState_keeps (some (cidOf ipld (rootNode ipld params m)))
      (newHead w.shared params)
    rw [read] at grows
    -- The new head has the old one's state over the same store.
    rw [← represents.state_eq] at loaded
    exact ⟨m, represents.transport loaded fun _ held => grows.kept _ held, agrees⟩

omit run

theorem Agrees.rowAt_status (agrees : Agrees m f) (originSlot slot : Nat) (covered : Result) :
    f.answer originSlot slot covered =
      if (m.rowAt originSlot slot).1.status = .found then covered
      else (m.rowAt originSlot slot).1 := by
  unfold Flat.answer Contents.rowAt
  rw [agrees.synced]
  by_cases before : slot < originSlot
  · simp [before, Result.of]
  · cases m.coverage with
    | none => simp [before, Result.of]
    | some s => by_cases past : s < slot <;> simp [before, past, Result.of]

theorem Agrees.rowAt_row (agrees : Agrees m f) (originSlot slot : Nat)
    (found : (m.rowAt originSlot slot).1.status = .found) :
    (m.rowAt originSlot slot).1 = .of .found slot ∧
      (((m.rowAt originSlot slot).2).map Row.entries).getD [] = f.entries slot := by
  rw [agrees.entries]
  revert found
  unfold Contents.rowAt
  split
  · simp [Result.of]
  · split
    · simp [Result.of]
    · split <;> simp [Result.of]

include up in
theorem Upholds.lookup_spec (represents : Represents ipld params holds w m) (agrees : Agrees m f)
    (slot : Nat) :
    Post (lookup ipld cfg slot) w (fun r _ => r = f.lookup params.originSlot slot)
      (fun _ => unread) := by
  refine post_get_bind ?_
  refine post_then (up.lookupRow_spec represents.toIndexed slot) ?_
  rintro ⟨res, row⟩ after looked
  have status := agrees.rowAt_status params.originSlot slot
  have answer := agrees.rowAt_row params.originSlot slot
  rw [← looked] at status answer
  rw [Flat.lookup, status]
  refine post_ite (fun other => ?_) fun found => ?_
  · exact post_pure (by rw [if_neg other])
  · rw [not_not] at found
    obtain ⟨rfl, entries⟩ := answer found
    exact post_pure (by rw [if_pos found, ← entries])

/-- The loop over the requested hashes finds all of them or the first missing. -/
theorem collectVHs_eq (row : Option Row) (vhs : List VersionedHash) :
    collectVHs row vhs =
      match vhs.find? fun vh => vh ∉ ((row.map Row.entries).getD []).map RefEntry.vh with
      | some missing => .error missing
      | none => .ok (vhs.filterMap fun vh =>
        ((row.map Row.entries).getD []).find? fun e => e.vh = vh) := by
  have same : ∀ vh, findVH row vh = ((row.map Row.entries).getD []).find? fun e => e.vh = vh := by
    intro vh
    cases row <;> rfl
  generalize (row.map Row.entries).getD [] = entries at same
  induction vhs with
  | nil => rfl
  | cons vh rest ih =>
    rw [collectVHs, same vh, List.find?_cons]
    cases found : entries.find? fun e => e.vh = vh with
    | none =>
      have missing : vh ∉ entries.map RefEntry.vh := by
        rw [List.mem_map]
        rintro ⟨e, member, rfl⟩
        rw [List.find?_eq_none] at found
        exact found e member (by simp)
      simp [missing]
    | some e =>
      have carried : vh ∈ entries.map RefEntry.vh := by
        rw [List.mem_map]
        exact ⟨e, List.mem_of_find?_eq_some found, by simpa using List.find?_some found⟩
      rw [ih]
      simp only [carried, not_true_eq_false, decide_false, List.filterMap_cons, found]
      cases rest.find? fun vh => vh ∉ entries.map RefEntry.vh <;> rfl

include up in
theorem Upholds.lookupVHs_spec (represents : Represents ipld params holds w m) (agrees : Agrees m f)
    (slot : Nat) (vhs : List VersionedHash) :
    Post (lookupVHs ipld cfg slot vhs) w (fun r _ => r = f.lookupVHs params.originSlot slot vhs)
      (fun _ => unread) := by
  refine post_get_bind ?_
  refine post_then (up.lookupRow_spec represents.toIndexed slot) ?_
  rintro ⟨res, row⟩ after looked
  have status := agrees.rowAt_status params.originSlot slot
  have answer := agrees.rowAt_row params.originSlot slot
  rw [← looked] at status answer
  rw [Flat.lookupVHs, status]
  refine post_ite (fun other => ?_) fun found => ?_
  · exact post_pure (by rw [if_neg other])
  · rw [not_not] at found
    obtain ⟨rfl, entries⟩ := answer found
    rw [if_pos found, collectVHs_eq, entries]
    cases vhs.find? fun vh => vh ∉ (f.entries slot).map RefEntry.vh with
    | none | some => exact post_pure rfl

/-! ### A run in memory -/

def sampleParams : Params :=
  { name := "all", net := "mainnet", originSlot := 5, segBits := 1, fanoutBits := 1 }

def sampleBlob : VersionedHash → Block := fun vh => vh.bytes.map Octet.byte

def sampleHash : VersionedHash := ⟨List.replicate 32 1, rfl⟩

def sampleRows : List RefRow := [⟨7, [sampleHash]⟩]

def sampleConfig : Config (List Block) := memory DagCbor.codec sampleBlob

def sampleFlat : Flat := Flat.empty.extend (blobRows DagCbor.codec sampleBlob sampleRows) 9

abbrev SampleRun : World (List Block) → Flat → Prop :=
  Run DagCbor.codec sampleConfig (InMemory DagCbor.codec) sampleParams

def sampleNew : World (List Block) :=
  let w := (new DagCbor.codec sampleConfig sampleParams (newHead [] sampleParams)).2
  { w with shared := sampleBlob sampleHash :: w.shared, history := [] }

theorem sampleNew_run : SampleRun sampleNew .empty := by
  have made : new DagCbor.codec sampleConfig sampleParams (newHead [] sampleParams) = (.ok (), _) :=
    returned (by decide +kernel)
  refine (Run.new made).around _ [] ?_
  rintro c ⟨b, member, same⟩
  exact ⟨b, List.mem_cons_of_mem _ member, same⟩

theorem Run.sampleRefs {w : World (List Block)} (run : SampleRun w f) (rows : List RefRow)
    (newSyncedTo : Nat) {out : List Row}
    (ran : ((Call.applyRefs rows newSyncedTo).perform DagCbor.codec sampleConfig w).1 = .ok ())
    (answered : answers sampleConfig w.shared rows = out) :
    SampleRun ((Call.applyRefs rows newSyncedTo).perform DagCbor.codec sampleConfig w).2
      (f.apply out newSyncedTo) := by
  rw [← answered]
  exact run.performed (.applyRefs rows newSyncedTo) (returned ran)

def sampleApplied : World (List Block) :=
  ((Call.applyRefs sampleRows 9).perform DagCbor.codec sampleConfig sampleNew).2

theorem sampleApplied_run : SampleRun sampleApplied sampleFlat :=
  sampleNew_run.sampleRefs sampleRows 9 (by decide +kernel) (by decide +kernel)

/-- The head engine refines the flat map: after any run, a lookup of any slot and
of any hashes answers what the map says, and never fails. -/
theorem run_lookup_eq_flat (reliable : Reliable ipld cfg present)
    (run : Run ipld cfg present params w f) (slot : Nat) (vhs : List VersionedHash) :
    (if w.cur.covered then some w.cur.syncedTo else none) = f.synced ∧
      (∃ after, lookup ipld cfg slot w = (.ok (f.lookup params.originSlot slot), after)) ∧
      ∃ after, lookupVHs ipld cfg slot vhs w =
        (.ok (f.lookupVHs params.originSlot slot vhs), after) := by
  obtain ⟨m, represents, agrees⟩ := run.represents reliable.toDurable
  refine ⟨?_, ?_, ?_⟩
  · rw [agrees.synced, represents.covered_eq]
    cases coverage : m.coverage with
    | none => rfl
    | some s => simp [represents.syncedTo_eq coverage]
  · obtain ⟨r, after, ran, rfl⟩ := post_returns (reliable.upholds.lookup_spec represents agrees slot)
      fun _ impossible => impossible
    exact ⟨after, ran⟩
  · obtain ⟨r, after, ran, rfl⟩ :=
      post_returns (reliable.upholds.lookupVHs_spec represents agrees slot vhs)
        fun _ impossible => impossible
    exact ⟨after, ran⟩

theorem run_lookup_eq_flat_sample : ∃ w,
    Run DagCbor.codec sampleConfig (InMemory DagCbor.codec) sampleParams w sampleFlat ∧
      (∃ after, lookup DagCbor.codec sampleConfig 7 w = (.ok (sampleFlat.lookup 5 7), after)) ∧
      ((sampleFlat.lookup 5 7).entries.map RefEntry.vh) = [sampleHash] := by
  exact ⟨_, sampleApplied_run, (run_lookup_eq_flat (memory_reliable DagCbor.codec sampleBlob)
    sampleApplied_run 7 []).2.1, rfl⟩

/-! ### Roots -/

/-- The state a run ends with is a function of its flat map. -/
theorem Run.cur_eq {σ₁ σ₂ : Type} {cfg₁ : Config σ₁} {cfg₂ : Config σ₂}
    {present₁ : σ₁ → Cid → Prop} {present₂ : σ₂ → Cid → Prop} {w₁ : World σ₁} {w₂ : World σ₂}
    (run₁ : Run ipld cfg₁ present₁ params w₁ f) (durable₁ : Durable ipld cfg₁ present₁)
    (run₂ : Run ipld cfg₂ present₂ params w₂ f) (durable₂ : Durable ipld cfg₂ present₂) :
    w₁.cur = w₂.cur := by
  obtain ⟨m₁, represents₁, agrees₁⟩ := run₁.represents durable₁
  obtain ⟨m₂, represents₂, agrees₂⟩ := run₂.represents durable₂
  have same := agrees₁.unique agrees₂ represents₁.valid represents₂.valid
  rw [represents₁.state_eq, represents₂.state_eq, same]

def builtFlat (ipld : Codec) (cfg : Config σ) (params : Params) (shared : σ) (rows : List RefRow)
    (syncedTo : Nat) : Flat :=
  Flat.empty.extend (answers cfg (Archive.new ipld cfg params (newHead shared params)).2.shared rows)
    syncedTo

theorem buildGeneration_run {shared : σ} {syncedTo : Nat} {built : World σ}
    (ran : buildGeneration ipld cfg params rows syncedTo (newHead shared params) = (.ok (), built)) :
    Run ipld cfg present params built (builtFlat ipld cfg params shared rows syncedTo) := by
  unfold buildGeneration at ran
  simp only [bind_ok_iff] at ran
  obtain ⟨_, start, shape, _, middle, made, r, after, applied, ⟨⟩⟩ := ran
  obtain rfl : newHead shared params = start := by
    revert shape
    cases validateShape (.empty params) rows syncedTo with
    | ok u => exact fun shape => (Prod.mk.inj shape).2
    | error e => exact fun shape => by cases shape
  rw [builtFlat, made]
  exact (Run.new made).performed (.applyRefs rows syncedTo) (bind_of_ok applied)

include run

theorem Run.truncated {slot : Nat} {root : Link} (durable : Durable ipld cfg present)
    (cut : truncate ipld cfg slot w = (.ok root, w')) :
    Run ipld cfg present params w' (f.cut slot) ∧ root = w'.cur.root := by
  obtain ⟨m, represents, -⟩ := run.represents durable
  exact ⟨run.performed (.truncate slot) (bind_of_ok cut), (post_ok (durable.upholds.truncateWith_spec (present_unobserved present) represents
    slot 0 false) cut).2.1⟩

theorem Run.applied {newSyncedTo : Nat} {r : ApplyResult} (durable : Durable ipld cfg present)
    (ran : applyRefs ipld cfg rows newSyncedTo w = (.ok r, w')) :
    Run ipld cfg present params w' (f.apply (answers cfg w.shared rows) newSyncedTo) ∧
      r.root = w'.cur.root := by
  obtain ⟨m, represents, -⟩ := run.represents durable
  refine ⟨run.performed (.applyRefs rows newSyncedTo) (bind_of_ok ran), ?_⟩
  rcases post_ok (durable.upholds.applyRefs_spec (present_unobserved present) represents) ran with
    ⟨-, -, -, root, grows⟩ | ⟨-, -, root, -⟩
  · rw [root, grows.cur]
  · exact root

omit run

/-- Two runs over two stores that end with one flat map end with one root, which is
the root a fresh build of that map in a third store writes. So a head cut back to
a slot has the root of a fresh build of what is left, and a batch that brings the
dropped rows back brings the root back. -/
theorem root_history_independent {σ₁ σ₂ σ₃ : Type} {cfg₁ : Config σ₁} {cfg₂ : Config σ₂}
    {cfg₃ : Config σ₃} {present₁ : σ₁ → Cid → Prop} {present₂ : σ₂ → Cid → Prop}
    {present₃ : σ₃ → Cid → Prop} (durable₁ : Durable ipld cfg₁ present₁)
    (durable₂ : Durable ipld cfg₂ present₂) (durable₃ : Durable ipld cfg₃ present₃)
    {w₁ : World σ₁} {w₂ : World σ₂} (run₁ : Run ipld cfg₁ present₁ params w₁ f)
    (run₂ : Run ipld cfg₂ present₂ params w₂ f) :
    w₁.cur.root = w₂.cur.root ∧
      (∀ shared rows syncedTo built,
        buildGeneration ipld cfg₃ params rows syncedTo (newHead shared params) = (.ok (), built) →
        builtFlat ipld cfg₃ params shared rows syncedTo = f → built.cur.root = w₁.cur.root) ∧
      (∀ slot root cut, truncate ipld cfg₁ slot w₁ = (.ok root, cut) →
        ∀ shared rows syncedTo built,
          buildGeneration ipld cfg₃ params rows syncedTo (newHead shared params) = (.ok (), built) →
          builtFlat ipld cfg₃ params shared rows syncedTo = f.cut slot → built.cur.root = root) ∧
      ∀ slot root cut, truncate ipld cfg₁ slot w₁ = (.ok root, cut) →
        ∀ rows newSyncedTo r again, applyRefs ipld cfg₁ rows newSyncedTo cut = (.ok r, again) →
          (f.cut slot).apply (answers cfg₁ cut.shared rows) newSyncedTo = f →
          r.root = w₁.cur.root := by
  refine ⟨?_, ?_, ?_, ?_⟩
  · rw [run₁.cur_eq durable₁ run₂ durable₂]
  · intro shared rows syncedTo built ran same
    have run₃ : Run ipld cfg₃ present₃ params built _ := buildGeneration_run ran
    rw [same] at run₃
    rw [run₃.cur_eq durable₃ run₁ durable₁]
  · intro slot root cut truncated shared rows syncedTo built ran same
    obtain ⟨run, rfl⟩ := run₁.truncated durable₁ truncated
    have run₃ : Run ipld cfg₃ present₃ params built _ := buildGeneration_run ran
    rw [same] at run₃
    rw [run₃.cur_eq durable₃ run durable₁]
  · intro slot root cut truncated rows newSyncedTo r again ran same
    obtain ⟨run, -⟩ := run₁.truncated durable₁ truncated
    obtain ⟨run, root⟩ := run.applied durable₁ ran
    rw [same] at run
    rw [root, run.cur_eq durable₁ run₁ durable₁]

theorem root_history_independent_sample : ∃ w₁ w₂,
    Run DagCbor.codec sampleConfig (InMemory DagCbor.codec) sampleParams w₁ sampleFlat ∧
      Run DagCbor.codec sampleConfig (InMemory DagCbor.codec) sampleParams w₂
        ((Flat.empty.apply [] 6).apply (blobRows DagCbor.codec sampleBlob sampleRows) 9) ∧
      w₁.cur.root = w₂.cur.root := by
  have durable := (memory_reliable DagCbor.codec sampleBlob).toDurable
  have run₂ : SampleRun _
      ((Flat.empty.apply [] 6).apply (blobRows DagCbor.codec sampleBlob sampleRows) 9) :=
    (sampleNew_run.sampleRefs [] 6 (by decide +kernel) rfl).sampleRefs sampleRows 9
      (by decide +kernel) (by decide +kernel)
  have same : (Flat.empty.apply [] 6).apply (blobRows DagCbor.codec sampleBlob sampleRows) 9 =
      sampleFlat := by
    ext slot : 2
    · rfl
    · rfl
  exact ⟨_, _, sampleApplied_run, run₂, (root_history_independent durable durable durable
    sampleApplied_run (same ▸ run₂)).1⟩

end Runs

end Bloar.Archive
