import Bloar.ApplySpec

/-!
Rewinding a head (`archive/truncate.go`). `Truncate` rebuilds the window the new
last slot falls into, cuts the directory back to the windows before it, lets the
seal rule run over the rebuilt window and publishes. A rewind under a window
policy also reads the blobs the new root newly retains.
-/

namespace Bloar.Archive
open Ipld Schema Arith Fallible RadixList

variable {σ : Type} {ipld : Codec} {cfg : Config σ} {holds : World σ → Cid → Prop}
variable {unread flaky : Prop} {params : Params} {m : Contents}

def copyRowsUpTo (rows : List Row) (maxSlot : Nat) : List Row :=
  rows.takeWhile fun r => ¬ r.slot > maxSlot

/-- The texts of a pass that reads the blobs of rows; `undefined` is `none` where
such a link is passed over. -/
structure BlobPass where
  undefined : Nat → Option String
  notRaw : Nat → Nat → String
  unreadable : Nat → String

def hex (n : Nat) : String := String.ofList (Nat.toDigits 16 n)

def survivingBlobs : BlobPass where
  undefined _ := none
  notRaw slot codec :=
    let digits := hex codec
    (s!"archive: surviving blob link from slot {slot} has codec 0x{digits}, want raw; " ++
      "refusing to publish the truncated head")
  unreadable slot := (s!"archive: validating surviving blob from slot {slot}; " ++
    "refusing to publish the truncated head")

def newlyRetainedBlobs : BlobPass where
  undefined slot := some (s!"archive: newly retained blob link from slot {slot} is not a defined " ++
    "raw CID; refusing to publish the truncated head")
  notRaw slot _ := (s!"archive: newly retained blob link from slot {slot} is not a defined " ++
    "raw CID; refusing to publish the truncated head")
  unreadable slot := (s!"archive: validating newly retained blob from slot {slot}; " ++
    "refusing to publish the truncated window")

section Engine
variable (ipld : Codec) (cfg : Config σ)

def touchEntries (pass : BlobPass) (slot : Nat) :
    List Multihash → List RefEntry → Engine σ (List Multihash)
  | seen, [] => pure seen
  | seen, e :: rest =>
    match e.blob with
    | none =>
      match pass.undefined slot with
      | none => touchEntries pass slot seen rest
      | some text => fail (.plain text)
    | some c =>
      if c.codec ≠ raw then fail (.plain (pass.notRaw slot c.codec))
      else if c.hash ∈ seen then touchEntries pass slot seen rest
      else do
        let _ ← within (pass.unreadable slot) (getBlock cfg c)
        touchEntries pass slot (c.hash :: seen) rest

def touchRows (pass : BlobPass) : List Multihash → List Row → Engine σ (List Multihash)
  | seen, [] => pure seen
  | seen, r :: rest => do
      let seen ← touchEntries cfg pass r.slot seen r.entries
      touchRows pass seen rest

def touchTruncatedBlobs (rows : List Row) : Engine σ Unit := do
  let _ ← touchRows cfg survivingBlobs [] rows

def firstRetainedWindow (st : State) (windowSlots : Nat) : Nat :=
  let low := if windowSlots < st.syncedTo then st.syncedTo - windowSlots else 0
  let low := if low < st.params.originSlot then st.params.originSlot else low
  ord low st.params.segBits

def touchWindows (next : State) : Nat → Nat → List Multihash → Engine σ Unit
  | 0, _, _ => pure ()
  | rounds + 1, w, seen => do
      let segmentCID ← segmentFor ipld cfg next w
      let seen ←
        (match segmentCID with
        | none => pure seen
        | some c => do
            let segment ← within "archive: reading newly retained segment"
              (getNode cfg (segs ipld) (some c))
            touchRows cfg newlyRetainedBlobs seen segment.rows)
      touchWindows next rounds (w + 1) seen

def touchNewlyRetainedWindow (old next : State) (windowSlots : Nat) : Engine σ Unit :=
  let oldFirst := firstRetainedWindow old windowSlots
  let newFirst := firstRetainedWindow next windowSlots
  if newFirst ≥ oldFirst ∨ oldFirst = 0 then pure ()
  else
    let last := min (oldFirst - 1) (ord next.syncedTo next.params.segBits)
    if newFirst > last then pure ()
    else touchWindows ipld cfg next (last + 1 - newFirst) newFirst []

def survivingRows (st : State) (slot t : Nat) (retainWindow : Bool) : Engine σ (List Row) := do
  match ← segmentFor ipld cfg st t with
  | none => pure []
  | some segCID => do
      let seg ← within "archive: reading segment" (getNode cfg (segs ipld) (some segCID))
      let rows := copyRowsUpTo seg.rows slot
      (if retainWindow then touchTruncatedBlobs cfg rows else pure ())
      pure rows

def truncateDir (st : State) (t openW : Nat) : Engine σ (Link × Nat) :=
  let n := sub64 t st.dirBase
  if t = openW then pure (st.dir, st.dirDepth)
  else if n = 0 then pure (none, 0)
  else
    match pathDigits n st.dirDepth st.params.fanoutBits with
    | none =>
      let depth := st.dirDepth
      fail (.plain s!"archive: internal: sealed count {n} does not fit a depth-{depth} directory")
    | some digits => do
        let dir ← dirTruncate ipld cfg st.dir digits
        dirShrink ipld cfg dir st.dirDepth

/-- `truncate` from the refusals on, up to the state to publish. -/
def rewindIndex (st : State) (slot windowSlots : Nat) (retainWindow : Bool) : Engine σ State := do
  let k := st.params.segBits
  let t := ord slot k
  let openW ← openOrd ipld cfg st
  let rows ← survivingRows ipld cfg st slot t retainWindow
  let (dir, dirDepth) ← truncateDir ipld cfg st t openW
  let (next, opened) ← sealIfFull ipld cfg slot { st with root := none, dir, dirDepth }
    (newNode { slot0 := windowStart t k, rows }) t
  let openCid ← within "archive: writing open segment" (commitSegment ipld cfg opened .opened)
  let next := { next with openCid := some openCid, syncedTo := slot, covered := true }
  (if retainWindow then touchNewlyRetainedWindow ipld cfg st next windowSlots else pure ())
  pure next

def refuseTruncate (st : State) (slot : Nat) : Except Error Unit := do
  let syncedTo := st.syncedTo
  let originSlot := st.params.originSlot
  conflictUnless (st.covered = true) s!"cannot truncate to slot {slot}: the head is empty"
  conflictUnless (¬ slot > st.syncedTo)
    s!"cannot truncate to slot {slot}: it is past synced_to {syncedTo}"
  conflictUnless (¬ slot < st.params.originSlot)
    (s!"cannot truncate to slot {slot}: it precedes origin_slot {originSlot}; " ++
      "reset the head with TruncateToEmpty")

def truncateWith (slot windowSlots : Nat) (retainWindow : Bool) : Engine σ Link := do
  let st := (← Fallible.get).cur
  ofExcept (refuseTruncate st slot)
  let next ← rewindIndex ipld cfg st slot windowSlots retainWindow
  let next ← publish ipld cfg next
  pure next.root

def truncate (slot : Nat) : Engine σ Link := truncateWith ipld cfg slot 0 false

def truncateRetainingWindow (slot windowSlots : Nat) : Engine σ Link :=
  truncateWith ipld cfg slot windowSlots true

def truncateToEmpty : Engine σ Link := do
  let next ← publish ipld cfg (.empty (← Fallible.get).cur.params)
  pure next.root

end Engine

/-! ### What a rewind leaves alone -/

section Keeps
variable (up : Upholds ipld cfg holds unread flaky)
include up

theorem Upholds.touchEntries_keeps (pass : BlobPass)
    (slot : Nat) (seen : List Multihash) (entries : List RefEntry) :
    Keeps (Grows holds) (touchEntries cfg pass slot seen entries) := by
  induction entries generalizing seen with
  | nil => exact keeps_pure _
  | cons e rest ih =>
    rw [touchEntries]
    split
    · split
      · exact ih seen
      · exact keeps_fail _
    · refine keeps_ite (fun _ => keeps_fail _) fun _ => keeps_ite (fun _ => ih seen) fun _ => ?_
      exact keeps_bind (keeps_within (up.get_keeps _)) fun _ => ih _

theorem Upholds.touchRows_keeps (pass : BlobPass)
    (seen : List Multihash) (rows : List Row) :
    Keeps (Grows holds) (touchRows cfg pass seen rows) := by
  induction rows generalizing seen with
  | nil => exact keeps_pure _
  | cons r rest ih =>
    exact keeps_bind (up.touchEntries_keeps _ _ _ _) fun _ => ih _

theorem Upholds.touchTruncatedBlobs_keeps
    (rows : List Row) : Keeps (Grows holds) (touchTruncatedBlobs cfg rows) :=
  keeps_bind (up.touchRows_keeps _ _ _) fun _ =>
    keeps_pure _

theorem Upholds.touchWindows_keeps (next : State)
    (rounds win : Nat) (seen : List Multihash) :
    Keeps (Grows holds) (touchWindows ipld cfg next rounds win seen) := by
  induction rounds generalizing win seen with
  | zero => exact keeps_pure _
  | succ rounds ih =>
    refine keeps_bind (segmentFor_keeps up.get_keeps next win) fun link => ?_
    refine keeps_bind ?_ fun _ => ih _ _
    cases link with
    | none => exact keeps_pure _
    | some c =>
      exact keeps_bind (keeps_within (getNode_keeps up.get_keeps _)) fun _ => up.touchRows_keeps _ _ _

theorem Upholds.touchNewlyRetainedWindow_keeps (old next : State) (windowSlots : Nat) :
    Keeps (Grows holds) (touchNewlyRetainedWindow ipld cfg old next windowSlots) :=
  keeps_ite (fun _ => keeps_pure _) fun _ =>
    keeps_ite (fun _ => keeps_pure _) fun _ => up.touchWindows_keeps _ _ _ _

theorem Upholds.survivingRows_keeps (st : State)
    (slot t : Nat) (retainWindow : Bool) :
    Keeps (Grows holds) (survivingRows ipld cfg st slot t retainWindow) := by
  refine keeps_bind (segmentFor_keeps up.get_keeps st t) fun link => ?_
  cases link with
  | none => exact keeps_pure _
  | some c =>
    refine keeps_bind (keeps_within (getNode_keeps up.get_keeps _)) fun seg => ?_
    refine keeps_bind (keeps_ite (fun _ => ?_) fun _ => keeps_pure _) fun _ => keeps_pure _
    exact up.touchTruncatedBlobs_keeps _

theorem Upholds.truncateDir_keeps (st : State)
    (t openW : Nat) : Keeps (Grows holds) (truncateDir ipld cfg st t openW) := by
  refine keeps_ite (fun _ => keeps_pure _) fun _ => keeps_ite (fun _ => keeps_pure _) fun _ => ?_
  split
  · exact keeps_fail _
  · exact keeps_bind (up.dirTruncate_keeps _ _) fun _ => up.dirShrink_keeps _ _

theorem Upholds.rewindIndex_keeps (st : State)
    (slot windowSlots : Nat) (retainWindow : Bool) :
    Keeps (Grows holds) (rewindIndex ipld cfg st slot windowSlots retainWindow) := by
  refine keeps_bind (openOrd_keeps up.get_keeps st) fun openW => ?_
  refine keeps_bind (up.survivingRows_keeps _ _ _ _) fun rows => ?_
  refine keeps_bind (up.truncateDir_keeps _ _ _) fun _ => ?_
  refine keeps_bind (up.sealIfFull_keeps _ _ _ _) fun _ => ?_
  refine keeps_bind (keeps_within (up.commitSegment_keeps _ _)) fun _ => ?_
  exact keeps_bind (keeps_ite (fun _ => up.touchNewlyRetainedWindow_keeps _ _ _) fun _ =>
    keeps_pure _) fun _ => keeps_pure _

theorem Upholds.truncateWith_keepsOnError (slot windowSlots : Nat) (retainWindow : Bool) :
    KeepsOnError (Grows holds) (truncateWith ipld cfg slot windowSlots retainWindow) := by
  refine keepsOnError_bind keeps_get fun w => ?_
  refine keepsOnError_bind (keeps_ofExcept _) fun _ => ?_
  exact keepsOnError_bind (up.rewindIndex_keeps _ _ _ _) fun next =>
    keepsOnError_bind_total (up.publish_keepsOnError next) fun _ _ => ⟨_, _, rfl⟩

theorem Upholds.truncateToEmpty_keepsOnError :
    KeepsOnError (Grows holds) (truncateToEmpty ipld cfg) := by
  exact keepsOnError_bind keeps_get fun w =>
    keepsOnError_bind_total (up.publish_keepsOnError _) fun _ _ => ⟨_, _, rfl⟩

end Keeps

/-! ### The contents up to a slot -/

def Contents.upTo (m : Contents) (slot : Nat) : Contents :=
  ⟨some slot, m.rows.filter fun r => r.slot ≤ slot⟩

theorem copyRowsUpTo_eq_filter {rows : List Row}
    (ascending : rows.Pairwise fun a b => a.slot < b.slot) (slot : Nat) :
    copyRowsUpTo rows slot = rows.filter fun r => r.slot ≤ slot := by
  have downward : rows.Pairwise fun a b =>
      decide (b.slot ≤ slot) = true → decide (a.slot ≤ slot) = true := by
    refine ascending.imp fun before inside => ?_
    simp only [decide_eq_true_eq] at inside ⊢
    omega
  simpa [copyRowsUpTo] using (split_of_downward downward).1

theorem windowRows_upTo_filter (segBits : Nat) (rows : List Row) (slot win : Nat) :
    windowRows segBits (rows.filter fun r => r.slot ≤ slot) win =
      (windowRows segBits rows win).filter fun r => r.slot ≤ slot := by
  simp only [windowRows, List.filter_filter, Bool.and_comm]

theorem windowRows_upTo_before (segBits : Nat) (rows : List Row) {slot win : Nat}
    (before : win < ord slot segBits) :
    windowRows segBits (rows.filter fun r => r.slot ≤ slot) win = windowRows segBits rows win := by
  rw [windowRows_upTo_filter, List.filter_eq_self]
  intro r member
  obtain ⟨-, same⟩ := mem_windowRows.mp member
  have first := le_ord_iff.mp (Nat.succ_le_of_lt before)
  have last := (ord_eq_iff.mp same).2
  simp only [decide_eq_true_eq]
  exact Nat.le_of_lt (Nat.lt_of_lt_of_le last first)

theorem Contents.Valid.upTo (valid : m.Valid params) {s slot : Nat}
    (covered : m.coverage = some s) (inside : slot ≤ s) (origin : params.originSlot ≤ slot) :
    (m.upTo slot).Valid params where
  ascending := valid.ascending.filter _
  admitted := fun r member => valid.admitted r (List.mem_of_mem_filter member)
  after_origin := fun r member => valid.after_origin r (List.mem_of_mem_filter member)
  covered := fun r member => ⟨slot, rfl, by simpa using List.of_mem_filter member⟩
  origin_le := by
    rintro _ ⟨⟩
    exact origin
  bounded := by
    rintro _ ⟨⟩
    exact Nat.lt_of_le_of_lt inside (valid.bounded s covered)

section Spec
variable {w : World σ} {st : State} {s slot : Nat}

/-! ### What a rewind reads -/

def InRows (rows : List Row) (c : Cid) : Prop := ∃ r ∈ rows, ∃ e ∈ r.entries, e.blob = some c

/-- A notion of having been read: reading a blob brings it about and nothing undoes it. -/
structure Notes (cfg : Config σ) (holds read : World σ → Cid → Prop) : Prop where
  mono : ∀ {w w' c}, Grows holds w w' → read w c → read w' c
  get : ∀ {c w}, c.codec = raw →
    Post (getBlock cfg c) w (fun _ after => read after c) (fun _ => True)

theorem notes_any : Notes cfg holds fun _ _ => True :=
  ⟨fun _ _ => trivial, fun _ => post_mono (post_any _) (fun _ _ _ => trivial) fun _ _ =>
    trivial⟩

def Touched (read : World σ → Cid → Prop) (rows : List Row) (w : World σ) (key : Multihash) : Prop :=
  ∃ d, InRows rows d ∧ d.hash = key ∧ read w d

variable {read : World σ → Cid → Prop}

variable (notes : Notes cfg holds read)

include notes in
theorem Notes.touched {rows : List Row} {w' : World σ} {key : Multihash} (grows : Grows holds w w')
    (touched : Touched read rows w key) : Touched read rows w' key := by
  obtain ⟨d, inside, same, done⟩ := touched
  exact ⟨d, inside, same, notes.mono grows done⟩

def retainedFrom (params : Params) (windowSlots s : Nat) : Nat :=
  ord (max (s - windowSlots) params.originSlot) params.segBits

variable (indexed : Indexed ipld params holds w st m)
include indexed

variable (covered : m.coverage = some s)
include covered

theorem Indexed.firstRetainedWindow_eq (windowSlots : Nat) :
    firstRetainedWindow st windowSlots = retainedFrom params windowSlots s := by
  unfold firstRetainedWindow retainedFrom
  rw [indexed.syncedTo_eq covered, indexed.params_eq]
  dsimp only
  congr 1
  split <;> split <;> omega

theorem Indexed.sealedBelow_upTo (inside : slot ≤ s) {dir : Link} {dirDepth : Nat}
    (cut : DirOf ipld params.fanoutBits holds w
      (entriesOf params.segBits ipld m.rows params.base (ord slot params.segBits)) dir dirDepth) :
    SealedBelow ipld params holds w (m.upTo slot).rows (ord slot params.segBits)
      { st with root := none, dir, dirDepth } := by
  have same : ∀ win, win < ord slot params.segBits → windowRows params.segBits
      (m.rows.filter fun r => r.slot ≤ slot) win = windowRows params.segBits m.rows win :=
    fun _ => windowRows_upTo_before params.segBits m.rows
  refine ⟨indexed.params_eq, ?_, fun v based before some => ?_⟩
  · rw [Contents.upTo, entriesOf_congr ipld same]
    exact cut
  · rw [Contents.upTo, same v before] at some
    rw [Contents.upTo, segOf_congr (same v before)]
    have le : ord slot params.segBits ≤ openWindow params s := ord_mono _ (by omega)
    exact indexed.stored _ (.sealed covered based (by omega) some)

omit indexed

omit covered

/-- The windows whose blobs a rewind from `s` to `slot` reads: the one it rebuilds, and
those before it that the retention range comes to reach. -/
def Rereads (params : Params) (windowSlots s slot win : Nat) : Prop :=
  win = ord slot params.segBits ∨ retainedFrom params windowSlots slot ≤ win ∧
    win < retainedFrom params windowSlots s ∧ win < ord slot params.segBits

structure Rewinds (params : Params) (m : Contents) (slot : Nat) : Prop where
  inside : ∃ s, m.coverage = some s ∧ slot ≤ s
  origin : params.originSlot ≤ slot

include indexed in
theorem refuseTruncate_ok_iff {u : Unit} :
    refuseTruncate st slot = .ok u ↔ Rewinds params m slot := by
  simp only [refuseTruncate, Loops.bind_ok_iff, conflictUnless_ok_iff, Nat.not_lt, gt_iff_lt,
    exists_const, indexed.params_eq, indexed.covered_eq]
  constructor
  · rintro ⟨covered, inside, origin⟩
    obtain ⟨s, covered⟩ := Option.isSome_iff_exists.mp covered
    rw [indexed.syncedTo_eq covered] at inside
    exact ⟨⟨s, covered, inside⟩, origin⟩
  · rintro ⟨⟨s, covered, inside⟩, origin⟩
    refine ⟨?_, ?_, origin⟩
    · rw [covered]
      rfl
    · rw [indexed.syncedTo_eq covered]
      exact inside

inductive RewindFault (ipld : Codec) (flaky : Prop) (params : Params) (m : Contents) (slot : Nat)
    (retainWindow : Bool) : Prop where
  | conflict (refused : ¬ Rewinds params m slot)
  | index (fault : Extension.Fault ipld flaky params (m.upTo slot))
  | blobs (retain : retainWindow = true)
  | root (large : maxIndexNodeBytes < size (ipld.encode (rootNode ipld params (m.upTo slot))))

theorem Indexed.empty (usable : params.Usable) (w : World σ) :
    Indexed ipld params holds w (.empty params) ⟨none, []⟩ := by
  refine ⟨rfl, usable, .empty params, fun n body => ?_⟩
  cases body with
  | page covered => cases covered
  | sealed covered => cases covered
  | opened covered => cases covered

variable (up : Upholds ipld cfg holds unread flaky)
include up

section Blobs
variable {rows : List Row} {seen : List Multihash} {part : List Row}

include notes

theorem Upholds.touchEntries_spec (pass : BlobPass) (slot : Nat) {entries : List RefEntry}
    (among : ∀ e ∈ entries, ∀ c, e.blob = some c → InRows rows c)
    (done : ∀ key ∈ seen, Touched read rows w key) :
    Post (touchEntries cfg pass slot seen entries) w
      (fun seen' after => (∀ key ∈ seen', Touched read rows after key) ∧ seen ⊆ seen' ∧
        ∀ e ∈ entries, ∀ c, e.blob = some c → c.hash ∈ seen')
      (fun _ => entries ≠ []) := by
  induction entries generalizing seen w with
  | nil => exact post_pure ⟨done, List.Subset.refl _, by simp⟩
  | cons e rest ih =>
    rw [List.forall_mem_cons] at among
    have nonempty : e :: rest ≠ [] := List.cons_ne_nil _ _
    rw [touchEntries]
    split
    · rename_i undefined
      split
      · refine post_mono (ih among.2 done) ?_ fun _ _ => nonempty
        rintro seen' after ⟨touched, sub, covers⟩
        exact ⟨touched, sub, List.forall_mem_cons.mpr ⟨by simp [undefined], covers⟩⟩
      · exact post_fail nonempty
    · rename_i c blob
      have here : ∀ {seen' : List Multihash}, c.hash ∈ seen' →
          ∀ d, e.blob = some d → d.hash ∈ seen' := by
        intro seen' inside d named
        rw [blob] at named
        cases named
        exact inside
      refine post_ite (fun _ => post_fail nonempty) fun isRaw => post_ite (fun old => ?_) fun _ => ?_
      · refine post_mono (ih among.2 done) ?_ fun _ _ => nonempty
        rintro seen' after ⟨touched, sub, covers⟩
        exact ⟨touched, sub, List.forall_mem_cons.mpr ⟨here (sub old), covers⟩⟩
      · refine post_bind (keeps_within (up.get_keeps c)) (post_raised (post_within
          (notes.get (not_not.mp isRaw))) fun _ _ => nonempty) ?_
        intro _ middle got grows
        have now : ∀ key ∈ c.hash :: seen, Touched read rows middle key :=
          List.forall_mem_cons.mpr ⟨⟨c, among.1 c blob, rfl, got⟩, fun key member =>
            notes.touched grows (done key member)⟩
        refine post_mono (ih among.2 now) ?_ fun _ _ => nonempty
        rintro seen' after ⟨touched, sub, covers⟩
        exact ⟨touched, fun key member => sub (List.mem_cons_of_mem _ member),
          List.forall_mem_cons.mpr ⟨here (sub (List.mem_cons_self ..)), covers⟩⟩

theorem Upholds.touchRows_spec (pass : BlobPass) (among : ∀ r ∈ part, r ∈ rows)
    (done : ∀ key ∈ seen, Touched read rows w key) :
    Post (touchRows cfg pass seen part) w
      (fun seen' after => (∀ key ∈ seen', Touched read rows after key) ∧ seen ⊆ seen' ∧
        ∀ c, InRows part c → c.hash ∈ seen')
      (fun _ => rows ≠ []) := by
  induction part generalizing seen w with
  | nil => exact post_pure ⟨done, List.Subset.refl _, by simp [InRows]⟩
  | cons r rest ih =>
    rw [List.forall_mem_cons] at among
    have nonempty : rows ≠ [] := List.ne_nil_of_mem among.1
    refine post_then (post_raised (up.touchEntries_spec notes pass
      r.slot (fun e entry c named => ⟨r, among.1, e, entry, named⟩) done)
      fun _ _ => nonempty) ?_
    rintro first middle ⟨touched, sub, covers⟩
    refine post_mono (ih among.2 touched) ?_ fun _ _ => nonempty
    rintro seen' after ⟨touched', sub', covers'⟩
    refine ⟨touched', List.Subset.trans sub sub', ?_⟩
    rintro c ⟨r', row, e, entry, named⟩
    rcases List.mem_cons.mp row with rfl | later
    · exact sub' (covers e entry c named)
    · exact covers' c ⟨r', later, e, entry, named⟩

theorem Upholds.touchTruncatedBlobs_spec (among : ∀ r ∈ part, r ∈ rows) :
    Post (touchTruncatedBlobs cfg part) w
      (fun _ after => ∀ c, InRows part c → Touched read rows after c.hash) (fun _ => rows ≠ []) := by
  refine post_then (up.touchRows_spec notes _ among (by simp)) ?_
  rintro seen after ⟨touched, -, covers⟩
  exact post_pure fun c inside => touched _ (covers c inside)

include indexed

include covered

theorem Upholds.survivingRows_spec (inside : slot ≤ s) (origin : params.originSlot ≤ slot)
    (retainWindow : Bool) :
    Post (survivingRows ipld cfg st slot (ord slot params.segBits) retainWindow) w
      (fun rows after =>
        rows = windowRows params.segBits (m.upTo slot).rows (ord slot params.segBits) ∧
        (retainWindow = true → ∀ c, InRows rows c → Touched read (m.upTo slot).rows after c.hash))
      (fun _ => unread ∨ retainWindow = true ∧ (m.upTo slot).rows ≠ []) := by
  have based : params.base ≤ ord slot params.segBits := ord_mono _ origin
  have le : ord slot params.segBits ≤ openWindow params s := ord_mono _ (by omega)
  refine post_bind (segmentFor_keeps up.get_keeps st _) (post_raised (up.segmentFor_spec indexed covered based le)
    fun _ failed => .inl failed) ?_
  rintro _ middle rfl grows
  have cut := windowRows_upTo_filter params.segBits m.rows slot (ord slot params.segBits)
  rcases indexed.segmentLink_cases covered based le with ⟨link, empty⟩ | ⟨link, stored⟩
  · rw [link]
    refine post_pure ⟨?_, by simp [InRows]⟩
    rw [Contents.upTo, cut, empty]
    rfl
  · rw [link]
    have encodable := indexed.open_encodable covered le
    refine post_then (post_raised (post_within
      (up.getNode_spec (stored.mono grows) (stored.decodes_segment encodable)))
      fun _ failed => .inl failed) ?_
    rintro _ after rfl
    have rows : copyRowsUpTo (segOf params.segBits m.rows (ord slot params.segBits)).rows slot =
        windowRows params.segBits (m.upTo slot).rows (ord slot params.segBits) := by
      rw [Contents.upTo, cut]
      exact copyRowsUpTo_eq_filter encodable.ascending slot
    have among : ∀ r ∈ windowRows params.segBits (m.upTo slot).rows (ord slot params.segBits),
        r ∈ (m.upTo slot).rows := fun r member => (mem_windowRows.mp member).1
    simp only [rows]
    refine post_bind (keeps_ite (fun _ => up.touchTruncatedBlobs_keeps _) fun _ =>
      keeps_pure _) (P := fun _ after => retainWindow = true → ∀ c,
        InRows (windowRows params.segBits (m.upTo slot).rows (ord slot params.segBits)) c →
          Touched read (m.upTo slot).rows after c.hash)
      (post_ite (fun retain => ?_) fun skipped => post_pure fun retain => absurd retain skipped)
      fun _ _ touched _ => post_pure ⟨rfl, touched⟩
    exact post_mono (up.touchTruncatedBlobs_spec notes among) (fun _ _ touched _ => touched)
      fun _ nonempty => .inr ⟨retain, nonempty⟩

end Blobs

include notes

include indexed

include covered

theorem Upholds.touchWindows_spec {rounds win : Nat} {seen : List Multihash}
    (based : params.base ≤ win) (le : win + rounds ≤ openWindow params s + 1)
    (done : ∀ key ∈ seen, Touched read m.rows w key) :
    Post (touchWindows ipld cfg st rounds win seen) w
      (fun _ after => (∀ key ∈ seen, Touched read m.rows after key) ∧
        ∀ u, win ≤ u → u < win + rounds → ∀ c, InRows (windowRows params.segBits m.rows u) c →
          Touched read m.rows after c.hash)
      (fun _ => unread ∨ m.rows ≠ []) := by
  induction rounds generalizing w win seen with
  | zero => exact post_pure ⟨done, fun u low high => by omega⟩
  | succ rounds ih =>
    -- After the window at hand, `seen` has the hashes of its blobs.
    have onwards : ∀ {middle : World σ} {seen' : List Multihash}, Grows holds w middle →
        (∀ key ∈ seen', Touched read m.rows middle key) → seen ⊆ seen' →
        (∀ c, InRows (windowRows params.segBits m.rows win) c → c.hash ∈ seen') →
        Post (touchWindows ipld cfg st rounds (win + 1) seen') middle
          (fun _ after => (∀ key ∈ seen, Touched read m.rows after key) ∧
            ∀ u, win ≤ u → u < win + (rounds + 1) →
              ∀ c, InRows (windowRows params.segBits m.rows u) c →
                Touched read m.rows after c.hash)
          (fun _ => unread ∨ m.rows ≠ []) := by
      intro middle seen' grows touched sub covers
      refine post_mono (ih (indexed.mono grows) (by omega) (by omega) touched) ?_ fun _ e => e
      rintro _ after ⟨kept, windows⟩
      refine ⟨fun key member => kept key (sub member), fun u low high c inside => ?_⟩
      by_cases same : u = win
      · subst same
        exact kept _ (covers c inside)
      · exact windows u (by omega) (by omega) c inside
    refine post_bind (segmentFor_keeps up.get_keeps st _) (post_raised
      (up.segmentFor_spec indexed covered based (by omega))
      fun _ failed => .inl failed) ?_
    rintro _ middle rfl grows
    have still : ∀ key ∈ seen, Touched read m.rows middle key := fun key member =>
      notes.touched grows (done key member)
    rcases indexed.segmentLink_cases covered based (by omega) with ⟨link, empty⟩ | ⟨link, stored⟩
    · rw [link]
      refine post_pure_bind (onwards grows still (List.Subset.refl _) ?_)
      rw [empty]
      simp [InRows]
    · rw [link]
      have encodable := indexed.open_encodable covered (show win ≤ openWindow params s by omega)
      have among : ∀ r ∈ (segOf params.segBits m.rows win).rows, r ∈ m.rows :=
        fun r member => (mem_windowRows.mp member).1
      refine post_bind (P := fun seen' after => (∀ key ∈ seen', Touched read m.rows after key) ∧
          seen ⊆ seen' ∧ ∀ c, InRows (windowRows params.segBits m.rows win) c → c.hash ∈ seen')
        (keeps_bind (keeps_within (getNode_keeps up.get_keeps _)) fun _ =>
          up.touchRows_keeps _ _ _) ?_ ?_
      · refine post_bind (keeps_within (getNode_keeps up.get_keeps _)) (post_raised (post_within
          (up.getNode_spec (stored.mono grows) (stored.decodes_segment encodable)))
          fun _ failed => .inl failed) ?_
        rintro _ opened rfl more
        exact post_raised (up.touchRows_spec notes _ among fun key member =>
          notes.touched more (still key member)) fun _ nonempty => .inr nonempty
      · rintro seen' after ⟨touched, sub, covers⟩ more
        exact onwards ((grows_preorder holds).trans grows more) touched sub covers

omit covered in
omit indexed in
theorem Upholds.touchNewlyRetainedWindow_spec {old next : State} {m' : Contents} {s' : Nat}
    {v : World σ} (before : Indexed ipld params holds v old m') (covered' : m'.coverage = some s')
    (indexed : Indexed ipld params holds w next m) (covered : m.coverage = some s)
    (origin : params.originSlot ≤ s) (windowSlots : Nat) :
    Post (touchNewlyRetainedWindow ipld cfg old next windowSlots) w
      (fun _ after => ∀ u, retainedFrom params windowSlots s ≤ u →
        u < retainedFrom params windowSlots s' → u ≤ ord s params.segBits →
        ∀ c, InRows (windowRows params.segBits m.rows u) c → Touched read m.rows after c.hash)
      (fun _ => unread ∨ m.rows ≠ []) := by
  have based : params.base ≤ retainedFrom params windowSlots s := ord_mono _ (Nat.le_max_right _ _)
  have reached : retainedFrom params windowSlots s ≤ ord s params.segBits :=
    ord_mono _ (Nat.max_le.mpr ⟨Nat.sub_le _ _, origin⟩)
  have top := openWindow_ge params s
  unfold touchNewlyRetainedWindow
  rw [before.firstRetainedWindow_eq covered', indexed.firstRetainedWindow_eq covered,
    indexed.syncedTo_eq covered, indexed.params_eq]
  dsimp only
  refine post_ite (fun none => post_pure fun u low high => by omega) fun some =>
    post_ite (fun none => post_pure fun u low high => by omega) fun _ => ?_
  refine post_mono (up.touchWindows_spec notes indexed covered based (by omega) (by simp)) ?_
    fun _ raised => raised
  rintro _ after ⟨-, windows⟩ u low high le
  exact windows u low (by omega)

omit notes in
theorem Upholds.truncateDir_spec {t : Nat} (based : params.base ≤ t) (le : t ≤ openWindow params s) :
    Post (truncateDir ipld cfg st t (openWindow params s)) w
      (fun r after => DirOf ipld params.fanoutBits holds after
        (entriesOf params.segBits ipld m.rows params.base t) r.1 r.2)
      (fun _ => flaky ∨ BigPage ipld (2 ^ params.fanoutBits)) := by
  have canonical := indexed.dirOf covered
  have small : (sealedEntries ipld params m.rows s).length < 2 ^ 63 :=
    indexed.valid.sealed_small covered
  have length : (sealedEntries ipld params m.rows s).length = openWindow params s - params.base :=
    length_sealedEntries m.rows
  have usable := indexed.usable
  have top := ord_le (s + 1) params.segBits
  have bound := indexed.valid.bounded s covered
  rw [maxInt64_eq] at bound
  change openWindow params s ≤ s + 1 at top
  unfold truncateDir
  rw [indexed.dirBase_eq, indexed.params_eq, sub64_eq based (by omega)]
  dsimp only
  refine post_ite (fun same => ?_) fun different => post_ite (fun first => ?_) fun some => ?_
  · rw [same]
    exact post_pure canonical
  · have none : t = params.base := by omega
    simp only [none, entriesOf, Nat.sub_self, List.range_zero, List.map_nil]
    exact post_pure .nil
  · obtain ⟨level, depth⟩ : ∃ level, st.dirDepth = level + 1 := by
      refine Nat.exists_eq_succ_of_ne_zero fun flat => ?_
      have := canonical.least.zero_iff.mp flat
      omega
    have fits := canonical.least.holds
    have shallow := canonical.least.le_64 usable.fanout_pos (by omega)
    have narrow : params.fanoutBits < 64 := Nat.lt_of_le_of_lt usable.fanout_le (by omega)
    rw [pathDigits_eq narrow shallow (by omega), depth]
    have link : st.dir = Option.some (pageCid ipld (2 ^ params.fanoutBits) level
        (sealedEntries ipld params m.rows s)) := by
      rw [canonical.link, depth]
      rfl
    rw [link]
    rw [depth] at fits
    have taken : (sealedEntries ipld params m.rows s).take (t - params.base) =
        entriesOf params.segBits ipld m.rows params.base t :=
      entriesOf_take ipld m.rows based le
    refine post_then (up.dirTruncate_spec (Nat.two_pow_pos _) level
      (canonical.stored level depth) (by omega) (by omega) (by rw [← pow_mul]; exact fits)
      (entriesOf_indexLinks ipld _ _ _)) ?_
    rintro _ after ⟨rfl, stored⟩
    rw [taken] at stored ⊢
    have fewer : (entriesOf params.segBits ipld m.rows params.base t).length = t - params.base :=
      length_entriesOf ..
    exact post_raised (up.dirShrink_spec level stored (by omega) (by omega))
      fun _ failed => .inl (up.reads failed)

theorem Upholds.rewindIndex_spec (inside : slot ≤ s) (origin : params.originSlot ≤ slot)
    (windowSlots : Nat) (retainWindow : Bool) :
    Post (rewindIndex ipld cfg st slot windowSlots retainWindow) w
      (fun next after => Indexed ipld params holds after next (m.upTo slot) ∧
        (retainWindow = true → ∀ u, Rereads params windowSlots s slot u →
          ∀ c, InRows (windowRows params.segBits (m.upTo slot).rows u) c →
            Touched read (m.upTo slot).rows after c.hash))
      (fun _ => Extension.Fault ipld flaky params (m.upTo slot) ∨
        retainWindow = true ∧ (m.upTo slot).rows ≠ []) := by
  have valid := indexed.valid.upTo covered inside origin
  have bound := valid.bounded slot rfl
  have small : slot ≤ maxInt64 := Nat.le_of_lt bound
  have based : params.base ≤ ord slot params.segBits := ord_mono _ origin
  have top := openWindow_ge params slot
  have start := valid.open_start rfl top
  have segBits : st.params.segBits = params.segBits := by rw [indexed.params_eq]
  unfold rewindIndex
  rw [segBits]
  refine post_bind (openOrd_keeps up.get_keeps st) (post_raised (up.openOrd_indexed indexed covered)
    fun _ failed => .inl (.inl (up.reads failed))) ?_
  rintro _ first rfl grows
  replace indexed := indexed.mono grows
  refine post_bind (up.survivingRows_keeps _ _ _ _) (post_raised
    (up.survivingRows_spec notes indexed covered inside origin retainWindow)
    fun _ raised => ?_) ?_
  · exact raised.imp (fun failed => .inl (up.reads failed)) id
  rintro _ second ⟨rfl, rebuilt⟩ grows
  replace indexed := indexed.mono grows
  refine post_bind (up.truncateDir_keeps _ _ _) (post_raised (up.truncateDir_spec indexed covered
    based (ord_mono _ (by omega))) fun _ raised => ?_) ?_
  · exact .inl (raised.imp id .inl)
  rintro ⟨dir, dirDepth⟩ third cut toThird
  replace indexed := indexed.mono toThird
  have segment : ({ slot0 := windowStart (ord slot params.segBits) params.segBits
                    rows := windowRows params.segBits (m.upTo slot).rows
                      (ord slot params.segBits) } : Segment) =
      segOf params.segBits (m.upTo slot).rows (ord slot params.segBits) := by
    rw [maxInt64_eq] at start
    rw [windowStart_eq (by omega)]
    rfl
  rw [segment]
  refine post_bind (up.sealIfFull_keeps _ _ _ _) (post_raised (up.sealIfFull_spec indexed.usable small
    (indexed.sealedBelow_upTo covered inside cut) .dirty based (Nat.le_refl _))
    fun _ raised => .inl (raised.extension valid rfl top)) ?_
  rintro ⟨next, opened⟩ fourth ⟨full, partly⟩ toFourth
  -- Either way the open segment is the one of the window coverage now ends in.
  have done : Done ipld params holds fourth (m.upTo slot).rows slot ⟨next, opened, []⟩ := by
    by_cases past : ord slot params.segBits < openWindow params slot
    · obtain ⟨below, rfl⟩ := full past
      have here : openWindow params slot = ord slot params.segBits + 1 := by
        have le := openWindow_le_succ params slot
        omega
      refine ⟨here ▸ below, ?_, rfl⟩
      have empty := valid.windowRows_beyond rfl past
      rw [here] at empty ⊢
      simp only [segOf, empty]
      exact .dirty
    · have here : openWindow params slot = ord slot params.segBits := by omega
      obtain ⟨below, points⟩ := partly past
      exact ⟨here ▸ below, here ▸ points, rfl⟩
  refine post_bind (keeps_within (up.commitSegment_keeps _ _)) (post_raised (post_within
    (up.commitSegment_spec done.opened _))
    fun _ raised => .inl (SealFault.extension (raised.imp id .inr) valid rfl (Nat.le_refl _))) ?_
  rintro _ fifth ⟨rfl, stored, -⟩ toFifth
  have done : Done ipld params holds fifth (m.upTo slot).rows slot ⟨next, opened, []⟩ :=
    done.mono toFifth
  have made := done.indexed (m.upTo slot) indexed.usable valid rfl stored rfl
  have order := grows_preorder holds
  -- What was read of the rebuilt window stays read to the end.
  have since : Grows holds second fifth := order.trans toThird (order.trans toFourth toFifth)
  refine post_bind (keeps_ite (fun _ => up.touchNewlyRetainedWindow_keeps _ _ _) fun _ =>
    keeps_pure _) (P := fun _ after => retainWindow = true → ∀ u,
      retainedFrom params windowSlots slot ≤ u → u < retainedFrom params windowSlots s →
      u ≤ ord slot params.segBits → ∀ c,
        InRows (windowRows params.segBits (m.upTo slot).rows u) c →
          Touched read (m.upTo slot).rows after c.hash)
    (post_ite (fun retain => ?_) fun skipped => post_pure fun retain => absurd retain skipped) ?_
  · refine post_mono (up.touchNewlyRetainedWindow_spec notes indexed covered made rfl origin
      windowSlots) (fun _ _ touched _ => touched) fun _ raised => ?_
    exact raised.elim (fun failed => .inl (.inl (up.reads failed))) fun some => .inr ⟨retain, some⟩
  · intro _ last touched grows
    refine post_pure ⟨made.mono grows, fun retain u rereads c inside => ?_⟩
    rcases rereads with rfl | ⟨low, high, before⟩
    · exact notes.touched (order.trans since grows) (rebuilt retain c inside)
    · exact touched retain u low high (Nat.le_of_lt before) c inside

omit indexed

variable (unobserved : Unobserved holds)
include unobserved

omit covered

omit notes in
theorem Upholds.publish_root_spec (indexed : Indexed ipld params holds w st m) :
    Post (do
        let next ← publish ipld cfg st
        pure next.root) w
      (fun root after => root = after.cur.root ∧ Represents ipld params holds after m ∧
        Published ipld holds w after after.cur)
      (fun _ => flaky ∨ maxIndexNodeBytes < size (ipld.encode (rootNode ipld params m))) := by
  refine post_then (up.publish_indexed unobserved indexed) ?_
  rintro _ after ⟨rfl, represents, published⟩
  exact post_pure ⟨rfl, represents, published⟩

variable (represents : Represents ipld params holds w m)
include represents

/-- A rewind that retains a window has read the blobs the range comes to reach. -/
theorem Upholds.truncateWith_reads (slot windowSlots : Nat) (retainWindow : Bool) :
    Post (truncateWith ipld cfg slot windowSlots retainWindow) w
      (fun root after => Rewinds params m slot ∧ root = after.cur.root ∧
        Represents ipld params holds after (m.upTo slot) ∧
        Published ipld holds w after after.cur ∧ ∃ middle, (∀ c, holds middle c → holds after c) ∧
        (retainWindow = true → ∀ s, m.coverage = some s → ∀ u, Rereads params windowSlots s slot u →
          ∀ c, InRows (windowRows params.segBits (m.upTo slot).rows u) c →
            Touched read (m.upTo slot).rows middle c.hash))
      (fun _ => RewindFault ipld flaky params m slot
        (retainWindow = true ∧ (m.upTo slot).rows ≠ [])) := by
  have indexed := represents.toIndexed
  refine post_get_bind ?_
  refine post_ofExcept_bind (fun e error => ?_) fun _ ok => ?_
  · refine .conflict fun rewinds => ?_
    have ok : refuseTruncate w.cur slot = .ok () := (refuseTruncate_ok_iff indexed).mpr rewinds
    rw [ok] at error
    cases error
  · have rewinds := (refuseTruncate_ok_iff indexed).mp ok
    obtain ⟨s, covered, inside⟩ := rewinds.inside
    refine post_bind (up.rewindIndex_keeps _ _ _ _) (post_raised (up.rewindIndex_spec notes indexed
      covered inside rewinds.origin windowSlots retainWindow)
      fun _ raised => raised.elim .index fun blobs => .blobs (decide_eq_true blobs)) ?_
    rintro next middle ⟨made, touched⟩ grows
    refine post_mono (up.publish_root_spec unobserved made) ?_ fun _ raised => ?_
    · rintro root after ⟨same, represents, published⟩
      refine ⟨rewinds, same, represents, published.prepend grows, middle, published.kept, ?_⟩
      intro retain s' covered'
      rw [covered] at covered'
      cases covered'
      exact touched retain
    · exact raised.elim (fun failed => .index (.inl failed)) .root

omit notes

theorem Upholds.truncateWith_spec (slot windowSlots : Nat) (retainWindow : Bool) :
    Post (truncateWith ipld cfg slot windowSlots retainWindow) w
      (fun root after => Rewinds params m slot ∧ root = after.cur.root ∧
        Represents ipld params holds after (m.upTo slot) ∧
        Published ipld holds w after after.cur)
      (fun _ => RewindFault ipld flaky params m slot
        (retainWindow = true ∧ (m.upTo slot).rows ≠ [])) := by
  refine post_mono (up.truncateWith_reads notes_any unobserved represents slot windowSlots
    retainWindow) ?_ fun _ raised => raised
  rintro root after ⟨rewinds, same, represents, published, -⟩
  exact ⟨rewinds, same, represents, published⟩

theorem Upholds.truncateToEmpty_spec :
    Post (truncateToEmpty ipld cfg) w
      (fun root after => root = after.cur.root ∧ Represents ipld params holds after ⟨none, []⟩ ∧
        Published ipld holds w after after.cur)
      (fun _ => flaky ∨ maxIndexNodeBytes < size (ipld.encode (rootNode ipld params ⟨none, []⟩))) := by
  refine post_get_bind ?_
  rw [represents.params_eq]
  exact up.publish_root_spec unobserved (.empty represents.usable w)

omit represents

theorem Upholds.new_spec (params : Params) (w : World σ) :
    Post (new ipld cfg params) w
      (fun _ after => Represents ipld params holds after ⟨none, []⟩ ∧
        Published ipld holds w after after.cur)
      (fun _ => flaky ∨ ¬ params.Usable ∨
        maxIndexNodeBytes < size (ipld.encode (rootNode ipld params ⟨none, []⟩))) := by
  refine post_guard_bind (fun wide => .inr (.inl fun usable => ?_)) fun narrow => ?_
  · exact of_decide_eq_false wide usable.segBits
  refine post_guard_bind (fun wrong => .inr (.inl fun usable => ?_)) fun fanout => ?_
  · exact of_decide_eq_false wrong ⟨Nat.ne_of_gt usable.fanout_pos, usable.fanout_le⟩
  have segBits := of_decide_eq_true narrow
  obtain ⟨positive, fanout⟩ := of_decide_eq_true fanout
  by_cases usable : params.Usable
  · refine post_then (post_raised (up.publish_indexed unobserved (.empty usable w))
      fun _ raised => raised.imp id .inr) ?_
    rintro _ after ⟨rfl, represents, published⟩
    exact post_pure ⟨represents, published⟩
  · -- What the guards let through but is not usable has no Head block.
    refine post_bind_run (fun _ _ _ => .inr (.inl usable)) fun _ after ran => ?_
    obtain ⟨rfl, published⟩ := post_ok (up.publish_spec unobserved (.empty params) w) ran
    have encodable := published.encodable
    exact absurd ⟨encodable.name, encodable.origin, segBits, Nat.pos_of_ne_zero positive, fanout⟩
      usable

end Spec

end Bloar.Archive
