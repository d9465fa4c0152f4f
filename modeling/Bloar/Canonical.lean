import Bloar.Lookup

/-!
The index a head's contents determine. A head covers some slots and carries rows;
its windows, segments, directory and Head block are functions of its parameters
and these contents alone. `Represents` says that a world's current state is that
canonical index and that every node of it is stored.
-/

namespace Bloar.Archive
open Ipld Schema Arith Fallible
variable {σ : Type}

/-- What a head is about: the last covered slot, if any, and the rows so far. -/
structure Contents where
  coverage : Option Nat
  rows : List Row
  deriving DecidableEq, Repr

structure Params.Usable (params : Params) : Prop where
  name : headNameRE params.name.toList = true
  origin : params.originSlot ≤ maxInt64
  segBits : params.segBits ≤ 63
  fanout_pos : 0 < params.fanoutBits
  fanout_le : params.fanoutBits ≤ 32

structure Admitted (r : Row) : Prop where
  filled : 0 < r.entries.length
  ceiling : r.entries.length ≤ maxBlobsPerSlotCeiling
  defined : ∀ e ∈ r.entries, e.blob.isSome

structure Contents.Valid (params : Params) (m : Contents) : Prop where
  ascending : m.rows.Pairwise fun a b => a.slot < b.slot
  admitted : ∀ r ∈ m.rows, Admitted r
  after_origin : ∀ r ∈ m.rows, params.originSlot ≤ r.slot
  covered : ∀ r ∈ m.rows, ∃ s, m.coverage = some s ∧ r.slot ≤ s
  origin_le : ∀ s, m.coverage = some s → params.originSlot ≤ s
  bounded : ∀ s, m.coverage = some s → s < maxInt64

section Windows
variable (segBits : Nat)

def windowRows (rows : List Row) (win : Nat) : List Row :=
  rows.filter fun r => ord r.slot segBits = win

def segOf (rows : List Row) (win : Nat) : Segment :=
  { slot0 := win * 2 ^ segBits, rows := windowRows segBits rows win }

variable (ipld : Codec)

def segCid (rows : List Row) (win : Nat) : Cid := cidOf ipld (segmentNode (segOf segBits rows win))

def entryOf (rows : List Row) (win : Nat) : Link :=
  if windowRows segBits rows win = [] then none else some (segCid segBits ipld rows win)

def entriesOf (rows : List Row) (base openW : Nat) : List Link :=
  (List.range (openW - base)).map fun i => entryOf segBits ipld rows (base + i)

end Windows

def openWindow (params : Params) (s : Nat) : Nat := ord (s + 1) params.segBits

def Params.base (params : Params) : Nat := ord params.originSlot params.segBits

section CanonicalState
variable (ipld : Codec) (params : Params)

def sealedEntries (rows : List Row) (s : Nat) : List Link :=
  entriesOf params.segBits ipld rows params.base (openWindow params s)

def bareState (m : Contents) : State :=
  match m.coverage with
  | none => .empty params
  | some s =>
    let es := sealedEntries ipld params m.rows s
    let depth := canonicalDepth es.length params.fanoutBits
    { params, syncedTo := s, covered := true, dirDepth := depth
      dir := dirLink ipld params.fanoutBits depth es
      openCid := some (segCid params.segBits ipld m.rows (openWindow params s))
      root := none }

def rootNode (m : Contents) : Node := headNode (bareState ipld params m).headObject

def canonicalState (m : Contents) : State :=
  { bareState ipld params m with root := some (cidOf ipld (rootNode ipld params m)) }

def dirPages (es : List Link) : List (List Link) :=
  match canonicalDepth es.length params.fanoutBits with
  | 0 => []
  | level + 1 => pagesOf ipld (2 ^ params.fanoutBits) level es

inductive BodyNode (m : Contents) : Node → Prop where
  | page {s : Nat} {kids : List Link} (covered : m.coverage = some s)
      (member : kids ∈ dirPages ipld params (sealedEntries ipld params m.rows s)) :
      BodyNode m (dirNodeNode ⟨kids⟩)
  | sealed {s win : Nat} (covered : m.coverage = some s) (based : params.base ≤ win)
      (below : win < openWindow params s)
      (rows : windowRows params.segBits m.rows win ≠ []) :
      BodyNode m (segmentNode (segOf params.segBits m.rows win))
  | opened {s : Nat} (covered : m.coverage = some s) :
      BodyNode m (segmentNode (segOf params.segBits m.rows (openWindow params s)))

def IndexNode (m : Contents) (n : Node) : Prop :=
  n = rootNode ipld params m ∨ BodyNode ipld params m n

/-- Up to its root, `st` is the canonical state of `m`, and everything it links is
stored. -/
structure Indexed (holds : World σ → Cid → Prop) (w : World σ) (st : State) (m : Contents) :
    Prop where
  state : { st with root := none } = bareState ipld params m
  usable : params.Usable
  valid : m.Valid params
  stored : ∀ n, BodyNode ipld params m n → Stored ipld holds w n

structure Represents (holds : World σ → Cid → Prop) (w : World σ) (m : Contents) : Prop
    extends Indexed ipld params holds w w.cur m where
  root : w.cur.root = some (cidOf ipld (rootNode ipld params m))
  rootStored : Stored ipld holds w (rootNode ipld params m)

end CanonicalState

/-! ### Windows of valid contents -/

section WindowFacts
variable {segBits : Nat}

theorem windowRows_append (a b : List Row) (win : Nat) :
    windowRows segBits (a ++ b) win = windowRows segBits a win ++ windowRows segBits b win :=
  List.filter_append ..

variable {rows : List Row} {win base openW : Nat}

theorem mem_windowRows {r : Row} :
    r ∈ windowRows segBits rows win ↔ r ∈ rows ∧ ord r.slot segBits = win := by
  simp [windowRows]

theorem windowRows_eq_nil (apart : ∀ r ∈ rows, ord r.slot segBits ≠ win) :
    windowRows segBits rows win = [] := by
  rw [windowRows, List.filter_eq_nil_iff]
  intro r member
  simpa using apart r member

theorem windowRows_find (segBits : Nat) {slot : Nat} :
    (windowRows segBits rows (ord slot segBits)).find? (fun r => r.slot = slot) =
      rows.find? fun r => r.slot = slot := by
  rw [windowRows, List.find?_filter]
  congr 1
  funext r
  by_cases same : r.slot = slot
  · simp [same]
  · simp [same]

variable (ipld : Codec)

variable (rows : List Row)

theorem length_entriesOf (base openW : Nat) :
    (entriesOf segBits ipld rows base openW).length = openW - base := by
  simp [entriesOf]

theorem entriesOf_succ (le : base ≤ openW) :
    entriesOf segBits ipld rows base (openW + 1) =
      entriesOf segBits ipld rows base openW ++ [entryOf segBits ipld rows openW] := by
  have count : openW + 1 - base = openW - base + 1 := by omega
  have last : base + (openW - base) = openW := by omega
  simp [entriesOf, count, List.range_succ, last]

theorem entriesOf_getElem (based : base ≤ win) (below : win < openW) :
    (entriesOf segBits ipld rows base openW)[win - base]? =
      some (entryOf segBits ipld rows win) := by
  have inside : win - base < openW - base := by omega
  have index : base + (win - base) = win := by omega
  simp [entriesOf, List.getElem?_map, List.getElem?_range inside, index]

theorem entriesOf_take (based : base ≤ win) (le : win ≤ openW) :
    (entriesOf segBits ipld rows base openW).take (win - base) =
      entriesOf segBits ipld rows base win := by
  rw [entriesOf, ← List.map_take, List.take_range, Nat.min_eq_left (by omega)]
  rfl

theorem entriesOf_indexLinks (base openW : Nat) :
    IndexLinks ipld (entriesOf segBits ipld rows base openW) := by
  intro c member
  simp only [entriesOf, List.mem_map] at member
  obtain ⟨i, -, entry⟩ := member
  unfold entryOf at entry
  split at entry
  · cases entry
  · cases entry
    exact ⟨_, rfl⟩

theorem segOf_congr {a b : List Row} (same : windowRows segBits a win = windowRows segBits b win) :
    segOf segBits a win = segOf segBits b win := by
  simp [segOf, same]

theorem entriesOf_congr {a b : List Row}
    (same : ∀ win, win < openW → windowRows segBits a win = windowRows segBits b win) :
    entriesOf segBits ipld a base openW = entriesOf segBits ipld b base openW := by
  apply List.map_congr_left
  intro i inside
  rw [List.mem_range] at inside
  have rows := same (base + i) (by omega)
  simp [entryOf, segCid, rows, segOf_congr rows]

end WindowFacts

section ValidFacts
variable {params : Params} {m : Contents}

theorem openWindow_ge (params : Params) (s : Nat) : ord s params.segBits ≤ openWindow params s :=
  ord_mono _ (by omega)

theorem Contents.Valid.base_le (valid : m.Valid params) {s : Nat} (covered : m.coverage = some s) :
    params.base ≤ ord s params.segBits :=
  ord_mono _ (valid.origin_le s covered)

theorem Contents.Valid.row_le (valid : m.Valid params) {s : Nat} (covered : m.coverage = some s)
    {r : Row} (member : r ∈ m.rows) : r.slot ≤ s := by
  obtain ⟨s', covered', le⟩ := valid.covered r member
  rw [covered] at covered'
  cases covered'
  exact le

theorem Contents.Valid.empty (params : Params) : Contents.Valid params ⟨none, []⟩ :=
  ⟨.nil, by simp, by simp, by simp, by simp, by simp⟩

theorem Contents.Valid.rows_nil (valid : m.Valid params) (uncovered : m.coverage = none) :
    m.rows = [] := by
  cases rows : m.rows with
  | nil => rfl
  | cons r rest =>
    obtain ⟨s, covered, -⟩ := valid.covered r (by simp [rows])
    rw [uncovered] at covered
    cases covered

theorem Contents.Valid.windowRows_beyond (valid : m.Valid params) {s win : Nat}
    (covered : m.coverage = some s) (beyond : ord s params.segBits < win) :
    windowRows params.segBits m.rows win = [] := by
  apply windowRows_eq_nil
  intro r member same
  have le := ord_mono params.segBits (valid.row_le covered member)
  omega

theorem Contents.Valid.segOf_encodable (valid : m.Valid params) {win : Nat}
    (start : win * 2 ^ params.segBits ≤ maxInt64) :
    (segOf params.segBits m.rows win).Encodable := by
  refine ⟨⟨valid.ascending.filter _, fun r member => ?_⟩, start, fun r member => ?_⟩
  · obtain ⟨inside, same⟩ := mem_windowRows.mp member
    have admitted := valid.admitted r inside
    exact ⟨(ord_eq_iff.mp same).1, admitted.filled, admitted.ceiling, admitted.defined⟩
  · obtain ⟨inside, -⟩ := mem_windowRows.mp member
    obtain ⟨s, covered, le⟩ := valid.covered r inside
    have bound := valid.bounded s covered
    omega

theorem Contents.Valid.open_start (valid : m.Valid params) {s win : Nat}
    (covered : m.coverage = some s) (le : win ≤ openWindow params s) :
    win * 2 ^ params.segBits ≤ maxInt64 := by
  have first := le_ord_iff.mp le
  have bound := valid.bounded s covered
  omega

end ValidFacts

/-! ### Reading a represented head -/

section Reading
variable {ipld : Codec} {cfg : Config σ} {holds : World σ → Cid → Prop} {unread flaky : Prop}
variable {params : Params} {m : Contents} {w w' : World σ} {st : State} {s : Nat}

theorem Indexed.mono (indexed : Indexed ipld params holds w st m) (grows : Grows holds w w') :
    Indexed ipld params holds w' st m :=
  ⟨indexed.state, indexed.usable, indexed.valid, fun n body => (indexed.stored n body).mono grows⟩

variable (represents : Represents ipld params holds w m)
include represents

/-- Another world, and another sense of being held, in which the head has the same
state and the nodes that were held still are. -/
theorem Represents.transport {σ' : Type} {holds' : World σ' → Cid → Prop} {w' : World σ'}
    (same : w'.cur = w.cur) (kept : ∀ n, holds w (cidOf ipld n) → holds' w' (cidOf ipld n)) :
    Represents ipld params holds' w' m := by
  have stored : ∀ {n : Node}, Stored ipld holds w n → Stored ipld holds' w' n :=
    fun stored => ⟨kept _ stored.held, stored.fits⟩
  refine ⟨⟨?_, represents.usable, represents.valid, fun n body => stored (represents.stored n body)⟩,
    ?_, stored represents.rootStored⟩
  · rw [same]
    exact represents.state
  · rw [same]
    exact represents.root

theorem Represents.mono (grows : Grows holds w w') : Represents ipld params holds w' m :=
  represents.transport grows.cur fun _ held => grows.kept _ held

theorem Represents.state_eq : w.cur = canonicalState ipld params m := by
  have bare := represents.state
  have root := represents.root
  cases cur : w.cur
  rw [cur] at bare root
  simp_all [canonicalState, ← bare]

omit represents

@[simp] theorem bareState_params : (bareState ipld params m).params = params := by
  unfold bareState
  split <;> rfl

theorem bareState_covered : (bareState ipld params m).covered = m.coverage.isSome := by
  unfold bareState
  split <;> simp_all [State.empty]

theorem bareState_some (covered : m.coverage = some s) :
    bareState ipld params m =
      { params, syncedTo := s, covered := true
        dirDepth := canonicalDepth (sealedEntries ipld params m.rows s).length params.fanoutBits
        dir := dirLink ipld params.fanoutBits
          (canonicalDepth (sealedEntries ipld params m.rows s).length params.fanoutBits)
          (sealedEntries ipld params m.rows s)
        openCid := some (segCid params.segBits ipld m.rows (openWindow params s))
        root := none } := by
  simp [bareState, covered]

theorem length_sealedEntries (rows : List Row) :
    (sealedEntries ipld params rows s).length = openWindow params s - params.base :=
  length_entriesOf ..

theorem Contents.Valid.sealed_small (valid : m.Valid params) (covered : m.coverage = some s) :
    (sealedEntries ipld params m.rows s).length < 2 ^ 63 := by
  rw [length_sealedEntries]
  have bound := valid.bounded s covered
  have le := ord_le (s + 1) params.segBits
  rw [maxInt64_eq] at bound
  unfold openWindow
  omega

theorem ord_mul_pow (win segBits : Nat) : ord (win * 2 ^ segBits) segBits = win := by
  rw [ord_eq_div]
  exact Nat.mul_div_cancel _ (Nat.two_pow_pos segBits)

def segmentLink (ipld : Codec) (params : Params) (rows : List Row) (s win : Nat) : Link :=
  if win = openWindow params s then some (segCid params.segBits ipld rows win)
  else entryOf params.segBits ipld rows win

section Indexed
variable (indexed : Indexed ipld params holds w st m)
include indexed

theorem Indexed.params_eq : st.params = params := by
  have same := congrArg State.params indexed.state
  simpa using same

theorem Indexed.dirBase_eq : st.dirBase = params.base := by
  rw [State.dirBase, indexed.params_eq]
  rfl

theorem Indexed.covered_eq : st.covered = m.coverage.isSome := by
  have same := congrArg State.covered indexed.state
  rw [bareState_covered] at same
  exact same

variable (covered : m.coverage = some s)
include covered

theorem Indexed.syncedTo_eq : st.syncedTo = s := by
  have same := congrArg State.syncedTo indexed.state
  rw [bareState_some covered] at same
  exact same

theorem Indexed.openCid_eq :
    st.openCid = some (segCid params.segBits ipld m.rows (openWindow params s)) := by
  have same := congrArg State.openCid indexed.state
  rw [bareState_some covered] at same
  exact same

theorem Indexed.dirOf :
    DirOf ipld params.fanoutBits holds w (sealedEntries ipld params m.rows s) st.dir st.dirDepth := by
  have depth := congrArg State.dirDepth indexed.state
  have dir := congrArg State.dir indexed.state
  rw [bareState_some covered] at depth dir
  dsimp only at depth dir
  refine ⟨?_, ?_, fun level same kids member => ?_⟩
  · rw [depth]
    exact canonicalDepth_isDepth indexed.usable.fanout_pos
  · rw [dir, depth]
  · refine indexed.stored _ (.page covered ?_)
    rw [depth] at same
    simpa only [dirPages, same] using member

theorem Indexed.open_stored :
    Stored ipld holds w (segmentNode (segOf params.segBits m.rows (openWindow params s))) :=
  indexed.stored _ (.opened covered)

theorem Indexed.open_encodable
    {win : Nat} (le : win ≤ openWindow params s) :
    (segOf params.segBits m.rows win).Encodable :=
  indexed.valid.segOf_encodable (indexed.valid.open_start covered le)

theorem Indexed.segmentLink_cases
    {win : Nat} (based : params.base ≤ win)
    (le : win ≤ openWindow params s) :
    (segmentLink ipld params m.rows s win = none ∧ windowRows params.segBits m.rows win = []) ∨
      (segmentLink ipld params m.rows s win = some (segCid params.segBits ipld m.rows win) ∧
        Stored ipld holds w (segmentNode (segOf params.segBits m.rows win))) := by
  by_cases same : win = openWindow params s
  · exact .inr ⟨by rw [segmentLink, if_pos same], same ▸ indexed.open_stored covered⟩
  · by_cases empty : windowRows params.segBits m.rows win = []
    · exact .inl ⟨by rw [segmentLink, if_neg same, entryOf, if_pos empty], empty⟩
    · refine .inr ⟨by rw [segmentLink, if_neg same, entryOf, if_neg empty], ?_⟩
      exact indexed.stored _ (.sealed covered based (by omega) empty)

end Indexed

def Contents.rowAt (m : Contents) (originSlot slot : Nat) : Result × Option Row :=
  if slot < originSlot then (.of .beforeOrigin slot, none)
  else
    match m.coverage with
    | none => (.of .notYetCovered slot, none)
    | some s =>
      if s < slot then (.of .notYetCovered slot, none)
      else (.of .found slot, m.rows.find? fun r => r.slot = slot)

section Lookups
variable (up : Upholds ipld cfg holds unread flaky)
include up

variable (indexed : Indexed ipld params holds w st m)
include indexed

theorem Upholds.openOrd_indexed (covered : m.coverage = some s) :
    Post (openOrd ipld cfg st) w (fun n _ => n = openWindow params s) (fun _ => unread) := by
  refine post_mono (up.openOrd_spec (indexed.openCid_eq covered) (indexed.open_stored covered)
    (indexed.open_encodable covered (Nat.le_refl _))) (fun n _ same => ?_) fun _ failed => failed
  rw [same, indexed.params_eq]
  exact ord_mul_pow _ _

theorem Upholds.segmentFor_spec (covered : m.coverage = some s) {win : Nat}
    (based : params.base ≤ win) (le : win ≤ openWindow params s) :
    Post (segmentFor ipld cfg st win) w
      (fun r _ => r = segmentLink ipld params m.rows s win) (fun _ => unread) := by
  refine post_ite (fun uncovered => ?_) fun _ => ?_
  · rw [indexed.covered_eq, covered] at uncovered
    cases uncovered
  · refine post_bind (openOrd_keeps up.get_keeps st) (up.openOrd_indexed indexed covered) ?_
    rintro _ after rfl grows
    refine post_ite (fun same => ?_) fun different => ?_
    · refine post_pure ?_
      rw [segmentLink, if_pos same, indexed.openCid_eq covered, same]
    · have dirOf := (indexed.mono grows).dirOf covered
      have usable := indexed.usable
      have base := indexed.dirBase_eq
      have small : (sealedEntries ipld params m.rows s).length < 2 ^ 63 :=
        indexed.valid.sealed_small covered
      rw [← indexed.params_eq] at dirOf usable
      refine post_mono (up.sealedSegment_spec usable.fanout_pos
        (Nat.lt_of_le_of_lt usable.fanout_le (by omega)) dirOf (by rw [indexed.params_eq]; omega)
        (by rw [base]; exact based)) (fun r _ same => ?_) fun _ failed => failed
      rw [same, segmentLink, if_neg different, base, indexed.params_eq]
      unfold sealedEntries
      rw [entriesOf_getElem ipld m.rows based (by omega)]
      rfl

theorem Upholds.lookupRow_spec (slot : Nat) :
    Post (lookupRow ipld cfg st slot) w (fun r _ => r = m.rowAt params.originSlot slot)
      (fun _ => unread) := by
  refine post_ite (fun before => ?_) fun after_origin => post_ite (fun uncovered => ?_)
    fun reached => ?_
  · rw [indexed.params_eq] at before
    exact post_pure (by rw [Contents.rowAt, if_pos before])
  · rw [indexed.params_eq] at after_origin
    refine post_pure ?_
    rw [Contents.rowAt, if_neg after_origin]
    cases coverage : m.coverage with
    | none => rfl
    | some s =>
      rw [indexed.covered_eq, coverage, indexed.syncedTo_eq coverage] at uncovered
      rcases uncovered with impossible | past
      · cases impossible
      · simp only [if_pos past]
  · rw [indexed.params_eq] at after_origin
    cases coverage : m.coverage with
    | none =>
      rw [indexed.covered_eq, coverage] at reached
      exact absurd (.inl rfl) reached
    | some s =>
      have inside : slot ≤ s := by
        rw [indexed.syncedTo_eq coverage] at reached
        omega
      have answer : m.rowAt params.originSlot slot =
          (.of .found slot, m.rows.find? fun r => r.slot = slot) := by
        simp only [Contents.rowAt, if_neg after_origin, coverage]
        rw [if_neg (by omega)]
      rw [answer, indexed.params_eq]
      have based : params.base ≤ ord slot params.segBits := ord_mono _ (by omega)
      have le : ord slot params.segBits ≤ openWindow params s := ord_mono _ (by omega)
      refine post_bind (segmentFor_keeps up.get_keeps st _) (up.segmentFor_spec indexed coverage based le) ?_
      rintro link after rfl grows
      rcases indexed.segmentLink_cases coverage based le with ⟨link, empty⟩ | ⟨link, stored⟩
      · rw [link]
        refine post_pure ?_
        rw [← windowRows_find params.segBits, empty]
        rfl
      · rw [link]
        have encodable := indexed.open_encodable coverage le
        refine post_then (post_within
          (up.getNode_spec (stored.mono grows) (stored.decodes_segment encodable))) ?_
        rintro _ last rfl
        refine post_pure ?_
        rw [searchRows_eq_find encodable.ascending]
        exact congrArg (Prod.mk _) (windowRows_find _)

end Lookups

/-! ### The Head block -/

theorem dirLink_eq_none_iff {fanoutBits depth : Nat} {es : List Link} :
    depth = 0 ↔ dirLink ipld fanoutBits depth es = none := by
  cases depth <;> simp [dirLink]

theorem Contents.Valid.root_encodable (valid : m.Valid params) (usable : params.Usable) :
    (bareState ipld params m).headObject.Encodable := by
  have seg := usable.segBits
  have fanout := usable.fanout_le
  cases coverage : m.coverage with
  | none =>
    simp only [bareState, coverage]
    exact ⟨⟨usable.name, by simp [State.headObject, State.empty], by
      simp [State.headObject, State.empty]⟩, usable.origin,
      by simp only [State.headObject, State.empty, maxInt64_eq]; omega,
      by simp only [State.headObject, State.empty, maxInt64_eq]; omega,
      by simp [State.headObject, State.empty],
      by simp [State.headObject, State.empty]⟩
  | some s =>
    rw [bareState_some coverage]
    have bound := valid.bounded s coverage
    have depth : canonicalDepth (sealedEntries ipld params m.rows s).length params.fanoutBits ≤
        64 := by
      have small : (sealedEntries ipld params m.rows s).length < 2 ^ 63 :=
        valid.sealed_small coverage
      exact (canonicalDepth_isDepth usable.fanout_pos).le_64 usable.fanout_pos (by omega)
    refine ⟨⟨usable.name, dirLink_eq_none_iff, ?_⟩, usable.origin, ?_, ?_, ?_, ?_⟩
    · rintro _ ⟨⟩
      exact valid.origin_le s coverage
    · simp only [State.headObject, maxInt64_eq]
      omega
    · simp only [State.headObject, maxInt64_eq]
      omega
    · simp only [State.headObject, maxInt64_eq]
      omega
    · rintro _ ⟨⟩
      exact Nat.le_of_lt bound

theorem Stored.decodes_root (stored : Stored ipld holds w (rootNode ipld params m))
    (valid : m.Valid params) (usable : params.Usable) :
    decodeHead ipld (ipld.encode (rootNode ipld params m)) =
      .ok (bareState ipld params m).headObject :=
  decodeHead_encode (valid.root_encodable usable) (by rw [decodable_eq]; exact stored.fits)

end Reading

end Bloar.Archive
