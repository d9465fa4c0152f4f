import Bloar.SyncSpec

/-!
Full verification. A segment's proof is published after its last entry has been checked,
and lasts for good: the CID of the segment fixes its entries, and the CID of a blob its
bytes. What a walk has passed over is therefore checked as well, whichever memo it stopped
at. Proofs held in memory only are meant to be the heads' open segments.
-/

namespace Bloar.Follow
open Ipld Schema Archive Pinning Traversal
/-! ### The proofs -/

namespace Proofs
variable {p : Proofs} {head : String} {c d : Cid} {durable : Bool} {kv : Kv}

@[simp] theorem classify_markers : (p.classify head c durable).markers = p.markers := by
  unfold classify
  split
  · split <;> rfl
  · rfl

theorem classify_durable :
    (p.classify head c true).verifiedSegments = p.verifiedSegments := by
  unfold classify
  simp only [if_true]
  split <;> rfl

variable {flag : Bool} {fails : Option Bool} {name : String}

theorem classify_segments (known : (p.classify head c durable).verifiedSegments d = some flag) :
    p.verifiedSegments d = some flag := by
  cases durable with
  | true => rwa [classify_durable] at known
  | false =>
    change p.evict head c d = some flag at known
    cases opened : p.verifiedOpen head with
    | none => simpa [evict, opened] using known
    | some prior =>
      by_cases evicted : prior ≠ c ∧ p.verifiedSegments prior = some false
      · simp only [evict, opened, if_pos evicted, Function.update_apply] at known
        split at known
        · cases known
        · exact known
      · simpa only [evict, opened, if_neg evicted] using known

theorem record_markers (marked : (p.record c fails).markers d = true) :
    p.markers d = true ∨ d = c := by
  change Function.update p.markers c _ d = true at marked
  rw [Function.update_apply] at marked
  split at marked
  · exact .inr ‹_›
  · exact .inl marked

theorem remember_segments (known : (p.remember c durable).verifiedSegments d = some flag) :
    p.verifiedSegments d = some flag ∨ (d = c ∧ flag = durable) := by
  change Function.update p.verifiedSegments c _ d = some flag at known
  rw [Function.update_apply] at known
  split at known
  · exact .inr ⟨‹_›, (Option.some.inj known).symm⟩
  · exact .inl known

inductive Looked (q : Proofs) (c : Cid) (durable : Bool) (kv : Kv) : Option Bool × Proofs → Prop where
  | known {flag : Bool} (hot : q.verifiedSegments c = some flag)
      (settled : durable = true → flag = true) : Looked q c durable kv (some true, q)
  | promoted (sealed : durable = true) (hot : q.verifiedSegments c = some false)
      (set : kv.setFails = none) :
      Looked q c durable kv (some true, (q.record c none).remember c true)
  | unrecorded {written : Bool} (sealed : durable = true)
      (hot : q.verifiedSegments c = some false) (set : kv.setFails = some written) :
      Looked q c durable kv (none, q.record c (some written))
  | unknown (cold : q.verifiedSegments c = none) : Looked q c durable kv (some false, q)
  | unread (cold : q.verifiedSegments c = none) : Looked q c durable kv (none, q)
  | loaded (cold : q.verifiedSegments c = none) (sealed : durable = true)
      (marked : q.markers c = true) : Looked q c durable kv (some true, q.remember c true)

theorem segmentVerified_looked (p : Proofs) (head : String) (c : Cid) (durable : Bool) (kv : Kv) :
    Looked (p.classify head c durable) c durable kv (p.segmentVerified head c durable kv) := by
  unfold segmentVerified
  dsimp only
  cases found : (p.classify head c durable).verifiedSegments c with
  | some flag =>
    dsimp only
    by_cases promotes : durable = true ∧ flag = false
    · obtain ⟨sealed, rfl⟩ := promotes
      rw [if_pos ⟨sealed, rfl⟩]
      cases set : kv.setFails with
      | none => exact .promoted sealed found set
      | some written => exact .unrecorded sealed found set
    · rw [if_neg promotes]
      refine .known found fun sealed => ?_
      cases flag with
      | true => rfl
      | false => exact absurd ⟨sealed, rfl⟩ promotes
  | none =>
    dsimp only
    cases durable with
    | false => exact .unknown found
    | true =>
      simp only [Bool.true_eq_false, if_false]
      split
      · exact .unread found
      · split
        · exact .loaded found rfl ‹_›
        · exact .unknown found

def Has (p : Proofs) (c : Cid) : Prop := (∃ flag, p.verifiedSegments c = some flag) ∨ p.markers c = true

theorem Has.of_classify (has : (p.classify head c durable).Has d) : p.Has d := by
  rcases has with ⟨flag, known⟩ | marked
  · exact .inl ⟨flag, classify_segments known⟩
  · rw [classify_markers] at marked
    exact .inr marked

theorem Has.of_record (has : (p.record c fails).Has d) : p.Has d ∨ d = c := by
  rcases has with known | marked
  · exact .inl (.inl known)
  · exact (record_markers marked).imp_left .inr

theorem Has.of_remember (has : (p.remember c durable).Has d) : p.Has d ∨ d = c := by
  rcases has with ⟨flag, known⟩ | marked
  · rcases remember_segments known with old | ⟨here, -⟩
    · exact .inl (.inl ⟨flag, old⟩)
    · exact .inr here
  · exact .inl (.inr marked)

/-- A lookup answers from the proofs there are, and makes no new one. -/
theorem segmentVerified_has :
    (∀ d, (p.segmentVerified head c durable kv).2.Has d → p.Has d) ∧
      ((p.segmentVerified head c durable kv).1 = some true → p.Has c) := by
  have looked := segmentVerified_looked p head c durable kv
  generalize p.segmentVerified head c durable kv = result at looked
  have kept (d : Cid) (has : (p.classify head c durable).Has d) : p.Has d := has.of_classify
  cases looked with
  | known hot => exact ⟨kept, fun _ => kept c (.inl ⟨_, hot⟩)⟩
  | promoted _ hot =>
    have here : p.Has c := kept c (.inl ⟨_, hot⟩)
    refine ⟨fun d has => ?_, fun _ => here⟩
    rcases has.of_remember with before | rfl
    · rcases before.of_record with old | rfl
      · exact kept d old
      · exact here
    · exact here
  | unrecorded _ hot =>
    refine ⟨fun d has => ?_, fun answer => nomatch answer⟩
    rcases has.of_record with old | rfl
    · exact kept d old
    · exact kept d (.inl ⟨_, hot⟩)
  | unknown | unread => exact ⟨kept, fun answer => nomatch answer⟩
  | loaded _ _ marked =>
    refine ⟨fun d has => ?_, fun _ => kept c (.inr marked)⟩
    rcases has.of_remember with old | rfl
    · exact kept d old
    · exact kept d (.inr marked)

inductive Published (p : Proofs) (head : String) (c : Cid) : Bool × Proofs → Prop where
  | sealed : Published p head c (true, ((p.record c none).classify head c true).remember c true)
  | failed (written : Bool) : Published p head c (false, p.record c (some written))
  | opened (flag : Bool) : Published p head c (true, (p.classify head c false).remember c flag)

theorem markSegmentVerified_published (p : Proofs) (head : String) (c : Cid) (durable : Bool)
    (kv : Kv) : Published p head c (p.markSegmentVerified head c durable kv) := by
  unfold markSegmentVerified
  cases durable with
  | true =>
    simp only [if_true]
    cases kv.setFails with
    | none => exact .sealed
    | some written => exact .failed written
  | false => exact .opened _

theorem markSegmentVerified_has (has : (p.markSegmentVerified head c durable kv).2.Has d) :
    p.Has d ∨ d = c := by
  have published := markSegmentVerified_published p head c durable kv
  generalize p.markSegmentVerified head c durable kv = result at published has
  cases published with
  | sealed =>
    rcases has.of_remember with before | here
    · exact before.of_classify.of_record
    · exact .inr here
  | failed written => exact has.of_record
  | opened flag => exact has.of_remember.imp_left Has.of_classify

def Owned (p : Proofs) : Prop :=
  ∀ c, p.verifiedSegments c = some false → ∃ head, p.verifiedOpen head = some c

variable (owned : p.Owned)
include owned

theorem Owned.of_same {q : Proofs}
    (segments : ∀ c, q.verifiedSegments c = some false → p.verifiedSegments c = some false)
    (opens : q.verifiedOpen = p.verifiedOpen) : q.Owned := by
  intro c held
  rw [opens]
  exact owned c (segments c held)

theorem Owned.classify_open : (p.classify head c false).Owned := by
  intro d held
  obtain ⟨other, at_other⟩ := owned d (classify_segments held)
  by_cases same : other = head
  · subst same
    by_cases here : d = c
    · subst here
      exact ⟨other, by simp [classify]⟩
    · -- The prior open segment is forgotten, unless its proof is durable.
      exfalso
      have before := classify_segments held
      change p.evict other c d = some false at held
      simp [evict, at_other, here, before] at held
  · exact ⟨other, by simp [classify, Function.update_of_ne same, at_other]⟩

theorem Owned.classify_durable (sealed : (p.classify head c true).verifiedSegments d = some false)
    (other : d ≠ c) : ∃ name, (p.classify head c true).verifiedOpen name = some d := by
  rw [Proofs.classify_durable] at sealed
  obtain ⟨name, at_name⟩ := owned d sealed
  refine ⟨name, ?_⟩
  unfold classify
  simp only [if_true]
  split
  · rename_i opened
    have different : name ≠ head := by
      rintro rfl
      rw [opened] at at_name
      exact other (Option.some.inj at_name).symm
    simpa [Function.update_of_ne different] using at_name
  · exact at_name

theorem Owned.segmentVerified
    (promoted : durable = true → p.verifiedSegments c = some false → kv.setFails = none) :
    (p.segmentVerified head c durable kv).2.Owned := by
  have looked := segmentVerified_looked p head c durable kv
  generalize p.segmentVerified head c durable kv = result at looked
  -- A classification keeps the owners, but for a segment that is to be promoted.
  have kept (notPromoted : durable = true → (p.classify head c durable).verifiedSegments c ≠ some false) :
      (p.classify head c durable).Owned := by
    cases durable with
    | false => exact owned.classify_open
    | true =>
      intro d held
      refine owned.classify_durable held ?_
      rintro rfl
      exact notPromoted rfl held
  cases looked with
  | known hot settled =>
    refine kept fun sealed => ?_
    rw [hot, settled sealed]
    simp
  | promoted sealed hot =>
    subst sealed
    intro d held
    rcases remember_segments held with old | ⟨-, impossible⟩
    · by_cases here : d = c
      · subst here
        simp [remember] at held
      · exact owned.classify_durable old here
    · cases impossible
  | unrecorded sealed hot set =>
    subst sealed
    rw [Proofs.classify_durable] at hot
    rw [promoted rfl hot] at set
    cases set
  | unknown cold => exact kept fun _ => by simp [cold]
  | unread cold => exact kept fun _ => by simp [cold]
  | loaded cold =>
    refine (kept fun _ => by simp [cold]).of_same (fun d held => ?_) rfl
    rcases remember_segments held with old | ⟨-, impossible⟩
    · exact old
    · cases impossible

theorem Owned.markSegmentVerified : (p.markSegmentVerified head c durable kv).2.Owned := by
  have published := markSegmentVerified_published p head c durable kv
  generalize p.markSegmentVerified head c durable kv = result at published
  cases published with
  | sealed =>
    have recorded : (p.record c none).Owned := owned.of_same (fun _ held => held) rfl
    intro d held
    rcases remember_segments held with old | ⟨-, impossible⟩
    · by_cases here : d = c
      · subst here
        simp [remember] at held
      · exact recorded.classify_durable old here
    · cases impossible
  | failed written => exact owned.of_same (fun _ held => held) rfl
  | opened flag =>
    intro d held
    rcases remember_segments held with old | ⟨rfl, -⟩
    · exact owned.classify_open d old
    · exact ⟨head, by simp [remember, classify]⟩

omit owned

theorem classify_opens (opened : (p.classify head c durable).verifiedOpen name = some d) :
    p.verifiedOpen name = some d ∨ name = head := by
  by_cases here : name = head
  · exact .inr here
  · refine .inl ?_
    unfold classify at opened
    split at opened
    · split at opened
      · simpa [Function.update_of_ne here] using opened
      · exact opened
    · simpa [Function.update_of_ne here] using opened

theorem segmentVerified_opens
    (opened : (p.segmentVerified head c durable kv).2.verifiedOpen name = some d) :
    p.verifiedOpen name = some d ∨ name = head := by
  have looked := segmentVerified_looked p head c durable kv
  generalize p.segmentVerified head c durable kv = result at looked opened
  cases looked with
  | known | promoted | unrecorded | unknown | unread | loaded => exact classify_opens opened

theorem markSegmentVerified_opens
    (opened : (p.markSegmentVerified head c durable kv).2.verifiedOpen name = some d) :
    p.verifiedOpen name = some d ∨ name = head := by
  have published := markSegmentVerified_published p head c durable kv
  generalize p.markSegmentVerified head c durable kv = result at published opened
  cases published with
  | sealed =>
    have before : ((p.record c none).classify head c true).verifiedOpen name = some d := opened
    have recorded := classify_opens before
    exact recorded
  | failed => exact .inl opened
  | opened =>
    have before : (p.classify head c false).verifiedOpen name = some d := opened
    exact classify_opens before

end Proofs

/-! ### Checked entries -/

def Binds (ipld : Codec) (versionedHash : Block → Option VersionedHash) (entry : RefEntry) : Prop :=
  ∃ blob data, entry.blob = some blob ∧ ipld.Verifies blob data ∧ versionedHash data = some entry.vh

def Audited (ipld : Codec) (checked : List RefEntry) (c : Cid) : Prop :=
  ∃ sg, IsSegment ipld c sg ∧ ∀ entry ∈ sg.entries, entry ∈ checked

def Loose (ipld : Codec) (checked : List RefEntry) (a b : Cid) : Prop :=
  ipld.LinksTo a b ∧ ¬ Audited ipld checked a

def NotRaw (c : Cid) : Prop := c.codec ≠ raw

def Checks (ipld : Codec) (checked : List RefEntry) (c : Cid) : Prop :=
  Whole (Loose ipld checked) NotRaw c

section Checked
variable {ipld : Codec} {checked more : List RefEntry} {c d : Cid} {sg : Segment}

theorem Audited.mono (audited : Audited ipld checked c) (grows : checked ⊆ more) :
    Audited ipld more c := by
  obtain ⟨sg, segment, entries⟩ := audited
  exact ⟨sg, segment, fun entry inside => grows (entries entry inside)⟩

theorem Loose.mono {a b : Cid} (grows : checked ⊆ more) (loose : Loose ipld more a b) :
    Loose ipld checked a b :=
  ⟨loose.1, fun audited => loose.2 (audited.mono grows)⟩

theorem Checks.mono (checks : Checks ipld checked c) (grows : checked ⊆ more) :
    Checks ipld more c :=
  Whole.mono checks (fun _ _ => Loose.mono grows) fun _ bare => bare

theorem segment_codec (segment : IsSegment ipld c sg) : c.codec = dagCBOR := by
  obtain ⟨block, rfl, -⟩ := segment
  rfl

/-- An index node is reached without passing through an audited segment. -/
theorem loose_of_dag (checked : List RefEntry) (distinct : ipld.Distinct) (under : ipld.Dag c d) (index : d.codec = dagCBOR) :
    Relation.ReflTransGen (Loose ipld checked) c d := by
  induction under using Relation.ReflTransGen.head_induction_on with
  | refl => exact .refl
  | @head a b link rest ih =>
    refine .head ⟨link, ?_⟩ ih
    -- Below an audited segment there are blobs, and nothing below those.
    rintro ⟨sg, segment, -⟩
    have leaf := (segment_below distinct segment link).2
    rcases rest.cases_head with rfl | ⟨_, further, -⟩
    · rw [leaf] at index
      cases index
    · exact raw_links leaf further

theorem Checks.entries (distinct : ipld.Distinct) (checks : Checks ipld checked c)
    (under : ipld.Dag c d) (segment : IsSegment ipld d sg) : ∀ entry ∈ sg.entries, entry ∈ checked := by
  by_cases audited : Audited ipld checked d
  · obtain ⟨sg', segment', entries⟩ := audited
    rwa [segment.unique segment']
  · intro entry inside
    exfalso
    obtain ⟨r, row, at_row⟩ := List.mem_flatMap.mp inside
    obtain ⟨_, _, _, _, raws⟩ := id segment
    obtain ⟨blob, named, isRaw⟩ := raws r row entry at_row
    have link : ipld.LinksTo d blob :=
      (segment_linksTo_iff distinct segment).mpr (mem_blobs_iff.mpr ⟨entry, inside, named⟩)
    have path := (loose_of_dag checked distinct under (segment_codec segment)).tail ⟨link, audited⟩
    exact checks blob path isRaw.2.1

end Checked

/-! ### What the checks of a run come to -/

def Phase.Audits (ipld : Codec) (checked : List RefEntry) : Phase → Prop
  | .fetched _ _ _ c entries => ∃ sg, IsSegment ipld c sg ∧ entries = sg.entries
  | .reading _ _ _ c true _ => Audited ipld checked c
  | .reading _ _ _ c false entries => ∃ sg, IsSegment ipld c sg ∧
      ∀ entry ∈ sg.entries, entry ∈ entries ∨ entry ∈ checked
  | _ => True

structure Pass.Audits (ipld : Codec) (policies : String → Option Policy) (checked : List RefEntry)
    (p : Pass) : Prop where
  progress : p.phase.planned = true →
    p.Progress (Loose ipld checked) NotRaw (fun _ => True) (p.Planned ipld policies)
  scan : p.phase.Audits ipld checked

def Complete (ipld : Codec) (checked : List RefEntry) (policy : Policy) (root : Cid) : Prop :=
  ∀ found pins, Enumerates ipld root found → desired policy found = .ok pins →
    ∀ pin ∈ pins, pin.recursive = true → Checks ipld checked pin.cid

structure Audit (ipld : Codec) (versionedHash : Block → Option VersionedHash) (s : Follower) :
    Prop where
  binds : ∀ entry ∈ s.checked, Binds ipld versionedHash entry
  proofs : ∀ c, s.proofs.Has c → Audited ipld s.checked c
  walked : s.verify = .full → ∀ c g, s.walked c = some g → Checks ipld s.checked c
  fetched : s.verify = .full → ∀ name hs root, s.heads name = some hs → hs.fetched = some root →
    Complete ipld s.checked hs.policy root
  pass : s.verify = .full → ∀ p, s.pass = some p → p.Audits ipld s.policies s.checked

section Audits
variable {ipld : Codec} {versionedHash : Block → Option VersionedHash} {s t : Follower}
variable {policies : String → Option Policy} {checked more : List RefEntry} {p p' : Pass}
variable {c first : Cid} {event : Event}

variable (audits : p.Audits ipld policies checked)
include audits

theorem Pass.Audits.mono (grows : checked ⊆ more) : p.Audits ipld policies more := by
  refine ⟨fun planned => (audits.progress planned).mono (fun _ _ => Loose.mono grows)
    (fun _ bare => bare) fun _ held => held, ?_⟩
  have scan := audits.scan
  cases at_phase : p.phase with
  | fetched => rwa [at_phase] at scan
  | reading _ _ _ c verified entries =>
    rw [at_phase] at scan
    cases verified with
    | true => exact Audited.mono scan grows
    | false =>
      obtain ⟨sg, segment, done⟩ := scan
      exact ⟨sg, segment, fun entry inside => (done entry inside).imp_right fun held => grows held⟩
  | _ => trivial

theorem Pass.Audits.move {phase : Phase} (same : p.phase.first = some first)
    (still : phase.first = some first)
    (search : Search (Loose ipld checked) NotRaw first p.phase.queued p.phase.marked →
      Search (Loose ipld checked) NotRaw first phase.queued phase.marked)
    (scan : phase.Audits ipld checked) :
    Pass.Audits ipld policies checked { p with phase := phase } := by
  have progress := audits.progress (Phase.planned_of_first same)
  exact ⟨fun _ => progress.move same still (search (progress.search first same)), scan⟩

theorem Pass.Audits.close {stack pending : List Cid} {verified : Bool}
    (phase : p.phase = .reading first stack pending c verified [])
    (audited : Audited ipld checked c) :
    Pass.Audits ipld policies checked { p with phase := .walking first stack (c :: pending) } := by
  refine audits.move (by rw [phase]; rfl) rfl (fun search => ?_) trivial
  rw [phase] at search
  have bare : NotRaw c := by
    obtain ⟨sg, segment, -⟩ := audited
    rw [NotRaw, segment_codec segment]
    decide
  exact Search.finish search bare fun d link => absurd audited link.2

variable (audit : Audit ipld versionedHash s)
include audit

omit audits

theorem Audit.advance (verify : t.verify = s.verify) (heads : t.heads = s.heads)
    (walked : t.walked = s.walked) (grows : s.checked ⊆ t.checked)
    (binds : ∀ entry ∈ t.checked, Binds ipld versionedHash entry)
    (proofs : ∀ c, t.proofs.Has c → Audited ipld t.checked c)
    (pass : s.verify = .full → ∀ p, t.pass = some p → p.Audits ipld s.policies t.checked) :
    Audit ipld versionedHash t where
  binds := binds
  proofs := proofs
  walked := by
    intro full c g memo
    rw [verify] at full
    rw [walked] at memo
    exact (audit.walked full c g memo).mono grows
  fetched := by
    intro full name hs root known done found pins enumerates made pin member recursive
    rw [verify] at full
    rw [heads] at known
    exact (audit.fetched full name hs root known done found pins enumerates made pin member
      recursive).mono grows
  pass := by
    intro full p running
    rw [verify] at full
    have same : t.policies = s.policies := by
      funext name
      rw [Follower.policies, Follower.policies, heads]
    rw [same]
    exact pass full p running

theorem Audit.stop (proofs : ∀ c, t.proofs.Has c → Audited ipld s.checked c)
    (pass : t.pass = none := by rfl) (verify : t.verify = s.verify := by rfl)
    (heads : t.heads = s.heads := by rfl) (walked : t.walked = s.walked := by rfl)
    (checked : t.checked = s.checked := by rfl) : Audit ipld versionedHash t := by
  refine audit.advance verify heads walked (by rw [checked]; exact List.Subset.refl _)
    (by rw [checked]; exact audit.binds) (by rw [checked]; exact proofs) fun full p running => ?_
  rw [pass] at running
  cases running

theorem Audit.move (proofs : ∀ c, t.proofs.Has c → Audited ipld s.checked c)
    (running : s.pass = some p) (pass : t.pass = some p')
    (moves : s.verify = .full →
      p.Audits ipld s.policies s.checked → p'.Audits ipld s.policies s.checked)
    (verify : t.verify = s.verify := by rfl) (heads : t.heads = s.heads := by rfl)
    (walked : t.walked = s.walked := by rfl) (checked : t.checked = s.checked := by rfl) :
    Audit ipld versionedHash t := by
  refine audit.advance verify heads walked (by rw [checked]; exact List.Subset.refl _)
    (by rw [checked]; exact audit.binds) (by rw [checked]; exact proofs) fun full p'' running' => ?_
  rw [pass] at running'
  cases running'
  rw [checked]
  exact moves full (audit.pass full p running)

theorem Audit.heads (policies : t.policies = s.policies)
    (fetched : s.verify = .full → ∀ name hs root, t.heads name = some hs → hs.fetched = some root →
      (∃ old, s.heads name = some old ∧ old.fetched = some root) ∨
        Complete ipld s.checked hs.policy root) (pass : t.pass = s.pass ∨ t.pass = none)
    (verify : t.verify = s.verify := by rfl) (walked : t.walked = s.walked := by rfl)
    (checked : t.checked = s.checked := by rfl) (proofs : t.proofs = s.proofs := by rfl) :
    Audit ipld versionedHash t where
  binds := by
    rw [checked]
    exact audit.binds
  proofs := by
    rw [checked, proofs]
    exact audit.proofs
  walked := by
    rw [verify, walked, checked]
    exact audit.walked
  fetched := by
    intro full name hs root known done
    rw [verify] at full
    rw [checked]
    rcases fetched full name hs root known done with ⟨old, before, same⟩ | complete
    · have policy : some hs.policy = some old.policy := by
        have at_name := congrFun policies name
        simpa [Follower.policies, known, before] using at_name
      rw [Option.some.inj policy]
      exact audit.fetched full name old root before same
    · exact complete
  pass := by
    intro full p running
    rw [verify] at full
    rw [checked, policies]
    rcases pass with pass | pass
    · rw [pass] at running
      exact audit.pass full p running
    · rw [pass] at running
      cases running

variable {name other : String} {hs : HeadState} {root : Cid}

omit audit

theorem fetched_setHead {hs' old : HeadState} (known : s.heads name = some old)
    (here : (s.setHead name hs').heads other = some hs) (done : hs.fetched = some root)
    (kept : hs'.fetched = some root → old.fetched = some root) :
    ∃ old, s.heads other = some old ∧ old.fetched = some root := by
  by_cases same : other = name
  · subst same
    obtain rfl : hs' = hs := by simpa [Follower.setHead] using here
    exact ⟨old, known, kept done⟩
  · have there : s.heads other = some hs := by
      simpa [Follower.setHead, Function.update_of_ne same] using here
    exact ⟨hs, there, done⟩

theorem fetched_quarantine (here : (s.quarantine name).heads other = some hs)
    (done : hs.fetched = some root) :
    ∃ old, s.heads other = some old ∧ old.fetched = some root := by
  by_cases same : other = name
  · subst same
    have found : (s.heads other).map (fun hs => { hs with quarantined := true }) = some hs := by
      simpa [Follower.quarantine] using here
    obtain ⟨old, known, rfl⟩ := Option.map_eq_some_iff.mp found
    exact ⟨old, known, done⟩
  · exact ⟨hs, by simpa [Follower.quarantine, same] using here, done⟩

theorem stamp_complete (audits : p.Audits ipld s.policies checked) (phase : p.phase = .between)
    (finished : p.tasks = []) (known : s.heads p.head = some hs) (stale : p.rootStale = true) :
    Complete ipld checked hs.policy p.root := by
  intro found pins enumerates made pin member recursive
  have policy : s.policies p.head = some hs.policy := by simp [Follower.policies, known]
  have planned : p.Planned ipld s.policies (taskOf pin) :=
    .inl ⟨stale, hs.policy, found, pins, policy, enumerates, made, pin, member, rfl⟩
  have settled := (audits.progress (by rw [phase]; rfl)).finished phase finished planned
  rw [taskOf, if_pos recursive] at settled
  exact settled

theorem Audit.step (step : Step ipld versionedHash s event t) (listed : Listed ipld s)
    (audit : Audit ipld versionedHash s) : Audit ipld versionedHash t := by
  have segments {head : String} {c : Cid} {durable : Bool} {kv : Kv} (d : Cid)
      (has : (s.proofs.segmentVerified head c durable kv).2.Has d) : Audited ipld s.checked d :=
    audit.proofs d (Proofs.segmentVerified_has.1 d has)
  -- A segment that has been read to its end is audited.
  have marks {p : Pass} {first c : Cid} {stack pending : List Cid} {durable : Bool} {kv : Kv}
      (running : s.pass = some p) (phase : p.phase = .reading first stack pending c false [])
      (full : s.verify = .full) : Audited ipld s.checked c ∧ ∀ d,
        (s.proofs.markSegmentVerified p.head c durable kv).2.Has d → Audited ipld s.checked d := by
    have scan := (audit.pass full p running).scan
    rw [phase] at scan
    obtain ⟨sg, segment, done⟩ := scan
    have audited : Audited ipld s.checked c :=
      ⟨sg, segment, fun entry inside => (done entry inside).resolve_left List.not_mem_nil⟩
    refine ⟨audited, fun d has => ?_⟩
    rcases Proofs.markSegmentVerified_has has with old | rfl
    · exact audit.proofs d old
    · exact audited
  cases step with
  | store | swap =>
    exact audit.advance rfl rfl rfl (List.Subset.refl _) audit.binds audit.proofs audit.pass
  | @adopt name old known root tip =>
    refine audit.heads (policies_setHead known rfl)
      (fun _ other hs root' here done => .inl (fetched_setHead known here done fun kept => ?_))
      (.inl rfl)
    unfold HeadState.adopt at kept
    dsimp only at kept
    split at kept
    · exact kept
    · cases kept
  | @withdraw name old known =>
    exact audit.heads (policies_setHead known rfl)
      (fun _ other hs root here done => .inl (fetched_setHead known here done nofun)) (.inl rfl)
  | quarantine name =>
    exact audit.heads (policies_quarantine name)
      (fun _ other hs root here done => .inl (fetched_quarantine here done)) (.inl rfl)
  | @restart heads markers verify blocks fresh kept =>
    refine ⟨audit.binds, fun c has => ?_, nofun, fun _ name hs root known done => ?_, nofun⟩
    · rcases has with ⟨flag, known⟩ | marked
      · cases known
      · exact audit.proofs c (.inr (kept c marked))
    · rw [(fresh name hs known).1] at done
      cases done
  | take =>
    refine audit.advance rfl rfl rfl (List.Subset.refl _) audit.binds audit.proofs
      fun _ p running => ?_
    cases running
    exact ⟨Bool.noConfusion, trivial⟩
  | @bind p running phase same =>
    exact audit.move audit.proofs running rfl fun _ _ => ⟨Bool.noConfusion, trivial⟩
  | @plan p hs found pins running phase stale known enumerated made =>
    have policy : s.policies p.head = some hs.policy := by simp [Follower.policies, known]
    refine audit.move audit.proofs running rfl fun _ _ => ⟨fun _ => ?_, trivial⟩
    exact .between rfl fun task planned => .inl (planned_mem policy enumerated made planned)
  | @chain p running phase fresh =>
    refine audit.move audit.proofs running rfl fun _ _ =>
      ⟨fun _ => .between rfl fun task planned => .inl ?_, trivial⟩
    rcases planned with ⟨stale, -⟩ | ⟨tip, at_tip, rfl⟩
    · simp [fresh] at stale
    · exact List.mem_map_of_mem (Option.mem_toList.mpr at_tip)
  | @classify p c rest kv verified running phase next answer =>
    exact audit.move segments running rfl fun _ audits =>
      ⟨fun planned => (audits.progress planned).settle phase next trivial, audits.scan⟩
  | unclassified => exact audit.stop segments
  | @ensure p c rest e running phase next ensured =>
    exact audit.move audit.proofs running rfl fun _ audits =>
      ⟨fun planned => (audits.progress planned).settle phase next trivial, audits.scan⟩
  | @recurse p c rest running phase next =>
    exact audit.move audit.proofs running rfl fun _ audits =>
      ⟨fun _ => (audits.progress (by rw [phase]; rfl)).recurse phase next, trivial⟩
  | @skip p first c stack pending running phase index done =>
    refine audit.move audit.proofs running rfl fun full audits =>
      audits.move (by rw [phase]; rfl) rfl (fun search => ?_) trivial
    rw [phase] at search
    exact search.skip (done.imp_right fun memo => audit.walked full c _ memo)
  | @leaf p first c stack pending e running phase blob plain ensured =>
    refine audit.move audit.proofs running rfl fun full _ => ?_
    rw [plain] at full
    cases full
  | @unbound p first c stack pending running phase blob full =>
    exact audit.heads (policies_quarantine p.head)
      (fun _ other hs root here done => .inl (fetched_quarantine here done)) (.inr rfl)
  | @node p first c stack pending e data node running phase index fresh plain obtained decoded =>
    refine audit.move audit.proofs running rfl fun _ audits =>
      audits.move (by rw [phase]; rfl) rfl (fun search => ?_) trivial
    rw [phase] at search
    have bare : NotRaw c := by
      rw [NotRaw, index]
      decide
    refine search.expand bare fun d link => .inl ?_
    exact List.mem_reverse.mpr (linksTo_of_decoded obtained.1 decoded link.1)
  | @fetch p first c stack pending e data sg running phase index fresh segment obtained decoded =>
    obtain ⟨sg', isSegment⟩ := listed p running c segment
    refine audit.move audit.proofs running rfl fun _ audits =>
      audits.move (by rw [phase]; rfl) rfl (fun search => ?_)
        ⟨sg, segment_of_decoded obtained.1 decoded isSegment, rfl⟩
    rwa [phase] at search
  | @read p first c stack pending entries running phase plain =>
    refine audit.move audit.proofs running rfl fun full _ => ?_
    rw [plain] at full
    cases full
  | @lookup p first c stack pending entries kv verified running phase full answer =>
    refine audit.move segments running rfl fun _ audits =>
      audits.move (by rw [phase]; rfl) rfl (fun search => ?_) ?_
    · rwa [phase] at search
    · obtain ⟨sg, segment, rfl⟩ : ∃ sg, IsSegment ipld c sg ∧ entries = sg.entries := by
        have scan := audits.scan
        rwa [phase] at scan
      cases verified with
      | true => exact audit.proofs c (Proofs.segmentVerified_has.2 answer)
      | false => exact ⟨sg, segment, fun _ inside => .inl inside⟩
  | unanswered => exact audit.stop segments
  | @hold p first c blob stack pending verified entry entries e running phase plain named ensured =>
    refine audit.move audit.proofs running rfl fun full audits =>
      audits.move (by rw [phase]; rfl) rfl (fun search => ?_) ?_
    · rwa [phase] at search
    · -- Under full verification, only a segment with a proof is not read.
      rcases plain with off | rfl
      · rw [off] at full
        cases full
      · have scan := audits.scan
        rwa [phase] at scan
  | @check p first c blob stack pending entry entries e data running phase full named obtained bound =>
    refine audit.advance rfl rfl rfl (List.subset_cons_self entry s.checked) (fun other inside => ?_)
      (fun d has => (audit.proofs d has).mono (List.subset_cons_self entry s.checked))
      fun full p' running' => ?_
    · rcases List.mem_cons.mp inside with rfl | old
      · exact ⟨blob, data, named, obtained.1, bound⟩
      · exact audit.binds other old
    · cases running'
      have audits := (audit.pass full p running).mono (List.subset_cons_self entry s.checked)
      refine audits.move (by rw [phase]; rfl) rfl (fun search => ?_) ?_
      · rwa [phase] at search
      · obtain ⟨sg, segment, done⟩ : ∃ sg, IsSegment ipld c sg ∧ ∀ other ∈ sg.entries,
            other ∈ entry :: entries ∨ other ∈ entry :: s.checked := by
          have scan := audits.scan
          rwa [phase] at scan
        refine ⟨sg, segment, fun other inside => ?_⟩
        rcases done other inside with waits | old
        · rcases List.mem_cons.mp waits with rfl | later
          · exact .inr List.mem_cons_self
          · exact .inl later
        · exact .inr old
  | @refute p first c blob stack pending entry entries e data running phase full named obtained =>
    exact audit.heads (policies_quarantine p.head)
      (fun _ other hs root here done => .inl (fetched_quarantine here done)) (.inr rfl)
  | @close p first c stack pending verified running phase plain =>
    refine audit.move audit.proofs running rfl fun full audits => ?_
    rcases plain with off | rfl
    · rw [off] at full
      cases full
    · have scan := audits.scan
      rw [phase] at scan
      exact audits.close phase scan
  | @mark p first c stack pending kv running phase full marked =>
    obtain ⟨audited, proofs⟩ := marks running phase full
    exact audit.move proofs running rfl fun _ audits => audits.close phase audited
  | @unmarked p first c stack pending kv running phase full failed =>
    exact audit.stop (marks running phase full).2
  | @drain p first pending running phase =>
    refine audit.move audit.proofs running rfl fun _ audits =>
      ⟨fun _ => (audits.progress (by rw [phase]; rfl)).drain phase ?_, ?_⟩
    · split
      · exact .inl rfl
      · exact .inr rfl
    · split <;> trivial
  | @commit p pending running phase =>
    have planned : p.phase.planned = true := by rw [phase]; rfl
    refine ⟨audit.binds, audit.proofs, fun full c g memo => ?_, audit.fetched,
      fun full p' running' => ?_⟩
    · have audits := audit.pass full p running
      by_cases inside : c ∈ pending
      · exact (audits.progress planned).marks pending phase c inside
      · exact audit.walked full c g (by simpa [Follower.commit, Follower.goto, inside] using memo)
    · cases running'
      exact ⟨fun _ => ((audit.pass full p running).progress planned).commit phase, trivial⟩
  | @stamp p hs running phase finished current known =>
    refine audit.heads (policies_setHead known rfl)
      (fun full other hs' root here done => ?_) (.inr rfl)
    by_cases same : other = p.head
    · subst same
      obtain rfl : hs.stamp p = hs' := by simpa [Follower.setHead, Follower.stop] using here
      unfold HeadState.stamp at done
      dsimp only at done
      split at done
      · rename_i stamped
        cases done
        have complete := stamp_complete (audit.pass full p running) phase finished known stamped.1
        exact .inr complete
      · exact .inl ⟨hs, known, done⟩
    · refine .inl ⟨hs', ?_, done⟩
      simpa [Follower.setHead, Follower.stop, Function.update_of_ne same] using here
  | stop => exact audit.stop audit.proofs

end Audits

/-! ### Proofs in memory -/

/-- Where a lookup promotes a proof from memory, the write of its marker succeeds. -/
def Follower.Promoted (s : Follower) : Event → Prop
  | .segmentVerified c durable kv =>
    durable = true → s.proofs.verifiedSegments c = some false → kv.setFails = none
  | _ => True

structure Owners (s : Follower) : Prop where
  owned : s.proofs.Owned
  known : ∀ name c, s.proofs.verifiedOpen name = some c → (s.heads name).isSome
  head : ∀ p, s.pass = some p → (s.heads p.head).isSome

section Owners
variable {ipld : Codec} {versionedHash : Block → Option VersionedHash} {s t : Follower}
variable {p p' : Pass} {event : Event}

theorem Owners.same (owners : Owners s) (proofs : t.proofs = s.proofs)
    (heads : ∀ name, (s.heads name).isSome → (t.heads name).isSome)
    (pass : ∀ p', t.pass = some p' → (s.heads p'.head).isSome) : Owners t where
  owned := by
    rw [proofs]
    exact owners.owned
  known := fun name c opened => heads name (owners.known name c (by rwa [proofs] at opened))
  head := fun p' running => heads p'.head (pass p' running)

theorem Owners.changed {name : String} (owners : Owners s) (head : (s.heads name).isSome)
    (owned : t.proofs.Owned)
    (opens : ∀ other c, t.proofs.verifiedOpen other = some c →
      s.proofs.verifiedOpen other = some c ∨ other = name)
    (heads : t.heads = s.heads) (pass : ∀ p', t.pass = some p' → p'.head = name) : Owners t where
  owned := owned
  known := by
    intro other c opened
    rw [heads]
    rcases opens other c opened with before | rfl
    · exact owners.known other c before
    · exact head
  head := by
    intro p' running
    rw [heads, pass p' running]
    exact head

theorem heads_setHead {name other : String} {hs : HeadState} (known : (s.heads other).isSome) :
    ((s.setHead name hs).heads other).isSome := by
  by_cases same : other = name
  · simp [Follower.setHead, same]
  · simpa [Follower.setHead, Function.update_of_ne same] using known

theorem heads_quarantine {name other : String} (known : (s.heads other).isSome) :
    ((s.quarantine name).heads other).isSome := by
  by_cases same : other = name
  · subst same
    simpa [Follower.quarantine] using known
  · simpa [Follower.quarantine, same] using known

theorem Owners.step (step : Step ipld versionedHash s event t) (promoted : s.Promoted event)
    (owners : Owners s) : Owners t := by
  cases step with
  | store | swap => exact owners.same rfl (fun _ known => known) owners.head
  | adopt | withdraw => exact owners.same rfl (fun _ => heads_setHead) owners.head
  | quarantine => exact owners.same rfl (fun _ => heads_quarantine) owners.head
  | restart => exact ⟨nofun, nofun, nofun⟩
  | take free known =>
    refine owners.same rfl (fun _ here => here) fun p' running => ?_
    cases running
    exact Option.isSome_iff_exists.mpr ⟨_, known⟩
  | @classify p c rest kv verified running phase next answer =>
    refine owners.changed (owners.head p running) (owners.owned.segmentVerified promoted)
      (fun _ _ => Proofs.segmentVerified_opens) rfl fun p' running' => ?_
    cases running'
    rfl
  | @unclassified p c rest kv running phase next answer =>
    exact owners.changed (owners.head p running) (owners.owned.segmentVerified promoted)
      (fun _ _ => Proofs.segmentVerified_opens) rfl nofun
  | @lookup p first c stack pending entries kv verified running phase full answer =>
    refine owners.changed (owners.head p running) (owners.owned.segmentVerified promoted)
      (fun _ _ => Proofs.segmentVerified_opens) rfl fun p' running' => ?_
    cases running'
    rfl
  | @unanswered p first c stack pending entries kv running phase full answer =>
    exact owners.changed (owners.head p running) (owners.owned.segmentVerified promoted)
      (fun _ _ => Proofs.segmentVerified_opens) rfl nofun
  | @mark p first c stack pending kv running phase full marked =>
    refine owners.changed (owners.head p running) owners.owned.markSegmentVerified
      (fun _ _ => Proofs.markSegmentVerified_opens) rfl fun p' running' => ?_
    cases running'
    rfl
  | @unmarked p first c stack pending kv running phase full failed =>
    exact owners.changed (owners.head p running) owners.owned.markSegmentVerified
      (fun _ _ => Proofs.markSegmentVerified_opens) rfl nofun
  | unbound | refute => exact owners.same rfl (fun _ => heads_quarantine) nofun
  | stamp => exact owners.same rfl (fun _ => heads_setHead) nofun
  | stop => exact owners.same rfl (fun _ known => known) nofun
  | bind running | plan running | chain running | ensure running | recurse running | skip running
  | leaf running | node running | fetch running | read running | hold running | check running
  | close running | drain running | commit running =>
    refine owners.same rfl (fun _ known => known) fun p' running' => ?_
    cases running'
    have known := owners.head _ running
    exact known

end Owners

end Bloar.Follow
