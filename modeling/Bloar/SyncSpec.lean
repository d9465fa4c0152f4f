import Bloar.Sync

/-!
What a fetch pass proves. The walk of a pass is a search whose marks are committed only
when its stack has drained. The same search is read twice: for the presence of the blocks,
which lasts as long as the generation of the store, and for the checks of the entries,
which last for good.
-/

namespace Bloar.Follow
open Ipld Schema Archive Pinning Store Traversal

/-! ### The store under a pass -/

section Stores
variable {ipld : Codec} {s t : Epochs} {c : Cid} {data : Block}

theorem shown_effect (op : Op) (app : op.OfApplication) (shows : op.Shows s c)
    (same : (op.perform s).2 = t) : s.Effect t ∧ t.Safe c.hash := by
  subst same
  exact ⟨.of_application app, shows.safe⟩

theorem Ensured.effect (ensured : Ensured ipld s c t) : s.Effect t ∧ t.Safe c.hash := by
  rcases ensured with found | ⟨data, -, fetched⟩
  · exact shown_effect (.has c false) trivial ⟨rfl, congrArg Prod.fst found⟩
      (congrArg Prod.snd found)
  · exact shown_effect (.put c data none) trivial ⟨rfl, congrArg Prod.fst fetched⟩
      (congrArg Prod.snd fetched)

theorem Obtained.effect (obtained : Obtained ipld s c data t) : s.Effect t ∧ t.Safe c.hash := by
  rcases obtained with ⟨-, found | fetched⟩
  · refine shown_effect (.get c false) trivial ⟨rfl, ?_⟩ (congrArg Prod.snd found)
    have answer : ((Op.get c false).perform s).1 = .block data := congrArg Prod.fst found
    rw [answer]
    exact fun failed => nomatch failed
  · exact shown_effect (.put c data none) trivial ⟨rfl, congrArg Prod.fst fetched⟩
      (congrArg Prod.snd fetched)

end Stores

/-! ### Progress of a pass -/

namespace Phase

def first : Phase → Link
  | walking first .. | fetched first .. | reading first .. => some first
  | _ => none

/-- The nodes that the search has still to expand; the segment being read is one. -/
def queued : Phase → List Cid
  | walking _ stack _ => stack
  | fetched _ stack _ c _ | reading _ stack _ c _ _ => c :: stack
  | _ => []

def marked : Phase → List Cid
  | walking _ _ pending | fetched _ _ pending _ _ | reading _ _ pending _ _ _
  | committing pending => pending
  | _ => []

def planned : Phase → Bool
  | taken | bound => false
  | _ => true

end Phase

section Progress
variable {R R' : Cid → Cid → Prop} {Good Good' Held Held' : Cid → Prop} {planned : Task → Prop}
variable {p : Pass} {c first : Cid} {rest : List Task} {task : Task}

def Settled (R : Cid → Cid → Prop) (Good Held : Cid → Prop) : Task → Prop
  | .classify _ => True
  | .ensure c => Held c
  | .recurse c => Whole R Good c

structure Pass.Progress (R : Cid → Cid → Prop) (Good Held : Cid → Prop) (planned : Task → Prop)
    (p : Pass) : Prop where
  tasks : ∀ task, planned task →
    task ∈ p.tasks ∨ (∃ c, p.phase.first = some c ∧ task = .recurse c) ∨ Settled R Good Held task
  search : ∀ first, p.phase.first = some first →
    Search R Good first p.phase.queued p.phase.marked
  marks : ∀ pending, p.phase = .committing pending → ∀ c ∈ pending, Whole R Good c

variable (progress : p.Progress R Good Held planned)
include progress

theorem Pass.Progress.mono (fewer : ∀ a b, R' a b → R a b) (better : ∀ a, Good a → Good' a)
    (holds : ∀ a, Held a → Held' a) : p.Progress R' Good' Held' planned := by
  refine ⟨fun task plan => ?_, fun first walks => (progress.search first walks).mono fewer better,
    fun pending phase c marks => (progress.marks pending phase c marks).mono fewer better⟩
  refine (progress.tasks task plan).imp_right (Or.imp_right fun settled => ?_)
  cases task with
  | classify => trivial
  | ensure c => exact holds c settled
  | recurse c => exact settled.mono fewer better

variable (phase : p.phase = .between)
include phase

omit progress in
theorem Pass.Progress.between
    (tasks : ∀ task, planned task → task ∈ p.tasks ∨ Settled R Good Held task) :
    p.Progress R Good Held planned where
  tasks := fun task plan => (tasks task plan).imp_right .inr
  search := fun first walks => by simp [phase, Phase.first] at walks
  marks := fun pending committing => by simp [phase] at committing

theorem Pass.Progress.settle (next : p.tasks = task :: rest) (settled : Settled R Good Held task) :
    Pass.Progress R Good Held planned { p with tasks := rest } := by
  refine Pass.Progress.between (p := { p with tasks := rest }) phase fun other plan => ?_
  rcases progress.tasks other plan with waits | ⟨c, walks, -⟩ | before
  · rw [next] at waits
    rcases List.mem_cons.mp waits with rfl | later
    · exact .inr settled
    · exact .inl later
  · simp [phase, Phase.first] at walks
  · exact .inr before

theorem Pass.Progress.recurse (next : p.tasks = .recurse c :: rest) :
    Pass.Progress R Good Held planned { p with tasks := rest, phase := .walking c [c] [] } := by
  refine ⟨fun other plan => ?_, fun first walks => ?_, fun pending committing => nomatch committing⟩
  · rcases progress.tasks other plan with waits | ⟨c, walks, -⟩ | before
    · rw [next] at waits
      rcases List.mem_cons.mp waits with rfl | later
      · exact .inr (.inl ⟨c, rfl, rfl⟩)
      · exact .inl later
    · simp [phase, Phase.first] at walks
    · exact .inr (.inr before)
  · cases walks
    exact .start R Good c

omit phase

theorem Pass.Progress.move {phase : Phase} (same : p.phase.first = some first)
    (still : phase.first = some first) (search : Search R Good first phase.queued phase.marked) :
    Pass.Progress R Good Held planned { p with phase := phase } := by
  refine ⟨fun other plan => ?_, fun first' walks => ?_, fun pending committing => ?_⟩
  · refine (progress.tasks other plan).imp_right (Or.imp_left ?_)
    rintro ⟨c, walks, rfl⟩
    exact ⟨c, still.trans (same.symm.trans walks), rfl⟩
  · have at_first : phase.first = some first' := walks
    rw [still] at at_first
    cases at_first
    exact search
  · have impossible : phase = .committing pending := committing
    rw [impossible] at still
    cases still

theorem Pass.Progress.drain {pending : List Cid} (at_end : p.phase = .walking first [] pending)
    {phase : Phase} (next : phase = .committing pending ∨ phase = .between) :
    Pass.Progress R Good Held planned { p with phase := phase } := by
  have search := progress.search first (by rw [at_end]; rfl)
  rw [at_end] at search
  have idle : phase.first = none := by rcases next with rfl | rfl <;> rfl
  refine ⟨fun other plan => ?_, fun first' walks => ?_, fun pending' committing c marks => ?_⟩
  · rcases progress.tasks other plan with waits | ⟨c, walks, rfl⟩ | before
    · exact .inl waits
    · rw [at_end] at walks
      cases walks
      exact .inr (.inr search.first_whole)
    · exact .inr (.inr before)
  · have impossible : phase.first = some first' := walks
    rw [idle] at impossible
    cases impossible
  · have same : phase = .committing pending' := committing
    rcases next with rfl | rfl
    · cases same
      exact search.drained marks
    · cases same

theorem Pass.Progress.commit {pending : List Cid} (phase : p.phase = .committing pending) :
    Pass.Progress R Good Held planned { p with phase := .between } := by
  refine Pass.Progress.between (p := { p with phase := .between }) rfl fun other plan => ?_
  rcases progress.tasks other plan with waits | ⟨c, walks, -⟩ | before
  · exact .inl waits
  · simp [phase, Phase.first] at walks
  · exact .inr before

include phase

theorem Pass.Progress.finished (finished : p.tasks = []) (plan : planned task) :
    Settled R Good Held task := by
  rcases progress.tasks task plan with waits | ⟨c, walks, -⟩ | settled
  · simp [finished] at waits
  · simp [phase, Phase.first] at walks
  · exact settled

end Progress

def Pass.Planned (ipld : Codec) (policies : String → Option Policy) (p : Pass) (task : Task) : Prop :=
  (p.rootStale = true ∧ ∃ policy found pins, policies p.head = some policy ∧
      Enumerates ipld p.root found ∧ desired policy found = .ok pins ∧ ∃ pin ∈ pins, task = taskOf pin) ∨
    ∃ tip, p.tip = some tip ∧ task = .recurse tip

def Follower.policies (s : Follower) (name : String) : Option Policy :=
  (s.heads name).map HeadState.policy

section Plans
variable {ipld : Codec} {root : Cid} {found found' : Enumeration} {p : Pass}
variable {policies : String → Option Policy} {task : Task}

theorem enumerates_unique (first : Enumerates ipld root found) (second : Enumerates ipld root found') :
    found = found' := by
  obtain ⟨h, es, isHead, -, admissible, rfl⟩ := first.admissible
  obtain ⟨h', es', isHead', -, admissible', rfl⟩ := second.admissible
  obtain rfl := isHead.unique isHead'
  rw [admissible.unique admissible']

theorem enumerates_segment {c : Cid} (enumerates : Enumerates ipld root found)
    (listed : c ∈ found.sealed.map SealedSegment.cid ++ found.openCid.toList) :
    ∃ sg, IsSegment ipld c sg := by
  obtain ⟨h, es, -, -, admissible, rfl⟩ := enumerates.admissible
  rcases List.mem_append.mp listed with sealed | opened
  · obtain ⟨x, inside, rfl⟩ := List.mem_map.mp sealed
    exact admissible.isSegment (.inl ⟨x, inside, rfl⟩)
  · exact admissible.isSegment (.inr (Option.mem_toList.mp opened))

theorem planned_mem {policy : Policy} {pins : List Pin} {verify : Verify}
    (at_policy : policies p.head = some policy) (enumerates : Enumerates ipld p.root found)
    (made : desired policy found = .ok pins) (planned : p.Planned ipld policies task) :
    task ∈ (p.plan verify found pins).tasks := by
  rcases planned with ⟨-, policy', found', pins', at_policy', enumerates', made', pin, member, rfl⟩ |
    ⟨tip, at_tip, rfl⟩
  · rw [at_policy] at at_policy'
    cases at_policy'
    obtain rfl := enumerates_unique enumerates enumerates'
    rw [made] at made'
    cases made'
    exact List.mem_append_left _ (List.mem_append_right _ (List.mem_map_of_mem member))
  · exact List.mem_append_right _ (List.mem_map_of_mem (Option.mem_toList.mpr at_tip))

def Listed (ipld : Codec) (s : Follower) : Prop :=
  ∀ p, s.pass = some p → ∀ c ∈ p.segs, ∃ sg, IsSegment ipld c sg

theorem Listed.step {versionedHash : Block → Option VersionedHash} {s t : Follower} {event : Event}
    (listed : Listed ipld s) (step : Step ipld versionedHash s event t) : Listed ipld t := by
  intro p' running'
  cases step with
  | take =>
    cases running'
    exact fun c inside => nomatch inside
  | plan _ _ _ _ enumerated =>
    cases running'
    exact fun c inside => enumerates_segment enumerated inside
  | store | swap | adopt | withdraw | quarantine => exact listed p' running'
  | restart | unclassified | unbound | unanswered | refute | unmarked | stamp | stop =>
    cases running'
  | bind running | chain running | classify running | ensure running | recurse running
  | skip running | leaf running | node running | fetch running | read running | lookup running
  | hold running | check running | close running | mark running | drain running
  | commit running =>
    cases running'
    have before := listed _ running
    exact before

end Plans

/-! ### Presence -/

section Since
variable {P Q : Epochs → Prop} {s t : Epochs} {g : Nat}

/-- The fact has held since the generation was read, if no epoch has begun since then. -/
def Since (s : Epochs) (g : Nat) (P : Epochs → Prop) : Prop :=
  ∃ start, start ≤ s.begun ∧ g = idOf start ∧ (s.begun = start → P s)

theorem Since.now (numbered : s.nextID = idOf s.begun) (holds : P s) :
    Since s s.collectionGeneration P :=
  ⟨s.begun, Nat.le_refl _, numbered, fun _ => holds⟩

theorem Since.effect (since : Since s g P) (effect : s.Effect t)
    (keeps : t.begun = s.begun → P s → Q t) : Since t g Q := by
  obtain ⟨start, before, rfl, holds⟩ := since
  have later := effect.begun_le
  refine ⟨start, by omega, rfl, fun now => keeps (by omega) (holds (by omega))⟩

/-- The generation is the current one and has not come round. -/
theorem Since.current (since : Since s g P) (numbered : s.nextID = idOf s.begun)
    (bounded : s.begun < 2 ^ 64) (same : s.collectionGeneration = g) : P s := by
  obtain ⟨start, before, rfl, holds⟩ := since
  apply holds
  exact idOf_inj before bounded (numbered.symm.trans same)

end Since

def Held (s : Epochs) (c : Cid) : Prop := s.Safe c.hash

def Phase.Holds (ipld : Codec) (s : Epochs) : Phase → Prop
  | .fetched _ _ _ c entries => Held s c ∧ ∃ sg, IsSegment ipld c sg ∧ entries = sg.entries
  | .reading _ _ _ c _ entries => Held s c ∧ ∃ sg, IsSegment ipld c sg ∧
      ∀ e ∈ sg.entries, e ∈ entries ∨ ∀ blob ∈ e.blob, Held s blob
  | _ => True

structure Pass.Holds (ipld : Codec) (policies : String → Option Policy) (p : Pass) (s : Epochs) :
    Prop where
  progress : p.phase.planned = true →
    p.Progress ipld.LinksTo (Held s) (Held s) (p.Planned ipld policies)
  scan : p.phase.Holds ipld s

structure Present (ipld : Codec) (s : Follower) : Prop where
  numbered : s.store.nextID = idOf s.store.begun
  walked : ∀ c g, s.walked c = some g → Since s.store g fun e => Whole ipld.LinksTo (Held e) c
  pass : ∀ p, s.pass = some p → p.phase ≠ .taken →
    Since s.store p.generation (p.Holds ipld s.policies)

section Presence
variable {ipld : Codec} {versionedHash : Block → Option VersionedHash} {s t : Follower}
variable {e e' : Epochs} {policies : String → Option Policy} {p p' : Pass} {c first : Cid}
variable {event : Event}

variable {phase : Phase} {d : Cid} {sg : Segment} {blob : Cid} {stack pending : List Cid}
  {verified : Bool}

theorem Phase.Holds.effect (holds : phase.Holds ipld e) (effect : e.Effect e')
    (same : e'.begun = e.begun) : phase.Holds ipld e' := by
  cases phase with
  | fetched _ _ _ c entries => exact ⟨holds.1.effect effect same, holds.2⟩
  | reading _ _ _ c verified entries =>
    obtain ⟨held, sg, segment, blobs⟩ := holds
    refine ⟨held.effect effect same, sg, segment, fun entry inside => ?_⟩
    exact (blobs entry inside).imp_right fun held blob named => (held blob named).effect effect same
  | _ => trivial

theorem Pass.Holds.effect (holds : p.Holds ipld policies e) (effect : e.Effect e')
    (same : e'.begun = e.begun) : p.Holds ipld policies e' := by
  have better (c : Cid) (held : Held e c) : Held e' c := Epochs.Safe.effect held effect same
  exact ⟨fun planned => (holds.progress planned).mono (fun _ _ link => link) better better,
    holds.scan.effect effect same⟩

theorem Present.advance (present : Present ipld s) (effect : s.store.Effect t.store)
    (walked : t.walked = s.walked)
    (pass : ∀ p, t.pass = some p → p.phase ≠ .taken →
      Since t.store p.generation (p.Holds ipld t.policies)) : Present ipld t where
  numbered := effect.numbered present.numbered
  walked := by
    intro c g memo
    rw [walked] at memo
    refine (present.walked c g memo).effect effect fun same whole => ?_
    exact whole.mono (fun _ _ link => link) fun c held => Epochs.Safe.effect held effect same
  pass := pass

theorem Present.outside (present : Present ipld s) (effect : s.store.Effect t.store)
    (walked : t.walked = s.walked) (policies : t.policies = s.policies)
    (pass : t.pass = s.pass ∨ t.pass = none) : Present ipld t := by
  rcases pass with pass | pass
  · refine present.advance effect walked fun p running bound => ?_
    rw [pass] at running
    rw [policies]
    exact (present.pass p running bound).effect effect fun same holds => holds.effect effect same
  · refine present.advance effect walked fun p running => ?_
    rw [pass] at running
    cases running

theorem Present.move (present : Present ipld s) (effect : s.store.Effect t.store)
    (walked : t.walked = s.walked) (policies : t.policies = s.policies)
    (running : s.pass = some p) (bound : p.phase ≠ .taken) (pass : t.pass = some p')
    (generation : p'.generation = p.generation)
    (moves : p.Holds ipld s.policies t.store → p'.Holds ipld s.policies t.store) :
    Present ipld t := by
  refine present.advance effect walked fun p running' _ => ?_
  rw [pass] at running'
  cases running'
  rw [generation, policies]
  exact (present.pass _ running bound).effect effect fun same holds =>
    moves (holds.effect effect same)

theorem Phase.planned_of_first (walks : phase.first = some first) : phase.planned = true := by
  cases phase with
  | taken | bound => cases walks
  | _ => rfl

theorem Pass.Holds.move (holds : p.Holds ipld policies e) (same : p.phase.first = some first)
    (still : phase.first = some first)
    (search : Search ipld.LinksTo (Held e) first p.phase.queued p.phase.marked →
      Search ipld.LinksTo (Held e) first phase.queued phase.marked)
    (scan : p.phase.Holds ipld e → phase.Holds ipld e) :
    Pass.Holds ipld policies { p with phase := phase } e := by
  have progress := holds.progress (Phase.planned_of_first same)
  exact ⟨fun _ => progress.move same still (search (progress.search first same)), scan holds.scan⟩

theorem linksTo_of_decoded {data : Block} {node : Node} (verifies : ipld.Verifies c data)
    (decoded : ipld.decode data = some node) (link : ipld.LinksTo c d) : d ∈ node.links := by
  obtain ⟨-, data', node', verifies', decoded', inside⟩ := link
  rw [verifies'.unique verifies, decoded] at decoded'
  cases decoded'
  exact inside

theorem segment_of_decoded {data : Block} {sg' : Segment} (verifies : ipld.Verifies c data)
    (decoded : decodeSegment ipld data = .ok sg) (segment : IsSegment ipld c sg') :
    IsSegment ipld c sg := by
  obtain ⟨block, rfl, size, decoded', raws⟩ := id segment
  have same : data = block := verifies.unique rfl
  rw [same, decoded'] at decoded
  cases decoded
  exact segment

theorem mem_blobs_iff : blob ∈ sg.blobs ↔ ∃ entry ∈ sg.entries, entry.blob = some blob := by
  rw [Segment.mem_blobs]
  simp only [Segment.entries, List.mem_flatMap]
  constructor
  · rintro ⟨r, row, entry, inside, named⟩
    exact ⟨entry, ⟨r, row, inside⟩, named⟩
  · rintro ⟨entry, ⟨r, row, inside⟩, named⟩
    exact ⟨r, row, entry, inside, named⟩

theorem segment_below (distinct : ipld.Distinct) (segment : IsSegment ipld c sg)
    (link : ipld.LinksTo c d) : (∃ entry ∈ sg.entries, entry.blob = some d) ∧ d.codec = raw := by
  have blob := (segment_linksTo_iff distinct segment).mp link
  exact ⟨mem_blobs_iff.mp blob, (segment_blob_raw segment blob).2.1⟩

theorem Pass.Holds.close (distinct : ipld.Distinct) (holds : p.Holds ipld policies e)
    (phase : p.phase = .reading first stack pending c verified []) :
    Pass.Holds ipld policies { p with phase := .walking first stack (c :: pending) } e := by
  obtain ⟨held, sg, segment, blobs⟩ : Held e c ∧ ∃ sg, IsSegment ipld c sg ∧
      ∀ entry ∈ sg.entries, entry ∈ [] ∨ ∀ blob ∈ entry.blob, Held e blob := by
    have scan := holds.scan
    rwa [phase] at scan
  refine holds.move (by rw [phase]; rfl) rfl (fun search => ?_) fun _ => trivial
  rw [phase] at search
  refine Search.finish search held fun d link => ?_
  obtain ⟨⟨entry, inside, named⟩, leaf⟩ := segment_below distinct segment link
  rcases blobs entry inside with waits | held
  · cases waits
  · exact .leaf (held d named) fun _ => raw_links leaf

theorem Pass.Holds.entry (holds : p.Holds ipld policies e) {entry : RefEntry}
    {entries : List RefEntry}
    (phase : p.phase = .reading first stack pending c verified (entry :: entries))
    (named : entry.blob = some blob) (held : Held e blob) :
    Pass.Holds ipld policies { p with phase := .reading first stack pending c verified entries }
      e := by
  refine holds.move (by rw [phase]; rfl) rfl (fun search => ?_) fun scan => ?_
  · rwa [phase] at search
  · rw [phase] at scan
    obtain ⟨at_c, sg, segment, blobs⟩ := scan
    refine ⟨at_c, sg, segment, fun other inside => ?_⟩
    rcases blobs other inside with waits | done
    · rcases List.mem_cons.mp waits with rfl | later
      · refine .inr fun blob' named' => ?_
        rw [named] at named'
        cases named'
        exact held
      · exact .inl later
    · exact .inr done

theorem policies_setHead {name : String} {hs hs' : HeadState}
    (known : s.heads name = some hs) (same : hs'.policy = hs.policy) :
    (s.setHead name hs').policies = s.policies := by
  funext other
  unfold Follower.policies Follower.setHead
  by_cases here : other = name
  · subst here
    simp [known, same]
  · simp [Function.update_of_ne here]

theorem policies_quarantine (name : String) : (s.quarantine name).policies = s.policies := by
  funext other
  unfold Follower.policies Follower.quarantine
  by_cases here : other = name
  · subst here
    simp [Function.comp_def]
  · simp [here]

theorem Present.blank (numbered : s.store.nextID = idOf s.store.begun)
    (walked : ∀ c, s.walked c = none) (pass : s.pass = none) : Present ipld s where
  numbered := numbered
  walked := fun c g memo => by simp [walked c] at memo
  pass := fun p running => by simp [pass] at running

theorem Present.step (distinct : ipld.Distinct) (step : Step ipld versionedHash s event t)
    (listed : Listed ipld s) (bounded : t.store.begun < 2 ^ 64)
    (before : s.store.begun < 2 ^ 64 → Present ipld s) : Present ipld t := by
  cases step with
  | store tame =>
    have effect := Op.effect (s := s.store) tame
    exact (before (Nat.lt_of_le_of_lt effect.begun_le bounded)).outside effect rfl rfl (.inl rfl)
  | swap name root => exact (before bounded).outside .stays rfl rfl (.inl rfl)
  | adopt known root tip =>
    exact (before bounded).outside .stays rfl (policies_setHead known rfl) (.inl rfl)
  | withdraw known =>
    exact (before bounded).outside .stays rfl (policies_setHead known rfl) (.inl rfl)
  | quarantine name =>
    exact (before bounded).outside .stays rfl (policies_quarantine name) (.inl rfl)
  | restart verify blocks fresh kept => exact .blank rfl (fun _ => rfl) rfl
  | take free known serving adopted stale =>
    refine (before bounded).advance .stays rfl fun p running bound => ?_
    cases running
    exact absurd rfl bound
  | @bind p running phase same =>
    have present := before bounded
    refine present.advance .stays rfl fun p' running' bound => ?_
    cases running'
    exact .now present.numbered ⟨Bool.noConfusion, trivial⟩
  | @plan p hs found pins running phase stale known enumerated made =>
    have present := before bounded
    have policy : s.policies p.head = some hs.policy := by simp [Follower.policies, known]
    refine present.move .stays rfl rfl running (by simp [phase]) rfl rfl fun _ =>
      ⟨fun _ => ?_, trivial⟩
    exact .between rfl fun task planned => .inl (planned_mem policy enumerated made planned)
  | @chain p running phase fresh =>
    refine (before bounded).move .stays rfl rfl running (by simp [phase]) rfl rfl fun _ =>
      ⟨fun _ => .between rfl fun task planned => .inl ?_, trivial⟩
    rcases planned with ⟨stale, -⟩ | ⟨tip, at_tip, rfl⟩
    · simp [fresh] at stale
    · exact List.mem_map_of_mem (Option.mem_toList.mpr at_tip)
  | @classify p c rest kv verified running phase next answer =>
    refine (before bounded).move .stays rfl rfl running (by simp [phase]) rfl rfl fun holds =>
      ⟨fun planned => (holds.progress planned).settle phase next trivial, holds.scan⟩
  | unclassified => exact (before bounded).outside .stays rfl rfl (.inr rfl)
  | @ensure p c rest e running phase next ensured =>
    obtain ⟨effect, held⟩ := ensured.effect
    refine (before (Nat.lt_of_le_of_lt effect.begun_le bounded)).move effect rfl rfl running
      (by simp [phase]) rfl rfl fun holds =>
        ⟨fun planned => (holds.progress planned).settle phase next held, holds.scan⟩
  | @recurse p c rest running phase next =>
    refine (before bounded).move .stays rfl rfl running (by simp [phase]) rfl rfl fun holds =>
      ⟨fun _ => (holds.progress (by rw [phase]; rfl)).recurse phase next, trivial⟩
  | @skip p first c stack pending running phase index done =>
    have present := before bounded
    refine present.advance .stays rfl fun p' running' bound => ?_
    cases running'
    -- A memo of this generation was made since the last epoch began.
    obtain ⟨start, old, at_start, holds⟩ := present.pass p running (by simp [phase])
    refine ⟨start, old, at_start, fun now => ?_⟩
    have current : s.store.collectionGeneration = p.generation := by
      rw [at_start, ← now]
      exact present.numbered
    refine (holds now).move (by rw [phase]; rfl) rfl (fun search => ?_) fun _ => trivial
    rw [phase] at search
    refine search.skip (done.imp_right fun memo => ?_)
    exact (present.walked c p.generation memo).current present.numbered bounded current
  | @leaf p first c stack pending e running phase blob plain ensured =>
    obtain ⟨effect, held⟩ := ensured.effect
    refine (before (Nat.lt_of_le_of_lt effect.begun_le bounded)).move effect rfl rfl running
      (by simp [phase]) rfl rfl fun holds =>
        holds.move (by rw [phase]; rfl) rfl (fun search => ?_) fun _ => trivial
    rw [phase] at search
    exact search.skip (.inr (.leaf held fun _ => raw_links blob))
  | @unbound p first c stack pending running phase blob full =>
    exact (before bounded).outside .stays rfl (policies_quarantine p.head) (.inr rfl)
  | @node p first c stack pending e data node running phase index fresh plain obtained decoded =>
    obtain ⟨effect, held⟩ := obtained.effect
    refine (before (Nat.lt_of_le_of_lt effect.begun_le bounded)).move effect rfl rfl running
      (by simp [phase]) rfl rfl fun holds =>
        holds.move (by rw [phase]; rfl) rfl (fun search => ?_) fun _ => trivial
    rw [phase] at search
    refine search.expand held fun d link => .inl ?_
    exact List.mem_reverse.mpr (linksTo_of_decoded obtained.1 decoded link)
  | @fetch p first c stack pending e data sg running phase index fresh segment obtained decoded =>
    obtain ⟨effect, held⟩ := obtained.effect
    have present := before (Nat.lt_of_le_of_lt effect.begun_le bounded)
    obtain ⟨sg', isSegment⟩ := listed p running c segment
    refine present.move effect rfl rfl running (by simp [phase]) rfl rfl fun holds =>
      holds.move (by rw [phase]; rfl) rfl (fun search => ?_) fun _ =>
        ⟨held, sg, segment_of_decoded obtained.1 decoded isSegment, rfl⟩
    rwa [phase] at search
  | @read p first c stack pending entries running phase plain =>
    refine (before bounded).move .stays rfl rfl running (by simp [phase]) rfl rfl fun holds =>
      holds.move (by rw [phase]; rfl) rfl (fun search => ?_) fun scan => ?_
    · rwa [phase] at search
    · rw [phase] at scan
      obtain ⟨held, sg, segment, rfl⟩ := scan
      exact ⟨held, sg, segment, fun _ inside => .inl inside⟩
  | @lookup p first c stack pending entries kv verified running phase full answer =>
    refine (before bounded).move .stays rfl rfl running (by simp [phase]) rfl rfl fun holds =>
      holds.move (by rw [phase]; rfl) rfl (fun search => ?_) fun scan => ?_
    · rwa [phase] at search
    · rw [phase] at scan
      obtain ⟨held, sg, segment, rfl⟩ := scan
      exact ⟨held, sg, segment, fun _ inside => .inl inside⟩
  | unanswered => exact (before bounded).outside .stays rfl rfl (.inr rfl)
  | @hold p first c blob stack pending verified entry entries e running phase plain named ensured =>
    obtain ⟨effect, held⟩ := ensured.effect
    exact (before (Nat.lt_of_le_of_lt effect.begun_le bounded)).move effect rfl rfl running
      (by simp [phase]) rfl rfl fun holds => holds.entry phase named held
  | @check p first c blob stack pending entry entries e data running phase full named obtained =>
    obtain ⟨effect, held⟩ := obtained.effect
    exact (before (Nat.lt_of_le_of_lt effect.begun_le bounded)).move effect rfl rfl running
      (by simp [phase]) rfl rfl fun holds => holds.entry phase named held
  | @refute p first c blob stack pending entry entries e data running phase full named obtained =>
    obtain ⟨effect, -⟩ := obtained.effect
    exact (before (Nat.lt_of_le_of_lt effect.begun_le bounded)).outside effect rfl
      (policies_quarantine p.head) (.inr rfl)
  | @close p first c stack pending verified running phase plain =>
    exact (before bounded).move .stays rfl rfl running (by simp [phase]) rfl rfl fun holds =>
      holds.close distinct phase
  | @mark p first c stack pending kv running phase full marked =>
    exact (before bounded).move .stays rfl rfl running (by simp [phase]) rfl rfl fun holds =>
      holds.close distinct phase
  | unmarked => exact (before bounded).outside .stays rfl rfl (.inr rfl)
  | @drain p first pending running phase =>
    refine (before bounded).move .stays rfl rfl running (by simp [phase]) rfl rfl fun holds =>
      ⟨fun _ => (holds.progress (by rw [phase]; rfl)).drain phase ?_, ?_⟩
    · split
      · exact .inl rfl
      · exact .inr rfl
    · split <;> trivial
  | @commit p pending running phase =>
    have present := before bounded
    have since := present.pass p running (by simp [phase])
    have planned : p.phase.planned = true := by rw [phase]; rfl
    refine ⟨present.numbered, fun c g memo => ?_, fun p' running' _ => ?_⟩
    · by_cases inside : c ∈ pending
      · obtain rfl : p.generation = g := by simpa [Follower.commit, Follower.goto, inside] using memo
        exact since.effect .stays fun _ holds => (holds.progress planned).marks pending phase c inside
      · exact present.walked c g (by simpa [Follower.commit, Follower.goto, inside] using memo)
    · cases running'
      exact since.effect .stays fun _ holds =>
        ⟨fun _ => (holds.progress planned).commit phase, trivial⟩
  | @stamp p hs running phase finished current known =>
    exact (before bounded).outside .stays rfl (policies_setHead known rfl) (.inr rfl)
  | stop => exact (before bounded).outside .stays rfl rfl (.inr rfl)

end Presence

end Bloar.Follow
