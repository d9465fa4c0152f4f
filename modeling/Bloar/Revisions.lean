import Bloar.HeadsRun

/-!
A writer does not equivocate. Every revision is burned in the database before a document is
signed under it, and the latch of a process, which is restored from the burned revision, keeps
its documents revisioned. An operation is followed under two conditions on the node:
`Sequenced` until its document is built, and `Ready` from there to the swap.
-/

namespace Bloar.Server
open Ipld Schema Archive Indexing
open Fallible

variable {idx : Index} {Source : Type}

/-! ### The order of deeds -/

def Deed.Follows : Deed → Deed → Prop
  | .signed later, .signed earlier => ∀ r, later.revision = some r → earlier.revision ≠ some r
  | .installed later, .installed earlier =>
    ∀ r, earlier.revision = some r → ∃ r', later.revision = some r' ∧ r < r'
  | .installed later, .signed earlier =>
    earlier.revision.isSome = true → later.revision.isSome = true
  | .signed _, .installed _ => True

/-- The database covers every revision that was ever signed. -/
structure Durable.Covers (d : Durable) : Prop where
  floor : ∀ doc r, Deed.signed doc ∈ d.history → doc.revision = some r →
    ∃ floor, d.store.revision = some floor ∧ r ≤ floor
  source : ∀ doc r, Deed.installed doc ∈ d.history → doc.revision = some r →
    ∃ origin, Deed.signed origin ∈ d.history ∧ origin.revision = some r
  ordered : d.history.Pairwise Deed.Follows

/-- A process with the key and the store of its revisions, whose latch is set where it must be. -/
structure Sequenced (node : Node idx Source) : Prop where
  covers : node.durable.Covers
  keyed : node.memory.cfg.signingKey = true ∧ node.memory.cfg.publications = true
  latched : ∀ doc, Deed.signed doc ∈ node.durable.history → doc.revision.isSome = true →
    node.memory.revisioned = true

/-- The revision is burned for the next document, and lies above all that were signed; none is
allotted only where none was signed. -/
structure Allotted (revision : Option Nat) (node : Node idx Source) : Prop where
  sequenced : Sequenced node
  burned : ∀ r, revision = some r →
    node.durable.store.revision = some r ∧ node.memory.revisioned = true
  above : ∀ doc r, Deed.signed doc ∈ node.durable.history → doc.revision = some r →
    ∃ next, revision = some next ∧ r < next

def Durable.installing (d : Durable) (pub : Published) : Durable :=
  { d with history := .installed pub.doc :: d.history }

structure Ready (pub : Published) (node : Node idx Source) : Prop where
  sequenced : Sequenced node
  installs : (node.durable.installing pub).Covers

section Covers

variable {d d' : Durable}

theorem Durable.Covers.raise (covers : d.Covers) (history : d'.history = d.history)
    (revision : d'.store.revision = d.store.revision ∨
      d'.store.revision = some (d.store.revision.getD 0 + 1)) : d'.Covers where
  floor doc r signed numbered := by
    rw [history] at signed
    obtain ⟨floor, burned, below⟩ := covers.floor doc r signed numbered
    rcases revision with same | next
    · exact ⟨floor, same.trans burned, below⟩
    · refine ⟨floor + 1, ?_, by omega⟩
      rw [next, burned]
      rfl
  source := by
    rw [history]
    exact covers.source
  ordered := by
    rw [history]
    exact covers.ordered

theorem Durable.Covers.below_next (covers : d.Covers) {doc : Doc} {r : Nat}
    (signed : Deed.signed doc ∈ d.history) (numbered : doc.revision = some r) :
    r < d.store.revision.getD 0 + 1 := by
  obtain ⟨floor, burned, below⟩ := covers.floor doc r signed numbered
  rw [burned]
  simp only [Option.getD_some]
  omega

end Covers

namespace Allotted

variable {revision : Option Nat} {node : Node idx Source} {doc : Doc}

def signing (node : Node idx Source) (doc : Doc) : Node idx Source :=
  { node with durable := { node.durable with history := .signed doc :: node.durable.history } }

/-- A document under an allotted revision is the first under it. -/
theorem sign (allotted : Allotted revision node) (numbered : doc.revision = revision) :
    Sequenced (signing node doc) where
  covers := {
    floor := by
      intro other r signed held
      rcases List.mem_cons.mp signed with same | older
      · cases same
        exact ⟨r, (allotted.burned r (numbered.symm.trans held)).1, le_rfl⟩
      · exact allotted.sequenced.covers.floor other r older held
    source := by
      intro other r installed held
      have older : Deed.installed other ∈ node.durable.history := by simpa [signing] using installed
      obtain ⟨origin, signed, same⟩ := allotted.sequenced.covers.source other r older held
      exact ⟨origin, List.mem_cons_of_mem _ signed, same⟩
    ordered := by
      refine List.Pairwise.cons (fun earlier older => ?_) allotted.sequenced.covers.ordered
      cases earlier with
      | signed earlier =>
        intro r later again
        obtain ⟨next, allotment, below⟩ := allotted.above earlier r older again
        rw [numbered, allotment] at later
        exact Nat.ne_of_lt below (Option.some.inj later).symm
      | installed earlier => exact trivial }
  keyed := allotted.sequenced.keyed
  latched other signed held := by
    rcases List.mem_cons.mp signed with same | older
    · cases same
      obtain ⟨r, isRevision⟩ := Option.isSome_iff_exists.mp held
      exact (allotted.burned r (numbered.symm.trans isRevision)).2
    · exact allotted.sequenced.latched other older held

theorem ready (allotted : Allotted revision node) (numbered : doc.revision = revision)
    {pub : Published} (same : pub.doc.revision = doc.revision) : Ready pub (signing node doc) := by
  have sequenced := allotted.sign numbered
  refine ⟨sequenced, ?_, ?_, ?_⟩
  · intro other r signed held
    exact sequenced.covers.floor other r (by simpa [Durable.installing] using signed) held
  · intro other r installed held
    rcases List.mem_cons.mp installed with fresh | older
    · cases fresh
      exact ⟨doc, by simp [Durable.installing, signing], same ▸ held⟩
    · obtain ⟨origin, signed, again⟩ := sequenced.covers.source other r older held
      exact ⟨origin, List.mem_cons_of_mem _ signed, again⟩
  · refine List.Pairwise.cons (fun earlier found => ?_) sequenced.covers.ordered
    rcases List.mem_cons.mp found with rfl | known
    · intro held
      rwa [same]
    -- an older deed with a revision goes back to a document that was signed with it
    cases earlier with
    | signed earlier =>
      intro held
      obtain ⟨r, isRevision⟩ := Option.isSome_iff_exists.mp held
      obtain ⟨next, allotment, _⟩ := allotted.above earlier r known isRevision
      simp [same, numbered, allotment]
    | installed earlier =>
      intro r held
      obtain ⟨origin, signed, again⟩ := allotted.sequenced.covers.source earlier r known held
      obtain ⟨next, allotment, below⟩ := allotted.above origin r signed again
      exact ⟨next, by rw [same, numbered, allotment], below⟩

end Allotted

/-! ### Steps that the order does not rest on -/

/-- A condition on the deeds, the burned revision, the latch and the configuration alone. -/
structure Rests (I : Node idx Source → Prop) : Prop where
  sequenced : ∀ s, I s → Sequenced s
  moved : ∀ {s} s', I s → s'.durable.history = s.durable.history →
    s'.durable.store.revision = s.durable.store.revision → s'.memory.cfg = s.memory.cfg →
    s'.memory.revisioned = s.memory.revisioned → I s'

attribute [class] Rests

instance rests_sequenced : Rests (@Sequenced idx Source) where
  sequenced _ holds := holds
  moved s' holds history revision cfg latch := by
    refine ⟨holds.covers.raise history (.inl revision), cfg ▸ holds.keyed, fun doc signed held => ?_⟩
    rw [history] at signed
    rw [latch]
    exact holds.latched doc signed held

instance rests_ready (pub : Published) : Rests (@Ready idx Source pub) where
  sequenced _ ready := ready.sequenced
  moved s' ready history revision cfg latch := by
    refine ⟨rests_sequenced.moved s' ready.sequenced history revision cfg latch, ?_⟩
    refine ready.installs.raise ?_ (.inl revision)
    rw [Durable.installing, history]
    rfl

/-- The operation keeps the condition, and where it fails it leaves a node in order. -/
def Steady {α : Type} (I : Node idx Source → Prop) (x : Op idx Source α) : Prop :=
  Triple I x (fun _ => I) Sequenced

section Steady

variable {α β : Type} {I : Node idx Source → Prop} {keys : Keyring} {env : Env}

theorem steady_pure (value : α) : Steady I (pure value : Op idx Source α) :=
  triple_pure fun _ holds => holds

theorem Steady.bind {x : Op idx Source α} {next : α → Op idx Source β} (first : Steady I x)
    (second : ∀ value, Steady I (next value)) : Steady I (x >>= next) :=
  triple_bind first second

theorem steady_getMemory : Steady I (getMemory : Op idx Source (Memory idx Source)) :=
  fun _ holds => holds

theorem steady_getStore : Steady I (getStore : Op idx Source Store) := fun _ holds => holds

variable (node : Node idx Source)

theorem write_triple {step : Step} {e : String} {f : Store → Store} :
    Triple (· = node) (write env step e f) (fun _ s => s = node.mapStore f)
      (fun s => s = node ∨ s = node.mapStore f) := by
  rintro s rfl
  cases failed : env.fails step with
  | true =>
    cases late : env.late step with
    | true | false => simp [write, failed, late]
  | false => simp [write, failed]

variable (name : String)

section Rests

variable [rests : Rests I]
include rests

theorem steady_fail (e : String) : Steady I (Fallible.fail e : Op idx Source α) :=
  triple_fail rests.sequenced

theorem steady_guard (condition : Bool) (e : String) :
    Steady I (Fallible.guard condition e : Op idx Source Unit) :=
  triple_post (fun _ _ passed => passed.1) (triple_guard rests.sequenced)

theorem steady_ofExcept (x : Except String α) : Steady I (ofExcept x : Op idx Source α) :=
  triple_post (fun _ _ passed => passed.1) (triple_ofExcept rests.sequenced)

theorem steady_write {step : Step} {e : String} {f : Store → Store}
    (revision : ∀ store, (f store).revision = store.revision) :
    Steady I (write env step e f : Op idx Source Unit) := by
  refine triple_exact fun node holds => ?_
  have written : I (node.mapStore f) := rests.moved _ holds rfl (revision _) rfl rfl
  refine triple_error ?_ (triple_post ?_ (write_triple node))
  · rintro s (rfl | rfl)
    · exact rests.sequenced s holds
    · exact rests.sequenced _ written
  · rintro _ s rfl
    exact written

theorem steady_freshLineage : Steady I (freshLineage : Op idx Source Lineage) :=
  fun _ holds => rests.moved _ holds rfl rfl rfl rfl

theorem steady_getGeneration :
    Steady I (getGeneration env name : Op idx Source (Option GenerationState)) := by
  refine (steady_guard _ _).bind fun _ => (steady_guard _ _).bind fun _ =>
    steady_getStore.bind fun store => ?_
  cases store.generations name with
  | none => exact steady_pure _
  | some st => exact (steady_ofExcept _).bind fun _ => steady_pure _

theorem steady_ensureKind (kind : HeadKind) :
    Steady I (ensureKind env name kind : Op idx Source GenerationState) := by
  refine (steady_getGeneration name).bind fun found => ?_
  cases found with
  | some st => exact (steady_guard _ _).bind fun _ => steady_pure _
  | none =>
    refine (steady_guard _ _).bind fun _ => steady_getStore.bind fun _ =>
      (steady_guard _ _).bind fun _ => Steady.bind ?_ fun _ => steady_pure _
    exact steady_write fun _ => rfl

theorem steady_resumeGeneration (cfg : HeadsConfig) (head : Cid) :
    Steady I (resumeGeneration env cfg head : Op idx Source (Option GenerationState)) := by
  refine triple_ite (fun _ => ?_) fun _ => ?_
  · refine (steady_ensureKind _ _).bind fun st => triple_ite (fun _ => ?_) fun _ => ?_
    · exact (steady_ofExcept _).bind fun _ => steady_pure _
    · exact steady_pure _
  · exact (steady_guard _ _).bind fun _ => steady_pure _

theorem steady_readManifestTip : Steady I (readManifestTip env name : Op idx Source Link) := by
  refine steady_getMemory.bind fun memory => triple_ite (fun _ => ?_) fun _ => steady_pure _
  exact (steady_guard _ _).bind fun _ => steady_getStore.bind fun _ => steady_pure _

theorem steady_writable : Steady I (writable name : Op idx Source (Entry Source)) := by
  refine steady_getMemory.bind fun memory => ?_
  cases memory.reg.find name with
  | none => exact steady_fail _
  | some e => exact (steady_guard _ _).bind fun _ => steady_pure _

theorem steady_durableEntryRoot (e : Entry Source) :
    Steady I (durableEntryRoot e : Op idx Source Cid) := by
  unfold durableEntryRoot
  cases e.durable with
  | none => exact steady_fail _
  | some line =>
    dsimp only
    cases line.root.decode with
    | none => exact steady_fail _
    | some root => exact steady_pure _

theorem steady_persistOne (a : Adoption Source) : Steady I (persistOne env a : Op idx Source Unit) := by
  refine Steady.bind ?_ fun _ => steady_write fun _ => rfl
  refine steady_getMemory.bind fun memory => triple_ite (fun _ => ?_) fun _ => ?_
  · exact steady_write fun _ => rfl
  · exact steady_guard _ _

theorem steady_generationState :
    Steady I (generationState env name : Op idx Source GenerationState) := by
  refine (steady_getGeneration name).bind fun found => ?_
  cases found with
  | none => exact steady_fail _
  | some st => exact (steady_guard _ _).bind fun _ => steady_pure _

theorem steady_mutableWritable : Steady I (mutableWritable name : Op idx Source (Entry Source)) :=
  (steady_writable name).bind fun _ => (steady_guard _ _).bind fun _ => steady_pure _

theorem steady_commitGeneration (expected : Nat) (root : Cid) (next : GenerationState) :
    Steady I (commitGeneration env name expected root next : Op idx Source Unit) := by
  refine (steady_getGeneration name).bind fun found => ?_
  cases found with
  | none => exact steady_fail _
  | some cur =>
    exact (steady_guard _ _).bind fun _ => (steady_guard _ _).bind fun _ =>
      (steady_guard _ _).bind fun _ => (steady_guard _ _).bind fun _ =>
      (steady_guard _ _).bind fun _ => (steady_ofExcept _).bind fun _ =>
      steady_write fun _ => rfl

theorem steady_retryCandidate (e : Entry Source) (st : GenerationState) (rows : List RefRow) :
    Steady I (retryCandidate env name e st rows : Op idx Source Cid) := by
  refine triple_ite (fun _ => steady_pure _) fun _ => (steady_guard _ _).bind fun _ => ?_
  cases idx.buildGeneration { idx.params e.head with originSlot := st.windowStart } rows
    st.syncedTo with
  | none => exact steady_fail _
  | some candidate => exact (steady_guard _ _).bind fun _ => steady_pure _

end Rests

/-! ### The document -/

def Node.nextRevision (node : Node idx Source) : Nat := node.durable.store.revision.getD 0 + 1

def Node.burned (node : Node idx Source) : Node idx Source :=
  node.mapStore fun store => { store with revision := some node.nextRevision }

theorem currentRevision_triple : Triple (· = node) (currentRevision env)
    (fun current s => s = node ∧ current = node.durable.store.revision) (· = node) := by
  refine triple_bind (triple_guard fun _ same => same) fun _ => triple_fact fun _ => ?_
  have read : Triple (· = node) getStore (fun store s => s = node ∧ store = node.durable.store)
      (· = node) := by
    rintro s rfl
    exact ⟨rfl, rfl⟩
  refine triple_bind read fun store => triple_fact ?_
  rintro rfl
  refine triple_bind (triple_guard fun _ same => same) fun _ => triple_fact fun _ => ?_
  exact triple_pure fun s same => ⟨same, rfl⟩

theorem nextRevision_triple : Triple (· = node) (nextRevision env)
    (fun next s => s = node.burned ∧ next = node.nextRevision)
    (fun s => s = node ∨ s = node.burned) := by
  refine triple_bind (triple_error (fun _ same => .inl same) (currentRevision_triple node))
    fun current => triple_fact ?_
  rintro rfl
  refine triple_bind (triple_guard fun _ same => .inl same) fun _ => triple_fact fun _ => ?_
  refine triple_bind (write_triple node) fun _ => ?_
  exact triple_pure fun s same => ⟨same, rfl⟩

theorem allocateRevision_allots {node : Node idx Source} (sequenced : Sequenced node) {needed : Bool}
    (forced : node.memory.revisioned = true → needed = true) :
    Triple (· = node) (allocateRevision env needed) Allotted Sequenced := by
  unfold allocateRevision
  cases needed with
  | false =>
    refine triple_pure ?_
    rintro s rfl
    refine ⟨sequenced, by simp, fun doc r signed numbered => ?_⟩
    have latched := forced (sequenced.latched doc signed (by simp [numbered]))
    cases latched
  | true =>
    have burned : Sequenced node.burned :=
      ⟨sequenced.covers.raise rfl (.inr rfl), sequenced.keyed, sequenced.latched⟩
    have stays : ∀ s, s = node → Sequenced s := fun s same => same ▸ sequenced
    refine triple_bind (Q := fun _ s => s = node) (fun _ same => same) fun memory => ?_
    refine triple_bind (triple_guard stays) fun _ => triple_fact fun _ => ?_
    refine triple_bind (triple_error ?_ (nextRevision_triple node)) fun revision => triple_fact ?_
    · rintro s (rfl | rfl)
      · exact sequenced
      · exact burned
    rintro rfl
    refine triple_bind (Q := fun _ => Allotted (some node.nextRevision)) ?_ fun _ =>
      triple_pure fun _ allotted => allotted
    refine triple_modify ?_
    rintro s rfl
    refine ⟨⟨burned.covers, burned.keyed, fun _ _ _ => rfl⟩, ?_, ?_⟩
    · rintro r ⟨⟩
      exact ⟨rfl, rfl⟩
    · exact fun doc r signed numbered => ⟨_, rfl, sequenced.covers.below_next signed numbered⟩

theorem signDocument_ready (u : Unsigned) : Triple (Allotted u.revision) (signDocument keys env u)
    (fun doc (s : Node idx Source) => ∀ pub, pub.doc.revision = doc.revision → Ready pub s)
    Sequenced := by
  refine triple_bind (triple_guard fun _ allotted => allotted.sequenced) fun _ =>
    triple_fact fun _ => triple_exact fun node allotted => ?_
  have read : Triple (· = node) getMemory (fun memory s => s = node ∧ memory = node.memory)
      Sequenced := by
    rintro s rfl
    exact ⟨rfl, rfl⟩
  refine triple_bind read fun memory => triple_fact ?_
  rintro rfl
  simp only [allotted.sequenced.keyed.1, if_true]
  refine triple_bind (Q := fun _ s => s = Allotted.signing node (u.signed keys true)) ?_ fun _ => ?_
  · refine triple_modify ?_
    rintro s rfl
    rfl
  · refine triple_pure ?_
    rintro s rfl pub same
    exact allotted.ready rfl same

variable (reg : Registry idx Source)

theorem buildPublication_ready :
    Triple Sequenced (buildPublication keys env reg) Ready Sequenced := by
  refine triple_exact fun node sequenced => ?_
  have read : Triple (· = node) getMemory (fun memory s => s = node ∧ memory = node.memory)
      Sequenced := by
    rintro s rfl
    exact ⟨rfl, rfl⟩
  refine triple_bind read fun memory => triple_fact ?_
  rintro rfl
  refine triple_bind (allocateRevision_allots sequenced fun latched => by simp [latched])
    fun revision => ?_
  refine triple_bind (signDocument_ready (render node.memory.cfg env reg revision)) fun doc => ?_
  refine triple_bind (triple_ofExcept ?_) fun _ => triple_fact fun _ => ?_
  · exact fun s ready => (ready { doc := doc, generations := [] } rfl).sequenced
  · exact triple_pure fun s ready => ready _ rfl

theorem install_steady (pub : Published) :
    Triple (Ready pub) (install env reg pub) (fun _ => Sequenced) Sequenced := by
  refine triple_bind (triple_guard fun _ ready => ready.sequenced) fun _ => triple_fact fun _ => ?_
  refine triple_modify fun s ready => ?_
  refine ⟨ready.installs, ready.sequenced.keyed, fun doc signed held => ?_⟩
  exact ready.sequenced.latched doc (by simpa using signed) held

/-! ### Operations -/

theorem rebuild_steady : Steady Sequenced (rebuild keys env : Op idx Source Unit) :=
  steady_getMemory.bind fun _ => triple_bind (buildPublication_ready _) fun _ => install_steady _ _

theorem add_steady (head : Cid) : Steady Sequenced (add keys env head : Op idx Source Unit) := by
  refine steady_getMemory.bind fun _ => (steady_guard _ _).bind fun _ =>
    (steady_guard _ _).bind fun _ => (steady_guard _ _).bind fun _ =>
    steady_getStore.bind fun _ => (steady_guard _ _).bind fun _ =>
    (steady_resumeGeneration _ _).bind fun _ => (steady_readManifestTip _).bind fun _ =>
    steady_freshLineage.bind fun _ => ?_
  exact triple_bind (buildPublication_ready _) fun _ => install_steady _ _

variable (candidate : Cid)

theorem commitCandidate_steady (pub : Published) :
    Triple (Ready pub) (commitCandidate env name candidate reg pub) (fun _ => Sequenced) Sequenced := by
  refine triple_bind (Q := fun _ => Ready pub) ?_ fun _ => install_steady _ _
  exact steady_write fun _ => rfl

theorem applyRefs_steady (rows : List RefRow) (syncedTo : Nat) (expectedManifest : Link) :
    Steady Sequenced (Server.applyRefs keys env name rows syncedTo expectedManifest :
      Op idx Source Cid) := by
  refine steady_getMemory.bind fun _ => (steady_writable name).bind fun _ =>
    (steady_guard _ _).bind fun _ => (steady_ofExcept _).bind fun _ =>
    (steady_guard _ _).bind fun _ => (steady_durableEntryRoot _).bind fun base =>
    (steady_guard _ _).bind fun _ => ?_
  cases idx.applyRefs base rows syncedTo with
  | none => exact steady_fail _
  | some result =>
    cases result with
    | noOp => exact steady_pure _
    | root candidate =>
      exact triple_bind (buildPublication_ready _) fun _ =>
        triple_bind (commitCandidate_steady _ _ _ _) fun _ => steady_pure _

theorem truncate_steady (slot : Nat) :
    Steady Sequenced (Server.truncate keys env name slot : Op idx Source Cid) := by
  refine steady_getMemory.bind fun _ => (steady_writable name).bind fun _ =>
    (steady_guard _ _).bind fun _ => (steady_guard _ _).bind fun _ =>
    (steady_durableEntryRoot _).bind fun base => (steady_guard _ _).bind fun _ => ?_
  cases idx.truncate base slot with
  | none => exact steady_fail _
  | some root =>
    refine triple_ite (fun _ => steady_pure _) fun _ => steady_freshLineage.bind fun _ => ?_
    exact triple_bind (buildPublication_ready _) fun _ =>
      triple_bind (commitCandidate_steady _ _ _ _) fun _ => steady_pure _

theorem setHeadManifest_steady (manifestCID : Cid) (prev : Link) (expectedHeadRoot : Cid) :
    Steady Sequenced (setHeadManifest keys env name manifestCID prev expectedHeadRoot :
      Op idx Source Unit) := by
  refine steady_getMemory.bind fun _ => (steady_guard _ _).bind fun _ =>
    (steady_writable name).bind fun _ => (steady_guard _ _).bind fun _ =>
    (steady_guard _ _).bind fun _ => (steady_guard _ _).bind fun _ =>
    triple_bind (buildPublication_ready _) fun pub => ?_
  refine triple_bind (Q := fun _ => Ready pub) (steady_guard _ _) fun _ => ?_
  refine triple_bind (Q := fun _ => Ready pub) ?_ fun _ => install_steady _ _
  exact steady_write fun _ => rfl

theorem quarantine_steady (name reason : String) :
    Steady Sequenced (quarantine keys env name reason : Op idx Source Unit) := by
  refine steady_getMemory.bind fun memory => ?_
  cases memory.reg.find name with
  | none => exact steady_fail _
  | some old =>
    refine triple_ite (fun _ => rebuild_steady) fun _ => (steady_guard _ _).bind fun _ =>
      Steady.bind ?_ fun _ => rebuild_steady
    exact triple_modify fun _ holds => rests_sequenced.moved _ holds rfl rfl rfl rfl

theorem adoptBatch_steady (upserts : List (Adoption Source)) (withdrawals : List String)
    {persist : Op idx Source Unit} (persists : ∀ pub, Steady (Ready pub) persist) :
    Steady Sequenced (adoptBatch keys env upserts withdrawals persist) := by
  refine steady_getMemory.bind fun memory => (steady_guard _ _).bind fun _ =>
    (steady_ofExcept _).bind fun prepared => (steady_ofExcept _).bind fun _ =>
    Steady.bind ?_ fun _ => (steady_ofExcept _).bind fun _ =>
    triple_bind (buildPublication_ready _) fun pub => triple_bind (persists pub) fun _ =>
    install_steady _ _
  exact triple_modify fun _ holds => rests_sequenced.moved _ holds rfl rfl rfl rfl

variable (st : GenerationState)

theorem prospectiveGeneration_ready (lineage : Option Lineage) :
    Triple Sequenced (prospectiveGeneration keys env name candidate st lineage)
      (fun found (s : Node idx Source) => Ready found.2 s) Sequenced := by
  refine triple_bind steady_getMemory fun _ => triple_bind (steady_mutableWritable name)
    fun _ => triple_bind (steady_guard _ _) fun _ => triple_bind (steady_guard _ _)
    fun _ => triple_bind (buildPublication_ready _) fun _ => triple_pure fun _ ready => ready

theorem exposeGeneration_steady :
    Steady Sequenced (exposeGeneration keys env name candidate st : Op idx Source Unit) := by
  refine steady_getMemory.bind fun _ => (steady_mutableWritable name).bind fun _ =>
    (steady_ofExcept _).bind fun _ => ?_
  exact triple_bind (prospectiveGeneration_ready _ _ _ _) fun _ => install_steady _ _

theorem finishRetry_steady (rows : List RefRow) :
    Steady Sequenced (finishRetry keys env name st rows : Op idx Source GenerationResponse) := by
  refine steady_getMemory.bind fun _ => (steady_mutableWritable name).bind fun _ =>
    (steady_guard _ _).bind fun _ => (steady_retryCandidate _ _ _ _).bind fun _ =>
    triple_ite (fun _ => steady_pure _) fun _ => ?_
  exact (exposeGeneration_steady _ _ _).bind fun _ => steady_pure _

variable (digest : NormalizedGeneration → String)

theorem selectGeneration_steady (name : String) (req : GenerationRequest) (n : NormalizedGeneration)
    (lineage : Option Lineage) (candidate : Cid) (generation : Nat) :
    Steady Sequenced (selectGeneration digest keys env name req n lineage candidate generation :
      Op idx Source GenerationResponse) := by
  refine steady_getMemory.bind fun _ => (steady_mutableWritable name).bind fun _ =>
    (steady_ofExcept _).bind fun _ => triple_bind (prospectiveGeneration_ready _ _ _ _)
    fun found => triple_bind (steady_commitGeneration _ _ _ _) fun _ => ?_
  exact triple_bind (install_steady _ _) fun _ => steady_pure _

theorem replaceFinish_steady (name : String) (req : GenerationRequest) (n : NormalizedGeneration)
    (lineage : Option Lineage) (base : Params) :
    Steady Sequenced (replaceFinish digest keys env name req n lineage base :
      Op idx Source GenerationResponse) := by
  refine (steady_guard _ _).bind fun _ => ?_
  cases idx.buildGeneration { base with originSlot := req.windowStart } n.rows req.syncedTo with
  | none => exact steady_fail _
  | some candidate =>
    refine (steady_generationState name).bind fun current => ?_
    refine triple_ite (fun _ => selectGeneration_steady _ _ _ _ _ _ _) fun _ => ?_
    exact triple_ite (fun _ => finishRetry_steady _ _ _) fun _ => steady_fail _

theorem replaceGeneration_steady (name : String) (req : GenerationRequest) :
    Steady Sequenced (replaceGeneration digest keys env name req :
      Op idx Source GenerationResponse) := by
  refine Steady.bind ?_ fun started => ?_
  · refine steady_getMemory.bind fun _ => (steady_guard _ _).bind fun _ =>
      (steady_ofExcept _).bind fun _ => (steady_guard _ _).bind fun _ =>
      (steady_generationState name).bind fun _ => triple_ite (fun _ => ?_) fun _ => ?_
    · exact (steady_guard _ _).bind fun _ => (steady_ofExcept _).bind fun _ => steady_pure _
    · exact (steady_guard _ _).bind fun _ => steady_pure _
  · cases started with
    | retry n st => exact finishRetry_steady _ _ _
    | build n generation =>
      refine Steady.bind ?_ fun bound => replaceFinish_steady _ _ _ _ _ _
      exact steady_getMemory.bind fun _ => (steady_mutableWritable name).bind fun _ =>
        (steady_ofExcept _).bind fun _ => steady_pure _

theorem Operation.run_steady (op : Operation Source) :
    Steady Sequenced (op.run digest keys env : Op idx Source Unit) := by
  cases op with
  | add head => exact add_steady head
  | adoptBatch upserts withdrawals =>
    exact adoptBatch_steady upserts withdrawals fun pub => steady_write fun _ => rfl
  | adoptOne adoption =>
    exact adoptBatch_steady [adoption] [] fun pub => steady_persistOne adoption
  | quarantine name reason => exact quarantine_steady name reason
  | applyRefs name rows syncedTo expectedManifest =>
    exact (applyRefs_steady name rows syncedTo expectedManifest).bind fun _ => steady_pure _
  | truncate name slot => exact (truncate_steady name slot).bind fun _ => steady_pure _
  | setManifest name manifestCID prev expectedHeadRoot =>
    exact setHeadManifest_steady name manifestCID prev expectedHeadRoot
  | replaceGeneration name req =>
    exact (replaceGeneration_steady digest name req).bind fun _ => steady_pure _

theorem Call.finish_steady {digest : NormalizedGeneration → String} {call : Call}
    {x : Op idx Source GenerationResponse} (last : call.finish digest keys env = some x) :
    Steady Sequenced x := by
  cases call with
  | retrying name n st =>
    cases last
    exact finishRetry_steady name st n.rows
  | starting name req n generation => cases last
  | building name req n lineage base =>
    cases last
    exact replaceFinish_steady digest name req n lineage base

/-- A process starts with its latch set where a revision was burned. -/
theorem newHeads_sequences {node : Node idx Source} (covers : node.durable.Covers)
    (keyed : node.memory.cfg.signingKey = true ∧ node.memory.cfg.publications = true) :
    Triple (· = node) (newHeads keys env node.memory.cfg) (fun _ => Sequenced)
      (fun s => s.durable.Covers) := by
  have stays : ∀ s, s = node → s.durable.Covers := fun s same => same ▸ covers
  refine triple_bind (triple_ofExcept stays) fun _ => triple_fact fun _ => ?_
  refine triple_bind (Q := fun _ => Sequenced) ?_ fun _ => ?_
  · unfold restoreLatch
    simp only [keyed.1, keyed.2, Bool.and_self, if_true]
    refine triple_bind (triple_error stays (currentRevision_triple node)) fun current => triple_fact ?_
    rintro rfl
    refine triple_modify ?_
    rintro s rfl
    refine ⟨covers, keyed, fun doc signed held => ?_⟩
    obtain ⟨r, numbered⟩ := Option.isSome_iff_exists.mp held
    obtain ⟨floor, burned, _⟩ := covers.floor doc r signed numbered
    simp [burned]
  · refine triple_error (fun s (sequenced : Sequenced s) => sequenced.covers) ?_
    refine Steady.bind ?_ fun _ => rebuild_steady
    refine triple_ite (fun _ => ?_) fun _ => steady_pure _
    refine Steady.bind ?_ fun selected => triple_modify fun s sequenced => ?_
    · generalize node.memory.cfg.policies = policies
      induction policies with
      | nil => exact steady_pure _
      | cons policy rest ih =>
        refine triple_ite (fun _ => ?_) fun _ => ih
        refine (steady_getGeneration _).bind fun st => ?_
        exact triple_ite (fun _ => steady_pure _) fun _ => ih
    · refine ⟨sequenced.covers, sequenced.keyed, fun doc signed held => ?_⟩
      simp [sequenced.latched doc signed held]

end Steady

def Event.Keyed : Event Source → Prop
  | .start cfg _ => cfg.signingKey = true ∧ cfg.publications = true
  | _ => True

namespace World

structure Sound (w : World idx Source) : Prop where
  covers : w.durable.Covers
  running : ∀ memory, w.memory = some memory → Sequenced { durable := w.durable, memory }

variable {digest : NormalizedGeneration → String} {keys : Keyring}

theorem Sound.settle (w : World idx Source) {node : Node idx Source} (sequenced : Sequenced node)
    (dies : Bool) : (w.settle node dies).Sound := by
  refine ⟨sequenced.covers, fun memory running => ?_⟩
  cases dies with
  | true => cases running
  | false =>
    cases running
    exact sequenced

theorem Sound.boot {w : World idx Source} (sound : w.Sound) {cfg : HeadsConfig} (env : Env)
    (keyed : cfg.signingKey = true ∧ cfg.publications = true) : (w.boot keys cfg env).Sound := by
  let node : Node idx Source := { durable := w.durable, memory := .fresh cfg }
  have started : Triple (· = node) (newHeads keys env cfg) (fun _ => Sequenced)
      (fun s => s.durable.Covers) := newHeads_sequences sound.covers keyed
  have step := started node rfl
  unfold World.boot
  rcases ran : newHeads keys env cfg node with ⟨outcome, after⟩
  rw [ran] at step
  cases outcome with
  | ok _ =>
    refine ⟨step.covers, fun memory running => ?_⟩
    cases running
    exact step
  | error e => exact ⟨step, by simp⟩

theorem Sound.step {w w' : World idx Source} (sound : w.Sound) {e : Event Source} (keyed : e.Keyed)
    (taken : w.step digest keys e = some w') : w'.Sound := by
  cases e with
  | start cfg env =>
    simp only [World.step] at taken
    split at taken
    · cases taken
      exact sound.boot env keyed
    · cases taken
  | crash =>
    cases taken
    exact ⟨sound.covers, by simp⟩
  | run op env dies =>
    obtain ⟨memory, running, rfl⟩ := Option.map_eq_some_iff.mp taken
    have sequenced := sound.running memory running
    exact Sound.settle w ((op.run_steady digest).after sequenced) dies
  | replace name req env =>
    obtain ⟨durable, memory⟩ := step_replace taken
    exact ⟨durable ▸ sound.covers, by rw [durable, memory]; exact sound.running⟩
  | bind call =>
    obtain ⟨durable, memory⟩ := step_bind taken
    exact ⟨durable ▸ sound.covers, by rw [durable, memory]; exact sound.running⟩
  | finish call env dies =>
    obtain ⟨x, memory, finish, running, rfl⟩ := step_finish taken
    have steady : Steady Sequenced x := Call.finish_steady finish
    exact Sound.settle _ (steady.after (sound.running memory running)) dies

/-- What is done with documents stays ordered, whatever fails and however often the node starts:
no two documents are signed under one revision, each document that is installed is above those
before it, and none is without a revision once one was signed. -/
theorem never_equivocates {w : World idx Source} {store : Store}
    (reached : Reaches digest keys (fun _ e => e.Keyed) (World.idle store) w) :
    w.durable.history.Pairwise Deed.Follows := by
  have sound : w.Sound := by
    induction reached with
    | refl => exact ⟨⟨by simp [World.idle], by simp [World.idle], .nil⟩, by simp [World.idle]⟩
    | step before keyed taken ih => exact ih.step keyed taken
  exact sound.covers.ordered

end World

/-! ### A node that drops its identity -/

namespace Sample

def bareIndex : Index where
  params _ := { name := "blobs", net := "mainnet", originSlot := 0, segBits := 3, fanoutBits := 2 }
  syncedTo _ := none
  row _ _ := []
  dirDepth _ := 0
  applyRefs _ _ _ := none
  truncate _ _ := none
  buildGeneration _ _ _ := none

def keyring : Keyring where
  pubkey := "key"
  sign _ := "signature"
  verify _ _ _ := true
  pubkey_ne := by decide
  sign_ne _ := by decide
  verify_sign _ := rfl

def config (archiveID : Option ArchiveID) : HeadsConfig where
  net := "mainnet"
  multiaddrs := []
  maxPutBlobs := 0
  archiveID := archiveID
  signingKey := true
  publications := true
  generations := false
  manifests := false
  blocks := false
  generationArchive := false
  policies := []
  replacements _ := false
  unobserved := true

def calm : Env := { now := "", fails := fun _ => false, late := fun _ => false }

def emptyStore : Store where
  roots _ := none
  manifests _ := none
  generations _ := none
  revision := none
  adopted _ := none

def restarts : List (Event Unit) :=
  [.start (config (some 7)) calm, .crash, .start (config none) calm]

def Deed.revision : Deed → Bool × Option Nat
  | .signed doc => (false, doc.revision)
  | .installed doc => (true, doc.revision)

theorem restarts_run :
    (((World.idle emptyStore : World bareIndex Unit).run (fun _ => "") keyring restarts).map
      fun w => w.durable.history.map Deed.revision) =
      some [(true, some 2), (false, some 2), (true, some 1), (false, some 1)] := by
  decide +kernel

theorem restarts_keyed : ∀ e ∈ restarts, e.Keyed := by
  intro e member
  simp only [restarts, List.mem_cons, List.not_mem_nil, or_false] at member
  rcases member with rfl | rfl | rfl
  · exact ⟨rfl, rfl⟩
  · exact trivial
  · exact ⟨rfl, rfl⟩

end Sample

open Sample in
theorem World.never_equivocates_sample :
    ∃ w : World bareIndex Unit,
      Reaches (fun _ => "") keyring (fun _ e => e.Keyed) (World.idle emptyStore) w ∧
      w.durable.history.map Deed.revision =
        [(true, some 2), (false, some 2), (true, some 1), (false, some 1)] ∧
      w.durable.history.Pairwise Deed.Follows := by
  obtain ⟨w, ran, shown⟩ := Option.map_eq_some_iff.mp restarts_run
  have reached : Reaches (fun _ => "") keyring (fun _ e => e.Keyed) (World.idle emptyStore) w :=
    World.Reaches.refl.run (fun e member _ => restarts_keyed e member) ran
  exact ⟨w, reached, shown, never_equivocates reached⟩

end Bloar.Server
