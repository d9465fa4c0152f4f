import Bloar.Tour

/-!
What a walk does with segments. Each lemma says of one function that when it
returns the walk has covered the entries it was given, and that when it fails the
entries are not laid out as a head's, or something around the walk went wrong, or
the blocks without a current proof are more than the walk may read.
-/

namespace Bloar.Archive
open Ipld Schema Arith Fallible
variable {σ : Type} {t : Tour σ} {s : Walking σ} {offset : Nat}

/-! ### Segments -/

theorem Tour.cachedSegment_post (t : Tour σ) {w : World σ} (inv : t.inv w.shared) (c : Cid) :
    Post (cachedSegment t.cfg c) w
      (fun cached after => t.inv after.shared ∧
        (∀ d, t.seen w.shared d → t.seen after.shared d) ∧
        after = { w with shared := after.shared } ∧
        (∀ p, cached = some p → ProofOf t.ipld c p.proof ∧
          (Current t.generation t.generationKnown p → t.fresh c ∧ t.seen after.shared c)) ∧
        ((∀ p, cached = some p → ¬ Current t.generation t.generationKnown p) →
          t.fault ∨ ¬ t.fresh c))
      (fun _ => False) := by
  unfold Post cachedSegment
  cases access : t.cfg.structureCache with
  | none => exact ⟨inv, fun _ seen => seen, rfl, by simp, fun _ => t.uncached access c⟩
  | some cache =>
    exact ⟨t.read_inv access inv, fun d => t.read_keeps access inv, rfl,
      fun p found => ⟨t.read_proof access inv found, t.read_current access inv found⟩,
      t.read_stale access inv⟩

structure Tour.ProvedTo (t : Tour σ) (c : Cid) (s : Walking σ) (proof : SegmentProof)
    (s' : Walking σ) : Prop where
  proof_of : ProofOf t.ipld c proof
  inv : t.inv s'.world.shared
  kept : ∀ d, t.seen s.world.shared d → t.seen s'.world.shared d
  seen : t.seen s'.world.shared c
  world : s'.world = { s.world with shared := s'.world.shared }
  unique : s'.walker.budget.unique = insert c s.walker.budget.unique
  paths : s'.walker.budget.paths = s.walker.budget.paths
  outputs : s'.walker.budget.outputs = s.walker.budget.outputs
  charged : t.Charged s'.walker.budget
  newProofs : (s'.walker.newProofs = s.walker.newProofs ∧ t.fresh c) ∨
    s'.walker.newProofs = s.walker.newProofs.insert c
      { proof, generation := t.generation, generationKnown := t.generationKnown }
  walker : s'.walker = { s.walker with budget := s'.walker.budget, newProofs := s'.walker.newProofs }

variable {c : Cid} {s' : Walking σ} {proof : SegmentProof} {s₁ : Walking σ} {window start : Nat}

theorem Ground.ReadTo.provedTo {data : Block} (read : t.ReadTo c s data s')
    (charged : t.Charged s.walker.budget) (stale : t.fault ∨ ¬ t.fresh c)
    (proof_of : ProofOf t.ipld c proof) (generation : s.walker.generation = t.generation)
    (generationKnown : s.walker.generationKnown = t.generationKnown) :
    Post (stageProof c proof >>= fun _ => pure proof) s' (t.ProvedTo c s) (fun _ => False) := by
  have same : s'.walker.generation = t.generation ∧
      s'.walker.generationKnown = t.generationKnown := by
    rw [read.walker]
    exact ⟨generation, generationKnown⟩
  refine post_modify_bind (post_pure ⟨proof_of, read.inv, read.kept, read.seen, read.world, ?_, ?_,
    ?_, ?_, .inr ?_, ?_⟩)
  · simp [read.walker]
  · simp [read.walker]
  · simp [read.walker]
  · have more := charged.read_more read.named read.new stale read.within
    simpa [read.walker] using more
  · simp [read.walker, generation, generationKnown]
  · simp [read.walker]

variable {s₂ : Walking σ} {upper : Nat} {opened : Bool} {sg : Segment} {offset' : Nat}
  {b : EnumerationBudget}

theorem Tour.ProvedTo.after (proved : t.ProvedTo c s₂ proof s') (walker : s₂.walker = s₁.walker)
    (keeps : ∀ d, t.seen s₁.world.shared d → t.seen s₂.world.shared d)
    (world : s₂.world = { s₁.world with shared := s₂.world.shared }) :
    t.ProvedTo c s₁ proof s' := by
  obtain ⟨proof_of, inv, kept, seen, sameWorld, unique, paths, outputs, charged, newProofs, rest⟩ :=
    proved
  rw [walker] at unique paths outputs newProofs rest
  rw [world] at sameWorld
  exact ⟨proof_of, inv, fun d held => kept d (keeps d held), seen, sameWorld, unique, paths, outputs,
    charged, newProofs, rest⟩

theorem Tour.Walked.proveSegment_spec (walked : t.Walked offset s) (cbor : HasPrefix dagCBOR c)
    (new : c ∉ s.walker.segments) (reached : Reaches t.ipld t.root .segment c)
    (noted : s₁ = { s with walker := { s.walker with
      segments := s.walker.segments.insert c window } }) :
    Post (proveSegment t.ipld t.cfg c) s₁ (t.ProvedTo c s₁)
      (fun _ => ∀ sg, IsSegment t.ipld c sg → t.Fails) := by
  have unproved : s₁.walker.newProofs.lookup c = none := by
    rw [noted, Finmap.lookup_eq_none]
    intro proved
    obtain ⟨p, found⟩ := Finmap.mem_iff.mp proved
    exact new (walked.proofs found).2.2.2
  have budget : s₁.walker.budget = s.walker.budget := by rw [noted]
  have inv : t.inv s₁.world.shared := by rw [noted]; exact walked.inv
  have generation : s₁.walker.generation = t.generation := by rw [noted]; exact walked.generation
  have known : s₁.walker.generationKnown = t.generationKnown := by
    rw [noted]
    exact walked.generationKnown
  have charged : t.Charged s₁.walker.budget := budget ▸ walked.charged
  -- A segment is counted where it is noted, so a new one is not counted yet.
  have uncounted : ∀ sg, IsSegment t.ipld c sg → c ∉ s.walker.budget.unique := by
    intro sg segment member
    rcases (walked.counted c).mp member with rfl | page | old
    · exact t.isHead.not_segment segment
    · obtain ⟨page, found⟩ := Finmap.mem_iff.mp ((walked.nodes c).mpr page)
      exact (walked.node found).not_segment segment
    · exact new old
  have fails : ∀ {s₂ : Walking σ}, s₂.walker = s₁.walker → (t.fault ∨ ¬ t.fresh c) →
      t.ReadFault c s₂.walker.budget → ∀ sg, IsSegment t.ipld c sg → t.Fails := by
    intro s₂ same stale fault sg segment
    rw [same, budget] at fault
    obtain ⟨block, named, small, -, -⟩ := id segment
    exact walked.readFault_fails named small reached (uncounted sg segment) stale fault
  refine post_get_bind ?_
  rw [unproved]
  refine post_then (post_raised (post_onHead (t.cachedSegment_post inv c))
    fun _ impossible => impossible.elim) ?_
  rintro cached s₂ ⟨⟨stays, keeps, world, hit, miss⟩, walker⟩
  have charged₂ : t.Charged s₂.walker.budget := by rw [walker]; exact charged
  cases cached with
  | none =>
    have stale := miss (by simp)
    refine post_then (post_raised (t.readNode_spec stays cbor charged₂ _)
      fun _ fault => fails walker stale fault) ?_
    intro data s₃ read
    have decoded_iff : ∀ sg, IsSegment t.ipld c sg →
        decodeSegment t.ipld data = .ok sg ∧ RawBlobs sg.rows := by
      rintro sg ⟨block, named, -, decoded, blobs⟩
      rw [t.ipld.nodeCID_injective (read.named.symm.trans named)]
      exact ⟨decoded, blobs⟩
    cases decoded : decodeSegment t.ipld data with
    | error text =>
      refine post_fail (E := fun _ => ∀ sg, IsSegment t.ipld c sg → t.Fails) fun sg segment => ?_
      rw [decoded] at decoded_iff
      cases (decoded_iff sg segment).1
    | ok segment =>
      refine post_pure_bind ?_
      refine post_ofExcept_bind (fun e refused sg named => ?_) fun proof shaped => ?_
      · obtain ⟨same, blobs⟩ := decoded_iff sg named
        rw [decoded] at same
        cases same
        rw [segmentShape_ok_iff.mpr ⟨blobs, rfl⟩] at refused
        cases refused
      obtain ⟨blobs, rfl⟩ := segmentShape_ok_iff.mp (mapError_ok_iff.mp shaped)
      have proof_of : ProofOf t.ipld c (proofOf segment) :=
        ⟨segment, ⟨data, read.named, read.small, decoded, blobs⟩, rfl⟩
      exact post_mono (read.provedTo charged₂ stale proof_of (by rw [walker, generation])
        (by rw [walker, known])) (fun _ _ proved => proved.after walker keeps world)
        fun _ impossible => impossible.elim
  | some p =>
    obtain ⟨proof_of, current⟩ := hit p rfl
    refine post_ite (fun isCurrent => ?_) fun isStale => ?_
    · have isCurrent : Current t.generation t.generationKnown p := by
        simpa [EnumerationWalker.current, generation, known, Current, and_assoc] using isCurrent
      obtain ⟨fresh, seen⟩ := current isCurrent
      refine post_then (post_charge (fun new budget' added => ?_) fun e refused sg segment => ?_)
        (P := fun _ s' => s' = { s₂ with walker := { s₂.walker with budget :=
          { s₂.walker.budget with unique := insert c s₂.walker.budget.unique } } }) ?_
      · rw [(addUnique_ok added).2]
      · have full := addUnique_error refused
        rw [walker, budget] at full
        exact absurd walked.unique_room (Nat.not_lt.mpr full)
      rintro _ _ rfl
      refine post_pure ⟨proof_of, stays, keeps, seen, world, ?_, ?_, ?_, charged₂.count_fresh fresh,
        .inl ⟨?_, fresh⟩, ?_⟩ <;> simp [walker]
    · have stale := miss fun q same => by
        cases same
        intro isCurrent
        apply isStale
        simpa [EnumerationWalker.current, generation, known, Current, and_assoc] using isCurrent
      refine post_then (post_raised (t.readNode_spec stays cbor charged₂ _)
        fun _ fault => fails walker stale fault) ?_
      intro data s₃ read
      exact post_mono (read.provedTo charged₂ stale proof_of (by rw [walker, generation])
        (by rw [walker, known])) (fun _ _ proved => proved.after walker keeps world)
        fun _ impossible => impossible.elim

theorem Tour.Walked.later (walked : t.Walked offset s) (later : offset ≤ offset')
    (inside : offset' ≤ t.sealedCount) : t.Walked offset' s :=
  { walked with
    offset_le := inside
    segment := fun found => ⟨(walked.segment found).1, (walked.segment found).2.imp id fun before =>
      Nat.lt_of_lt_of_le before (Nat.add_le_add_left later _)⟩
    segments_le := Nat.le_trans walked.segments_le (Nat.succ_le_succ later)
    memo := fun found => by
      obtain ⟨level, start, es, depth, length, laid, before, rest⟩ := walked.memo found
      exact ⟨level, start, es, depth, length, laid, Nat.le_trans before later, rest⟩
    contains := fun found => by
      obtain ⟨level, start, es, i, link, laid, before, entry⟩ := walked.contains found
      exact ⟨level, start, es, i, link, laid, Nat.le_trans before later, entry⟩
    outputs_le := Nat.le_trans walked.outputs_le later }

theorem Tour.Walked.add_segment (walked : t.Walked offset s)
    (noted : s₁ = { s with walker := { s.walker with
      segments := s.walker.segments.insert c window } }) (proved : t.ProvedTo c s₁ proof s')
    (placed : SegmentAt t.ipld t.params c window upper opened sg)
    (reached : Reaches t.ipld t.root .segment c) (later : offset ≤ offset')
    (inside : offset' ≤ t.sealedCount) (room : s.walker.segments.keys.card ≤ offset')
    (place : window = t.openOrd ∨ window < t.base + offset') :
    t.Walked offset' s' ∧ Tour.Beside s s' ∧ c ∈ s'.walker.segments := by
  have walked := walked.later later inside
  subst noted
  obtain ⟨world, walker⟩ := s'
  obtain ⟨proof_of, inv, kept, seen, sameWorld, unique, paths, outputs, charged, newProofs, rest⟩ :=
    proved
  dsimp only at *
  -- The walk changes nothing but its budget, the segments it has noted and the new proofs.
  generalize walker.budget = budget at *
  generalize walker.newProofs = proofs at *
  subst rest
  have inserted : ∀ d, d ∈ s.walker.segments.insert c window ↔ d = c ∨ d ∈ s.walker.segments :=
    fun d => Finmap.mem_insert
  refine ⟨{ walked with
      inv, charged, world := ?world, counted := ?counted, index := ?index, pages_le := ?pages_le,
      paths_le := ?paths_le, segment := ?segment, segments_le := ?segments_le, proofs := ?proofs,
      proved := ?proved, outputs := ?outputs, outputs_le := ?outputs_le }, ⟨paths, outputs, rfl, rfl, fun d old => (inserted d).mpr (.inr old)⟩,
    (inserted c).mpr (.inl rfl)⟩
  case world => rw [sameWorld, walked.world]
  case counted =>
    intro d
    rw [unique, inserted, Finset.mem_insert, walked.counted]
    tauto
  case index =>
    intro d member
    rw [unique, Finset.mem_insert] at member
    rcases member with rfl | old
    · exact ⟨seen, .segment, reached⟩
    · exact ⟨kept d (walked.index d old).1, (walked.index d old).2⟩
  case pages_le => exact paths ▸ walked.pages_le
  case paths_le => exact paths ▸ walked.paths_le
  case segment =>
    intro d win found
    by_cases same : d = c
    · subst same
      rw [Finmap.lookup_insert] at found
      cases found
      exact ⟨⟨upper, opened, sg, placed⟩, place⟩
    · rw [Finmap.lookup_insert_of_ne _ same] at found
      exact walked.segment found
  case segments_le =>
    have keys : (s.walker.segments.insert c window).keys ⊆ insert c s.walker.segments.keys := by
      intro d member
      rw [Finmap.mem_keys, inserted] at member
      rwa [Finset.mem_insert, Finmap.mem_keys]
    exact (Finset.card_le_card keys).trans ((Finset.card_insert_le _ _).trans (by omega))
  case proofs =>
    intro d p found
    rw [inserted]
    have old : s.walker.newProofs.lookup d = some p → ProofOf t.ipld d p.proof ∧
        p.generation = t.generation ∧ p.generationKnown = t.generationKnown ∧
        (d = c ∨ d ∈ s.walker.segments) := fun found =>
      (walked.proofs found).imp_right fun rest => rest.imp_right fun rest => rest.imp_right .inr
    rcases newProofs with ⟨rfl, -⟩ | rfl
    · exact old found
    · by_cases here : d = c
      · subst here
        rw [Finmap.lookup_insert] at found
        cases found
        exact ⟨proof_of, rfl, rfl, .inl rfl⟩
      · rw [Finmap.lookup_insert_of_ne _ here] at found
        exact old found
  case proved =>
    intro d member
    rcases (inserted d).mp member with rfl | old
    · rcases newProofs with ⟨-, fresh⟩ | rfl
      · exact .inr fresh
      · exact .inl (Finmap.mem_insert.mpr (.inl rfl))
    · rcases newProofs with ⟨rfl, -⟩ | rfl
      · exact walked.proved d old
      · exact (walked.proved d old).imp_left fun before => Finmap.mem_insert.mpr (.inr before)
  case outputs => exact outputs ▸ walked.outputs
  case outputs_le => exact outputs ▸ walked.outputs_le

theorem IsSegment.cbor {ipld : Codec} (segment : IsSegment ipld c sg) : HasPrefix dagCBOR c := by
  obtain ⟨block, rfl, -⟩ := segment
  exact nodeCID_hasPrefix ipld block

theorem Tour.Walked.window_le (walked : t.Walked offset s) {win : Nat}
    (found : s.walker.segments.lookup c = some win) : win ≤ t.openOrd := by
  have total := t.base_add
  have inside := walked.offset_le
  rcases (walked.segment found).2 with rfl | before <;> omega

theorem Tour.Walked.validateSegment_spec (walked : t.Walked offset s) (offset' : Nat)
    (reached : Reaches t.ipld t.root .segment c)
    (elsewhere : ∀ d win, s.walker.segments.lookup d = some win → win ≠ window)
    (before : window ≤ t.openOrd) (later : offset ≤ offset') (inside : offset' ≤ t.sealedCount)
    (room : s.walker.segments.keys.card ≤ offset')
    (place : window = t.openOrd ∨ window < t.base + offset') :
    Post (validateSegment t.ipld t.cfg (some c) window upper opened) s
      (fun _ s' => (∃ sg, SegmentAt t.ipld t.params c window upper opened sg) ∧
        t.Walked offset' s' ∧ Tour.Beside s s' ∧ c ∈ s'.walker.segments)
      (fun _ => ∀ sg, SegmentAt t.ipld t.params c window upper opened sg → t.Fails) := by
  refine post_ofExcept_bind (fun e refused sg placed => ?_) fun _ valid => ?_
  · rw [(validateIndexCID_ok_iff (u := ())).mpr ⟨c, rfl, placed.segment.cbor⟩] at refused
    cases refused
  obtain ⟨_, ⟨⟩, cbor⟩ := validateIndexCID_ok_iff.mp valid
  refine post_get_bind ?_
  cases found : s.walker.segments.lookup c with
  | some prior =>
    refine post_fail (E := fun _ => ∀ sg, SegmentAt t.ipld t.params c window upper opened sg →
      t.Fails) fun sg placed => ?_
    obtain ⟨⟨_, _, _, earlier⟩, -⟩ := walked.segment found
    have early := t.window_small (walked.window_le found)
    have late := t.window_small before
    exact absurd (earlier.window_eq placed (by omega) (by omega)) (elsewhere c prior found)
  | none =>
    have new : c ∉ s.walker.segments := Finmap.lookup_eq_none.mp found
    refine post_modify_bind ?_
    refine post_then (post_raised (walked.proveSegment_spec cbor new reached rfl)
      fun _ raised sg placed => raised sg placed.segment) ?_
    intro proof s' proved
    obtain ⟨sg, segment, rfl⟩ := proved.proof_of
    rw [show s.walker.st.params = t.params by rw [walked.st]; rfl]
    refine post_ofExcept (fun _ checked => ?_) fun e refused other placed => ?_
    · have placed := (checkPosition_ok_iff segment).mp checked
      exact ⟨⟨sg, placed⟩, walked.add_segment rfl proved placed reached later inside room place⟩
    · obtain rfl := segment.unique placed.segment
      rw [(checkPosition_ok_iff segment (u := ())).mpr placed] at refused
      cases refused

/-! ### Leaf pages -/

/-- The walk from `s` to `s'` has covered the entries from directory index `start`
on, below the given pages. -/
structure Tour.Covers (t : Tour σ) (start : Nat) (es : List Link) (pages : List Cid) (paths : Nat)
    (s s' : Walking σ) : Prop where
  sealed : SealedAt t.ipld t.params (t.base + start) es
  walked : t.Walked (start + es.length) s'
  paths : s'.walker.budget.paths = s.walker.budget.paths + paths
  out : s'.walker.out = { s.walker.out with
    dirPages := firstVisits s.walker.out.dirPages pages
    sealed := s.walker.out.sealed ++ sealedFrom t.params.segBits (t.base + start) es }
  active : s'.walker.dirActive = s.walker.dirActive
  noted : ∀ c, some c ∈ es → c ∈ s'.walker.segments
  kept : ∀ c ∈ s.walker.segments, c ∈ s'.walker.segments

theorem Tour.Covers.nil (walked : t.Walked offset s) : t.Covers offset [] [] 0 s s :=
  ⟨SealedAt.nil, walked, rfl, by simp [firstVisits, sealedFrom], rfl, by simp, fun _ old => old⟩

theorem Tour.Covers.trans {front back : List Link} {pages pages' : List Cid} {paths paths' : Nat}
    {s₃ : Walking σ} (first : t.Covers start front pages paths s₁ s₂)
    (second : t.Covers (start + front.length) back pages' paths' s₂ s₃) :
    t.Covers start (front ++ back) (pages ++ pages') (paths + paths') s₁ s₃ := by
  refine ⟨sealedAt_append_iff.mpr ⟨first.sealed, ?_⟩, ?_, ?_, ?_, ?_, ?_, fun c old =>
    second.kept c (first.kept c old)⟩
  · rw [Nat.add_assoc]
    exact second.sealed
  · rw [List.length_append, ← Nat.add_assoc]
    exact second.walked
  · rw [second.paths, first.paths, Nat.add_assoc]
  · rw [second.out, first.out, sealedFrom_append, firstVisits_append, Nat.add_assoc]
    simp
  · rw [second.active, first.active]
  · intro c member
    rcases List.mem_append.mp member with old | new
    · exact second.kept c (first.noted c old)
    · exact second.noted c new

theorem Tour.Covers.nulls (walked : t.Walked offset s) {n : Nat}
    (inside : offset + n ≤ t.sealedCount) : t.Covers offset (List.replicate n none) [] 0 s s := by
  refine ⟨.nulls _ _, walked.later (by simp) (by simpa using inside), rfl, ?_, rfl, ?_,
    fun _ old => old⟩
  · simp [firstVisits, sealedFrom_nulls]
  · intro c member
    simp [List.mem_replicate] at member

theorem addOutput_ok {b' : EnumerationBudget} {u : Unit} (added : b.addOutput = .ok (u, b')) :
    b' = { b with outputs := b.outputs + 1 } := by
  unfold EnumerationBudget.addOutput at added
  by_cases full : b.outputs ≥ maxEnumerationOutputs
  · rw [if_pos full] at added
    cases added
  · rw [if_neg full] at added
    cases added
    rfl

theorem addOutput_error {e : Error} (refused : b.addOutput = .error e) :
    maxEnumerationOutputs ≤ b.outputs := by
  unfold EnumerationBudget.addOutput at refused
  by_contra room
  rw [if_neg (by omega)] at refused
  cases refused

theorem Tour.window_eq (t : Tour σ) {digit : Nat} (inside : start + digit < t.sealedCount) :
    u64 (t.base + u64 (start + digit)) = t.base + (start + digit) := by
  have total := t.base_add
  have small := t.window_small (Nat.le_refl t.openOrd)
  have positive := Nat.two_pow_pos t.params.segBits
  have wide : t.openOrd ≤ t.openOrd * 2 ^ t.params.segBits := Nat.le_mul_of_pos_right _ positive
  rw [u64_of_lt (by omega : start + digit < 2 ^ 64), u64_of_lt (by omega)]

theorem Tour.Walked.report (walked : t.Walked offset s) {kid : Cid}
    (validated : t.Walked (offset + 1) s₁) (beside : Tour.Beside s s₁)
    (noted : kid ∈ s₁.walker.segments)
    (placed : ∃ sg, SegmentAt t.ipld t.params kid
      (t.base + offset) (windowEnd (t.base + offset) t.params.segBits) false sg) :
    t.Covers offset [some kid] [] 0 s
      { s₁ with walker := { s₁.walker with
          budget := { s₁.walker.budget with outputs := s₁.walker.budget.outputs + 1 }
          out := { s₁.walker.out with sealed := s₁.walker.out.sealed ++
            [{ cid := kid, ord := t.base + offset
               firstSlot := windowStart (t.base + offset) t.params.segBits
               lastSlot := windowEnd (t.base + offset) t.params.segBits }] } } } := by
  have outputs := validated.outputs
  have outputs_le := walked.outputs_le
  have same := beside.outputs
  refine ⟨sealedAt_cons_iff.mpr ⟨?_, SealedAt.nil⟩, ?_, ?_, ?_, beside.active, ?_, beside.segments⟩
  · rintro c ⟨⟩
    exact placed
  · exact { validated with
      outputs := by simp [outputs]
      outputs_le := by
        simp only [List.length_singleton]
        omega
      charged := ⟨validated.charged.read, validated.charged.within⟩ }
  · exact beside.paths
  · simp [beside.out, firstVisits, sealedFrom]
  · intro c member
    obtain rfl : c = kid := by simpa using member
    exact noted

theorem Tour.Walked.walkLeaf_spec (digit : Nat) {kids : List Link}
    (walked : t.Walked (start + digit) s)
    (reached : ∀ c, some c ∈ kids → Reaches t.ipld t.root .segment c)
    (inside : start + digit + kids.length ≤ t.sealedCount) :
    Post (walkLeaf t.ipld t.cfg start digit kids) s
      (fun count s' => count = kids.countP Option.isSome ∧
        t.Covers (start + digit) kids [] 0 s s')
      (fun _ => SealedAt t.ipld t.params (t.base + (start + digit)) kids → t.Fails) := by
  induction kids generalizing digit s with
  | nil => exact post_pure ⟨rfl, .nil walked⟩
  | cons kid rest ih =>
    rw [List.length_cons] at inside
    have restReached : ∀ c, some c ∈ rest → Reaches t.ipld t.root .segment c :=
      fun c member => reached c (List.mem_cons_of_mem _ member)
    cases kid with
    | none =>
      have next : t.Walked (start + (digit + 1)) s := walked.later (by omega) (by omega)
      refine post_mono (ih _ next restReached (by omega)) ?_ fun _ raised sealed => ?_
      · rintro count s' ⟨rfl, covers⟩
        exact ⟨by simp, (Tour.Covers.nulls walked (n := 1) (by omega)).trans covers⟩
      · exact raised (sealedAt_cons_iff.mp sealed).2
    | some kid =>
      have total := t.base_add
      refine post_get_bind ?_
      have st : s.walker.st = t.world.cur := walked.st
      have window : u64 (s.walker.st.dirBase + u64 (start + digit)) =
          t.base + (start + digit) := by
        rw [st]
        exact t.window_eq (by omega)
      have segBits : s.walker.st.params.segBits = t.params.segBits := by
        rw [st]
        rfl
      dsimp only
      rw [window, segBits]
      refine post_then (post_mapError (walked.validateSegment_spec (start + digit + 1)
        (reached kid (by simp)) ?_ (by omega) (by omega) (by omega) walked.segments_le
        (.inr (by omega))) fun _ raised sealed => ?_) ?_
      · intro d win found
        rcases (walked.segment found).2 with rfl | before <;> omega
      · obtain ⟨sg, placed⟩ := (sealedAt_cons_iff.mp sealed).1 kid rfl
        exact raised sg placed
      rintro _ s₁ ⟨placed, validated, beside, noted⟩
      refine post_then (post_charge (fun _ budget added => ?_) fun e refused _ => ?_)
        (P := fun _ s' => s' = { s₁ with walker := { s₁.walker with
          budget := { s₁.walker.budget with outputs := s₁.walker.budget.outputs + 1 } } }) ?_
      · rw [addOutput_ok added]
      · have full := addOutput_error refused
        have outputs_le := walked.outputs_le
        have same := beside.outputs
        have limit := t.sealed_le
        omega
      rintro _ _ rfl
      refine post_modify_bind ?_
      have covers := walked.report validated beside noted placed
      have next : t.Walked (start + (digit + 1)) _ := covers.walked
      refine post_then (post_raised (ih _ next restReached (by omega)) fun _ raised sealed => ?_) ?_
      · exact raised (sealedAt_cons_iff.mp sealed).2
      · rintro count s' ⟨rfl, others⟩
        exact post_pure ⟨by simp, covers.trans others⟩

end Bloar.Archive
