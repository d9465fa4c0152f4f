import Bloar.Admission

/-!
Enumeration with a structure cache. `withCache` gives a head's machinery a cache
of its own, and `Shelf` is what a store promises to an enumeration of one root:
an invariant, the blocks it has shown, and a collection generation that stays.
`enumerate_spec` says exactly when an enumeration is accepted and what it then
returns; the cache matters for the byte budget alone.
-/

namespace Bloar.Archive
open Ipld Schema Arith Fallible RadixList

variable {σ : Type}

def withCache (cfg : Config σ) : Config (σ × StructureCache) where
  get c s := ((cfg.get c s.1).1, ((cfg.get c s.1).2, s.2))
  put c block s := ((cfg.put c block s.1).1, ((cfg.put c block s.1).2, s.2))
  resolver := cfg.resolver.map fun resolve vh s =>
    ((resolve vh s.1).1, ((resolve vh s.1).2, s.2))
  structureCache := some { read := fun s => (s.2, s), update := fun f s => (s.1, f s.2) }
  collectionGeneration := cfg.collectionGeneration.map fun generation s =>
    ((generation s.1).1, ((generation s.1).2, s.2))

structure Opened (ipld : Codec) (root : Cid) (h : Schema.Head) (w : World σ) : Prop where
  isHead : IsHead ipld root h
  loaded : w.cur = State.ofHead h (some root)
  fanout_pos : 0 < h.fanoutBits
  fanout_le : h.fanoutBits ≤ 32

inductive Admissible (ipld : Codec) (h : Schema.Head) : List Link → Prop where
  | uncovered (bare : h.syncedTo = none) (depth : h.dirDepth = 0) (dir : h.dir = none)
      (openCid : h.openCid = none) : Admissible ipld h []
  | covered {opened : Cid} {es : List Link} (covered : h.syncedTo.isSome)
      (few : es.length ≤ maxEnumerationOutputs)
      (depth : IsDepth h.fanoutBits es.length h.dirDepth) (formed : Formed ipld h opened es) :
      Admissible ipld h es

variable {h : Schema.Head}

theorem Formed.entries_eq {ipld : Codec} {opened : Cid} {es es' : List Link}
    (formed : Formed ipld h opened es) (lengths : es.length = es'.length)
    (least : h.dirDepth = 0 → es.length = 0)
    (dir : ∀ level, h.dirDepth = level + 1 →
      ∃ c, h.dir = some c ∧ PageAt ipld (2 ^ h.fanoutBits) level c es') : es = es' := by
  cases deep : h.dirDepth with
  | zero =>
    have none : es = [] := List.length_eq_zero_iff.mp (least deep)
    have none' : es' = [] := List.length_eq_zero_iff.mp (lengths ▸ least deep)
    rw [none, none']
  | succ level =>
    obtain ⟨c, at_c, page⟩ := formed.dir level deep
    obtain ⟨c', at_c', page'⟩ := dir level deep
    rw [at_c] at at_c'
    cases at_c'
    exact page.unique (Nat.two_pow_pos _) page' lengths

theorem Admissible.unique {ipld : Codec} {es es' : List Link} (first : Admissible ipld h es)
    (second : Admissible ipld h es') : es = es' := by
  cases first with
  | uncovered bare =>
    cases second with
    | uncovered => rfl
    | covered covered => simp [bare] at covered
  | covered covered _ depth formed =>
    cases second with
    | uncovered bare => simp [bare] at covered
    | covered _ _ _ formed' =>
      have total := formed.total
      have total' := formed'.total
      exact formed.entries_eq (by omega) depth.zero_iff.mp formed'.dir

noncomputable def enumerationOf (ipld : Codec) (root : Cid) (h : Schema.Head) (es : List Link) :
    Enumeration :=
  { params := paramsOf h
    root := some root
    syncedTo := h.syncedTo.getD 0
    covered := h.syncedTo.isSome
    dirPages := firstVisits [] (headPages ipld h)
    sealed := sealedFrom h.segBits (ord h.originSlot h.segBits) es
    openCid := h.openCid
    openOrd := if h.syncedTo.isSome then ord (h.syncedTo.getD 0 + 1) h.segBits else 0 }

def Fresh (generation : Option Nat) (cache : StructureCache) (c : Cid) : Prop :=
  ∃ p, cache.lookup c = some p ∧ Current (generation.getD 0) generation.isSome p

def Unread (ipld : Codec) (root : Cid) (generation : Option Nat) (cache : StructureCache)
    (c : Cid) : Prop :=
  (∃ kind, Reaches ipld root kind c) ∧ ¬ Fresh generation cache c

structure Shelf (ipld : Codec) (cfg : Config σ) (root : Cid) (inv : σ → Prop)
    (seen : σ → Cid → Prop) (fault : Prop) (generation : Option Nat) : Prop where
  get_inv : ∀ {c s}, inv s → inv (cfg.get c s).2
  get_keeps : ∀ {c d s}, inv s → seen s d → seen (cfg.get c s).2 d
  get_seen : ∀ {block s s'}, inv s → cfg.get (ipld.nodeCID block) s = (.ok block, s') →
    seen s' (ipld.nodeCID block)
  get_index : ∀ {block kind s}, inv s → Reaches ipld root kind (ipld.nodeCID block) →
    fault ∨ (cfg.get (ipld.nodeCID block) s).1 = .ok block
  unknown : generation = none → cfg.collectionGeneration = none
  steady : ∀ g, generation = some g → ∃ current, cfg.collectionGeneration = some current ∧
    ∀ s, inv s → (current s).1 = g ∧ inv (current s).2 ∧
      ∀ c, seen s c → seen (current s).2 c

def Proved (ipld : Codec) (cache : StructureCache) : Prop :=
  ∀ c p, cache.lookup c = some p → ProofOf ipld c p.proof

/-- The cache after an accepted enumeration: it has remembered proofs of segments
that were shown, and those with the ones that were fresh are all of them. -/
def Remembers (ipld : Codec) (generation : Option Nat) (shown : Cid → Prop)
    (es : List Link) (cache after : StructureCache) : Prop :=
  ∃ proofs : StructureCache, after = StructureCache.remember proofs cache ∧
    (∀ c p, proofs.lookup c = some p → ProofOf ipld c p.proof ∧
      p.generation = generation.getD 0 ∧ p.generationKnown = generation.isSome ∧ shown c) ∧
    ∀ c, some c ∈ es → c ∈ proofs ∨ Fresh generation cache c

section Spec
variable {ipld : Codec} {cfg : Config σ} {root : Cid} {inv : σ → Prop} {seen : σ → Cid → Prop}
variable {fault : Prop} {generation : Option Nat} {cache : StructureCache}

def Shelf.ground (shelf : Shelf ipld cfg root inv seen fault generation)
    (proved : Proved ipld cache) (shown : ∀ s, inv s → ∀ c, Fresh generation cache c → seen s c) :
    Ground (σ × StructureCache) where
  ipld := ipld
  cfg := withCache cfg
  inv s := inv s.1 ∧ s.2 = cache
  seen s := seen s.1
  fresh := Fresh generation cache
  fault := fault
  root := root
  generation := generation.getD 0
  generationKnown := generation.isSome
  get_inv := fun ⟨holds, same⟩ => ⟨shelf.get_inv holds, same⟩
  get_keeps := fun ⟨holds, _⟩ shown => shelf.get_keeps holds shown
  get_seen := by
    rintro block s s' ⟨holds, -⟩ read
    simp only [withCache, Prod.mk.injEq] at read
    obtain ⟨found, rfl⟩ := read
    exact shelf.get_seen holds (Prod.ext found rfl)
  get_index := fun ⟨holds, _⟩ reached => shelf.get_index holds reached
  read_inv := by
    rintro access s ⟨⟩ holds
    exact holds
  read_keeps := by
    rintro access d s ⟨⟩ - shown
    exact shown
  read_proof := by
    rintro access c p s ⟨⟩ ⟨-, rfl⟩ found
    exact proved c p found
  read_current := by
    rintro access c p s ⟨⟩ ⟨holds, rfl⟩ found current
    exact ⟨⟨p, found, current⟩, shown s.1 holds c ⟨p, found, current⟩⟩
  read_stale := by
    rintro access c s ⟨⟩ ⟨-, rfl⟩ stale
    exact .inr fun ⟨p, found, current⟩ => stale p found current
  uncached := by
    rintro ⟨⟩
  fresh_segment := by
    rintro c ⟨p, found, -⟩
    obtain ⟨sg, segment, -⟩ := proved c p found
    exact .inr ⟨sg, segment⟩

variable (shelf : Shelf ipld cfg root inv seen fault generation)
include shelf

theorem Shelf.collectionGeneration_post {w : World (σ × StructureCache)} (holds : inv w.shared.1) :
    Post (collectionGeneration (withCache cfg)) w
      (fun found w' => found = (generation.getD 0, generation.isSome) ∧
        ∃ s, w' = { w with shared := (s, w.shared.2) } ∧ inv s ∧ ∀ c, seen w.shared.1 c → seen s c)
      (fun _ => False) := by
  unfold Post collectionGeneration
  cases known : generation with
  | none =>
    simp only [withCache, shelf.unknown known, Option.map_none]
    exact ⟨rfl, w.shared.1, rfl, holds, fun _ shown => shown⟩
  | some g =>
    obtain ⟨current, access, steady⟩ := shelf.steady g known
    obtain ⟨same, stays, keeps⟩ := steady w.shared.1 holds
    simp only [withCache, access, Option.map_some]
    exact ⟨by simp [same], (current w.shared.1).2, rfl, stays, keeps⟩

theorem Shelf.checkGeneration_post {w : World (σ × StructureCache)} (holds : inv w.shared.1) :
    Post (checkGeneration (withCache cfg) (generation.getD 0) generation.isSome) w
      (fun _ w' => ∃ s, w' = { w with shared := (s, w.shared.2) } ∧ inv s ∧
        ∀ c, seen w.shared.1 c → seen s c)
      (fun _ => False) := by
  unfold checkGeneration
  refine post_ite (fun _ => ?_) fun _ => ?_
  · refine post_then (shelf.collectionGeneration_post holds) ?_
    rintro _ w' ⟨rfl, after⟩
    refine post_guard (fun _ => after) fun changed => ?_
    simp at changed
  · exact post_pure ⟨w.shared.1, rfl, holds, fun _ shown => shown⟩

omit shelf

theorem post_startWalk {walker : EnumerationWalker} {x : Walk σ Unit} {w : World σ}
    {Q : Walking σ → Prop} {E : Error → Prop}
    (ran : Post x { world := w, walker } (fun _ s => Q s) E) :
    Post (startWalk walker x) w (fun final w' => Q { world := w', walker := final }) E := by
  unfold Post startWalk at *
  rcases run : x { world := w, walker } with ⟨outcome, s⟩
  rw [run] at ran
  cases outcome with
  | ok | error => exact ran

/-- A Head block's coverage is an IPLD integer, so the next slot is one of the
engine. -/
theorem IsHead.synced_lt (isHead : IsHead ipld root h) : h.syncedTo.getD 0 < maxUint64 := by
  obtain ⟨block, -, -, decoded⟩ := isHead
  have limit := (decodeHead_encodable decoded).syncedInt
  have wide : maxInt64 < maxUint64 := by decide
  cases found : h.syncedTo with
  | none => simp only [Option.getD_none]; omega
  | some s =>
    have small := limit s found
    simp only [Option.getD_some]
    omega

theorem Formed.spans {opened : Cid} {es : List Link} {root' : Link}
    (formed : Formed ipld h opened es) (isHead : IsHead ipld root h)
    (few : es.length ≤ maxEnumerationOutputs) (depth : IsDepth h.fanoutBits es.length h.dirDepth) :
    Spans (State.ofHead h root') (ord (h.syncedTo.getD 0 + 1) h.segBits) es.length :=
  ⟨Nat.ne_of_lt isHead.synced_lt, rfl, formed.total, few, depth⟩

def Ground.tour {τ : Type} (t : Ground τ) {h : Schema.Head} {w : World τ}
    (opened : Opened t.ipld t.root h w) (holds : t.inv w.shared) {openOrd sealedCount : Nat}
    (spans : Spans (State.ofHead h (some t.root)) openOrd sealedCount) : Tour τ where
  toGround := t
  world := w
  head := h
  openOrd := openOrd
  sealedCount := sealedCount
  holds := holds
  isHead := opened.isHead
  loaded := opened.loaded
  fanout_pos := opened.fanout_pos
  fanout_le := opened.fanout_le
  openOrd_eq := spans.openOrd_eq
  window_count := spans.total
  sealed_le := spans.sealed_le
  depth := spans.depth
  paths_le := by
    intro level deep
    have few := spans.sealed_le
    have outputs : maxEnumerationOutputs = 1048576 := rfl
    have paths : maxEnumerationPaths = 2097152 := rfl
    have bound := canonicalDirectoryPages_le spans.depth opened.fanout_pos few
    rw [canonicalDirectoryPages_eq spans.depth opened.fanout_pos (by omega)] at bound
    change pathsUpTo (2 ^ h.fanoutBits) sealedCount h.dirDepth ≤ sealedCount + 64 at bound
    rw [deep] at bound
    exact Nat.le_trans bound (by omega)

theorem reaches_bare (isHead : IsHead ipld root h) (dir : h.dir = none) (openCid : h.openCid = none)
    {kind : Kind} {c : Cid} (reached : Reaches ipld root kind c) : kind = .head ∧ c = root := by
  obtain ⟨headBlock, named, -, described⟩ := isHead
  induction reached with
  | root => exact ⟨rfl, rfl⟩
  | step _ links ih =>
    obtain ⟨rfl, same⟩ := ih
    cases links with
    | opened decoded link =>
      rw [ipld.nodeCID_injective (same.trans named), described] at decoded
      cases decoded
      rw [openCid] at link
      cases link
    | dir decoded link =>
      rw [ipld.nodeCID_injective (same.trans named), described] at decoded
      cases decoded
      rw [dir] at link
      cases link

structure Accepted (ipld : Codec) (root : Cid) (h : Schema.Head) (inv : σ → Prop)
    (seen : σ → Cid → Prop) (generation : Option Nat) (cache : StructureCache) (es : List Link)
    (found : Enumeration) (w : World (σ × StructureCache)) : Prop where
  admissible : Admissible ipld h es
  found_eq : found = enumerationOf ipld root h es
  cur : w.cur = State.ofHead h (some root)
  stays : inv w.shared.1
  shown : ∀ {kind c}, Reaches ipld root kind c → seen w.shared.1 c
  bytes : BytesWithin ipld (Unread ipld root generation cache) maxEnumerationDecodedBytes
  remembers : Remembers ipld generation (seen w.shared.1) es cache w.shared.2

variable {h : Schema.Head} {w : World (σ × StructureCache)}

include shelf

variable (proved : Proved ipld cache)
include proved

variable (shown : ∀ s, inv s → ∀ c, Fresh generation cache c → seen s c)
include shown

variable (opened : Opened ipld root h w)
include opened

theorem Shelf.finish_spec (covered : h.syncedTo.isSome) (holds : inv w.shared.1)
    (same : w.shared.2 = cache) {openOrd sealedCount : Nat}
    (spans : Spans (State.ofHead h (some root)) openOrd sealedCount) :
    Post (do
        let walker ← startWalk
          (startWalker w.cur openOrd (generation.getD 0) generation.isSome) (do
            let _ ← readNode ipld (withCache cfg) root "Head"
            walkHead ipld (withCache cfg) openOrd sealedCount)
        checkGeneration (withCache cfg) (generation.getD 0) generation.isSome
        rememberSegments (withCache cfg) walker.newProofs
        pure walker.out) w
      (fun found w' => ∃ es, Accepted ipld root h inv seen generation cache es found w')
      (fun _ => ∀ es, Admissible ipld h es →
        BytesWithin ipld (Unread ipld root generation cache) maxEnumerationDecodedBytes → fault) := by
  let t := (shelf.ground proved shown).tour opened ⟨holds, same⟩ spans
  refine post_then (post_raised (post_startWalk t.walk_spec) ?_) ?_
  · rintro e raised es admissible bytes
    cases admissible with
    | uncovered bare => simp [bare] at covered
    | covered _ _ _ formed => exact (raised _ _ formed).resolve_right (not_not.mpr bytes)
  rintro walker w₁ ⟨openCid, es, finished⟩
  have inv₁ : inv w₁.shared.1 ∧ w₁.shared.2 = cache := finished.walked.inv
  refine post_then (post_raised (shelf.checkGeneration_post inv₁.1) fun _ never => never.elim) ?_
  rintro _ _ ⟨s, rfl, stays, keeps⟩
  refine post_modify_bind (post_pure ⟨es, ?_⟩)
  have few : es.length = sealedCount := by
    have total := finished.formed.total
    have spanned := spans.total
    have start := spans.openOrd_eq
    change ord h.originSlot h.segBits + es.length = ord (h.syncedTo.getD 0 + 1) h.segBits at total
    change ord h.originSlot h.segBits + sealedCount = openOrd at spanned
    change openOrd = ord (h.syncedTo.getD 0 + 1) h.segBits at start
    omega
  refine ⟨.covered covered (few ▸ spans.sealed_le) (few ▸ spans.depth) finished.formed, ?_, ?_, stays,
    fun reached => keeps _ (finished.seen ⟨_, reached⟩), not_not.mp finished.not_over,
    walker.newProofs, ?_, ?_, ?_⟩
  · rw [finished.out, enumerationOf, if_pos covered]
    have world : t.world.cur = State.ofHead h (some root) := opened.loaded
    have spanned : t.openOrd = ord (h.syncedTo.getD 0 + 1) h.segBits := spans.openOrd_eq
    rw [Tour.params, Tour.base, world, spanned]
    rfl
  · have kept : w₁ = { w with shared := w₁.shared } := finished.walked.world
    rw [kept]
    exact opened.loaded
  · rw [← inv₁.2]
  · intro c p found
    obtain ⟨right, stamp, known, noted⟩ := finished.walked.proofs found
    have counted := (finished.walked.counted c).mpr (.inr (.inr noted))
    exact ⟨right, stamp, known, keeps c (finished.walked.index c counted).1⟩
  · intro c member
    exact finished.walked.proved c (finished.noted.2 c member)

theorem Shelf.bare_spec (bare : h.syncedTo = none) (depth : h.dirDepth = 0) (dir : h.dir = none)
    (openCid : h.openCid = none) (holds : inv w.shared.1) (same : w.shared.2 = cache) :
    Post (do
        let walker ← startWalk (startWalker w.cur 0 (generation.getD 0) generation.isSome) (do
          let _ ← readNode ipld (withCache cfg) root "Head"
          pure ())
        pure walker.out) w
      (fun found w' => ∃ es, Accepted ipld root h inv seen generation cache es found w')
      (fun _ => fault) := by
  let t := shelf.ground proved shown
  obtain ⟨block, named, small, -⟩ := opened.isHead
  have limit : maxEnumerationNodeBytes ≤ maxEnumerationDecodedBytes := by decide
  have cbor : HasPrefix dagCBOR root := named ▸ nodeCID_hasPrefix ipld block
  have charged : t.Charged (startWalker w.cur 0 (generation.getD 0) generation.isSome).budget :=
    ⟨⟨∅, by simp, rfl, by simp, by simp [startWalker]⟩, Nat.zero_le _⟩
  let start : Walking (σ × StructureCache) :=
    { world := w, walker := startWalker w.cur 0 (generation.getD 0) generation.isSome }
  have reads := t.readNode_spec (s := start) ⟨holds, same⟩ cbor charged "Head"
  refine post_then (post_startWalk (Q := fun s => ∃ data, t.ReadTo root start data s)
    (post_then (post_raised reads fun _ faulty => ?_)
      fun data s read => post_pure ⟨data, read⟩)) ?_
  · rcases faulty block .head named small .root with failed | old | full | exceeds
    · exact failed
    · simp [start, startWalker] at old
    · simp [start, startWalker, maxEnumerationUniqueNodes] at full
    · simp only [start, startWalker] at exceeds
      omega
  rintro walker w' ⟨data, read⟩
  have stays : inv w'.shared.1 ∧ w'.shared.2 = cache := read.inv
  refine post_pure ⟨[], .uncovered bare depth dir openCid, ?_, ?_, stays.1, fun reached => ?_, ?_, ∅, ?_,
    by simp, by simp⟩
  · have out : walker.out = _ := congrArg EnumerationWalker.out read.walker
    rw [out, enumerationOf, headPages_zero depth, bare]
    simp [start, startWalker, opened.loaded, State.ofHead, bare, firstVisits, sealedFrom, paramsOf]
  · have kept : w' = { w with shared := w'.shared } := read.world
    rw [kept]
    exact opened.loaded
  · obtain ⟨-, rfl⟩ := reaches_bare opened.isHead dir openCid reached
    exact read.seen
  · intro cs each
    have only : cs ⊆ {root} := by
      intro c member
      obtain ⟨⟨kind, reached⟩, -⟩ := each c member
      exact Finset.mem_singleton.mpr (reaches_bare opened.isHead dir openCid reached).2
    calc ∑ c ∈ cs, sizeOf ipld c ≤ ∑ c ∈ {root}, sizeOf ipld c := Finset.sum_le_sum_of_subset only
      _ ≤ maxEnumerationDecodedBytes := by
        rw [Finset.sum_singleton, named, sizeOf_nodeCID]
        omega
  · simp [StructureCache.remember, stays.2]

theorem Shelf.enumerate_spec (holds : inv w.shared.1) (same : w.shared.2 = cache) :
    Post (enumerate ipld (withCache cfg)) w
      (fun found w' => ∃ es, Accepted ipld root h inv seen generation cache es found w')
      (fun _ => ∀ es, Admissible ipld h es →
        BytesWithin ipld (Unread ipld root generation cache) maxEnumerationDecodedBytes → fault) := by
  refine post_then (post_raised (shelf.collectionGeneration_post holds)
    fun _ never => never.elim) ?_
  rintro _ _ ⟨rfl, s, rfl, stays, -⟩
  have opened₁ : Opened ipld root h { w with shared := (s, w.shared.2) } :=
    ⟨opened.isHead, opened.loaded, opened.fanout_pos, opened.fanout_le⟩
  have positive : 0 < (State.ofHead h (some root)).params.fanoutBits := opened.fanout_pos
  refine post_get_bind ?_
  dsimp only
  rw [opened.loaded]
  refine post_ofExcept_bind (fun e refused es admissible _ => ?_) ?_
  · -- An admissible head has the geometry it needs.
    exfalso
    cases admissible with
    | uncovered bare depth dir openCid =>
      have passed : validateDirectoryGeometry (State.ofHead h (some root)) = .ok (0, 0) :=
        (validateDirectoryGeometry_uncovered_iff (by simp [State.ofHead, bare])).mpr
          ⟨depth, dir, openCid, rfl⟩
      rw [passed] at refused
      cases refused
    | covered covered few depth formed =>
      have passed := (validateDirectoryGeometry_covered_iff covered positive).mpr
        (formed.spans opened.isHead few depth)
      rw [passed] at refused
      cases refused
  rintro ⟨openOrd, sealedCount⟩ passed
  rw [mapError_ok_iff] at passed
  by_cases covered : h.syncedTo.isSome
  · have spans := (validateDirectoryGeometry_covered_iff covered positive).mp passed
    have spec := shelf.finish_spec proved shown opened₁ covered stays same spans
    rw [opened₁.loaded] at spec
    simpa only [State.ofHead, covered, if_true] using spec
  · have bare : h.syncedTo = none := by simpa using covered
    have uncovered : (State.ofHead h (some root)).covered = false := by simp [State.ofHead, bare]
    obtain ⟨depth, dir, openCid, found⟩ :=
      (validateDirectoryGeometry_uncovered_iff uncovered).mp passed
    cases found
    have spec := shelf.bare_spec proved shown opened₁ bare depth dir openCid stays same
    rw [opened₁.loaded] at spec
    have excused := post_raised spec fun _ failed
      (es : List Link) (_ : Admissible ipld h es) (_ : BytesWithin ipld
        (Unread ipld root generation cache) maxEnumerationDecodedBytes) => failed
    simpa only [State.ofHead, covered, Bool.false_eq_true, if_false] using excused

end Spec

end Bloar.Archive
