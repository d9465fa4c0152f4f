import Bloar.Closure

/-!
A rewind under a window policy (`TruncateRetainingWindow` in `archive/truncate.go`). The
range a window policy retains ends at the last covered slot, so cutting a head back moves
it towards older windows. Before the shorter head is published, the call reads every blob
that the policy comes to retain: a collection that runs meanwhile then spares it.
-/

namespace Bloar.Archive
open Ipld Schema Arith Fallible

variable {σ : Type}

/-! ### A store that remembers what was read -/

/-- The same store, with a list of the CIDs that were read, the newest first. -/
def traced (cfg : Config σ) : Config (σ × List Cid) where
  get c s :=
    match cfg.get c s.1 with
    | (.ok block, after) => (.ok block, (after, c :: s.2))
    | (.error e, after) => (.error e, (after, s.2))
  put c block s := ((cfg.put c block s.1).1, ((cfg.put c block s.1).2, s.2))
  resolver := cfg.resolver.map fun resolve vh s =>
    ((resolve vh s.1).1, ((resolve vh s.1).2, s.2))
  structureCache := cfg.structureCache.map fun cache =>
    { read := fun s => ((cache.read s.1).1, ((cache.read s.1).2, s.2))
      update := fun f s => (cache.update f s.1, s.2) }
  collectionGeneration := cfg.collectionGeneration.map fun generation s =>
    ((generation s.1).1, ((generation s.1).2, s.2))

def World.forgotten (w : World (σ × List Cid)) : World (σ × List Cid) :=
  { w with shared := (w.shared.1, []) }

def Observed (present : σ → Cid → Prop) (s : σ × List Cid) (c : Cid) : Prop :=
  if c.codec = raw then c ∈ s.2 else present s.1 c

section Traced
variable {ipld : Codec} {cfg : Config σ} {present : σ → Cid → Prop}

theorem traced_get (cfg : Config σ) (c : Cid) (s : σ × List Cid) :
    ((traced cfg).get c s).1 = (cfg.get c s.1).1 ∧
      ((traced cfg).get c s).2.1 = (cfg.get c s.1).2 ∧
      ∀ d ∈ s.2, d ∈ ((traced cfg).get c s).2.2 := by
  simp only [traced]
  rcases cfg.get c s.1 with ⟨outcome, after⟩
  cases outcome with
  | ok block => exact ⟨rfl, rfl, fun d member => List.mem_cons_of_mem _ member⟩
  | error e => exact ⟨rfl, rfl, fun d member => member⟩

theorem traced_resolver {resolve : VersionedHash → σ × List Cid → Except String (Link × Bool) × (σ × List Cid)}
    (resolver : (traced cfg).resolver = some resolve) :
    ∃ inner, cfg.resolver = some inner ∧ ∀ vh s, resolve vh s =
      ((inner vh s.1).1, ((inner vh s.1).2, s.2)) := by
  simp only [traced, Option.map_eq_some_iff] at resolver
  obtain ⟨inner, named, rfl⟩ := resolver
  exact ⟨inner, named, fun _ _ => rfl⟩

variable (durable : Durable ipld cfg present)
include durable

theorem traced_honest {block found : Block} {s s' : σ × List Cid}
    (read : (traced cfg).get (ipld.nodeCID block) s = (.ok found, s')) : found = block := by
  have outcome := (traced_get cfg (ipld.nodeCID block) s).1
  rw [read] at outcome
  exact durable.get_honest (s := s.1) (Prod.ext outcome.symm rfl)

theorem traced_put_present {block : Block} {s s' : σ × List Cid}
    (wrote : (traced cfg).put (ipld.nodeCID block) block s = (.ok (), s')) :
    present s'.1 (ipld.nodeCID block) := by
  simp only [traced, Prod.mk.injEq] at wrote
  obtain ⟨outcome, rfl⟩ := wrote
  exact durable.put_present (Prod.ext outcome rfl)

theorem traced_durable : Durable ipld (traced cfg) fun s => present s.1 where
  get_keeps := by
    intro c d s held
    rw [(traced_get cfg c s).2.1]
    exact durable.get_keeps held
  put_keeps held := durable.put_keeps held
  resolve_keeps := by
    intro resolve vh d s resolver held
    obtain ⟨inner, named, same⟩ := traced_resolver resolver
    rw [same]
    exact durable.resolve_keeps named held
  put_present wrote := traced_put_present durable wrote
  get_honest read := traced_honest durable read

omit durable

theorem Observed.mono {s s' : σ × List Cid} {c : Cid} (held : Observed present s c)
    (blocks : present s.1 c → present s'.1 c) (reads : c ∈ s.2 → c ∈ s'.2) :
    Observed present s' c := by
  unfold Observed at *
  split at held
  · rename_i leaf
    rw [if_pos leaf]
    exact reads held
  · rename_i inner
    rw [if_neg inner]
    exact blocks held

theorem observed_node {s : σ × List Cid} {block : Block} :
    Observed present s (ipld.nodeCID block) ↔ present s.1 (ipld.nodeCID block) := by
  have inner : (ipld.nodeCID block).codec ≠ raw := by
    change dagCBOR ≠ raw
    decide
  simp [Observed, inner]

include durable in
theorem observed_durable : Durable ipld (traced cfg) (Observed present) where
  get_keeps := by
    intro c d s held
    refine held.mono (fun there => ?_) ((traced_get cfg c s).2.2 d)
    rw [(traced_get cfg c s).2.1]
    exact durable.get_keeps there
  put_keeps held := held.mono durable.put_keeps id
  resolve_keeps := by
    intro resolve vh d s resolver held
    obtain ⟨inner, named, same⟩ := traced_resolver resolver
    rw [same]
    exact held.mono (durable.resolve_keeps named) id
  put_present wrote := observed_node.mpr (traced_put_present durable wrote)
  get_honest read := traced_honest durable read

theorem observed_notes (cfg : Config σ) (present : σ → Cid → Prop) :
    Notes (traced cfg) (Present (Observed present)) (Present (Observed present)) where
  mono grows held := grows.kept _ held
  get := by
    intro c w leaf
    unfold Post getBlock
    simp only [traced]
    rcases cfg.get c w.shared.1 with ⟨outcome, after⟩
    cases outcome with
    | ok block => simp [Present, Observed, leaf]
    | error e => trivial

end Traced

/-! ### The enumeration of a root -/

/-- The enumeration of the root, over some content and with some cache that enumerations
over it have left, has this result. -/
def Enumerates (ipld : Codec) (root : Cid) (found : Enumeration) : Prop :=
  ∃ content generation cache params w, Warm ipld content cache ∧
    reopen ipld (fixed content generation) (some root) (newHead ((), cache) params) = (.ok found, w)

theorem openIn_enumerates {blocks : List Block} {root : Cid} {α : Type} (f : Enumeration → α) {a : α}
    (ran : (openIn blocks root).1.toOption.map f = some a) :
    ∃ found, Enumerates DagCbor.codec root found ∧ f found = a := by
  obtain ⟨found, -, -, returns, -, -, -, rfl⟩ := openIn_admissible f ran
  exact ⟨found, ⟨contentOf sampleConfig blocks, none, ∅, sampleParams, _, .empty, returns⟩, rfl⟩

section Contents
variable {ipld : Codec} {params : Params} {holds : World σ → Cid → Prop} {w : World σ}
variable {m : Contents} {s : Nat} {root c : Cid} {found : Enumeration}

theorem Enumerates.admissible (enumerates : Enumerates ipld root found) :
    ∃ h es, IsHead ipld root h ∧ UsableHead h ∧ Admissible ipld h es ∧
      found = enumerationOf ipld root h es := by
  obtain ⟨content, generation, cache, params, w, warm, ran⟩ := enumerates
  obtain ⟨h, es, isHead, usable, accepted⟩ := post_ok (warm.reopen_spec rfl) ran
  exact ⟨h, es, isHead, usable, accepted.admissible, accepted.found_eq⟩

variable (represents : Represents ipld params holds w m)
include represents

variable (covered : m.coverage = some s)
include covered

theorem Represents.enumerates_eq (at_root : w.cur.root = some root)
    (enumerates : Enumerates ipld root found) :
    RawBlobs m.rows ∧ IsHead ipld root (bareState ipld params m).headObject ∧
      Admissible ipld (bareState ipld params m).headObject (sealedEntries ipld params m.rows s) ∧
      found = enumerationOf ipld root (bareState ipld params m).headObject
        (sealedEntries ipld params m.rows s) := by
  obtain ⟨h, es, isHead, usable, admissible, rfl⟩ := enumerates.admissible
  rw [represents.root] at at_root
  cases at_root
  obtain rfl := isHead.unique represents.isHead
  cases admissible with
  | uncovered bare =>
    rw [bareState_some covered] at bare
    cases bare
  | covered coverage few depth formed =>
    have raws := represents.raws_of_formed covered formed
    obtain ⟨rfl, rfl⟩ := represents.entries_eq covered formed
    exact ⟨raws, isHead, .covered coverage few depth formed, rfl⟩

theorem Represents.refersTo_iff (raws : RawBlobs m.rows) {win : Nat}
    (le : win ≤ openWindow params s)
    (stored : Stored ipld holds w (segmentNode (segOf params.segBits m.rows win))) :
    Pinning.RefersTo ipld (segCid params.segBits ipld m.rows win) c ↔
      InRows (windowRows params.segBits m.rows win) c := by
  have segment := represents.isSegment covered le stored raws
  constructor
  · rintro ⟨sg, again, blob⟩
    rw [← segment.unique again] at blob
    exact Segment.mem_blobs.mp blob
  · intro inside
    exact ⟨_, segment, Segment.mem_blobs.mpr inside⟩

theorem Represents.opened_refers (raws : RawBlobs m.rows) {es : List Link} :
    (∃ seg, (enumerationOf ipld root (bareState ipld params m).headObject es).openCid = some seg ∧
        Pinning.RefersTo ipld seg c) ↔
      InRows (windowRows params.segBits m.rows (openWindow params s)) c := by
  have named : (enumerationOf ipld root (bareState ipld params m).headObject es).openCid =
      some (segCid params.segBits ipld m.rows (openWindow params s)) := by
    rw [bareState_some covered]
    rfl
  rw [← represents.refersTo_iff covered raws (Nat.le_refl _) (represents.open_stored covered)]
  simp [named]

theorem Represents.sealed_refers (raws : RawBlobs m.rows) {x : SealedSegment}
    (inside : x ∈ sealedFrom params.segBits params.base (sealedEntries ipld params m.rows s)) :
    params.base ≤ x.ord ∧ x.ord < openWindow params s ∧
      (Pinning.RefersTo ipld x.cid c ↔ InRows (windowRows params.segBits m.rows x.ord) c) := by
  obtain ⟨low, high, entry⟩ := mem_sealedFrom inside
  rw [length_sealedEntries] at high
  rw [sealedEntries_getElem (by omega), Nat.add_sub_cancel' low, entryOf] at entry
  split at entry
  · cases entry
  · rename_i filled
    have stored := represents.stored _ (.sealed covered low (by omega) filled)
    cases same : x.cid
    rw [same] at entry
    cases entry
    exact ⟨low, by omega, represents.refersTo_iff covered raws (by omega) stored⟩

omit represents

omit covered

theorem exists_sealed (ipld : Codec) {win : Nat} (low : params.base ≤ win)
    (high : win < openWindow params s) (filled : windowRows params.segBits m.rows win ≠ []) :
    ∃ x ∈ sealedFrom params.segBits params.base (sealedEntries ipld params m.rows s),
      x.ord = win := by
  have found := sealedFrom_find params.segBits params.base (sealedEntries ipld params m.rows s)
    (win - params.base)
  rw [sealedEntries_getElem (by omega), Nat.add_sub_cancel' low, entryOf, if_neg filled] at found
  obtain ⟨x, at_win, -⟩ := Option.map_eq_some_iff.mp found
  exact ⟨x, List.mem_of_find?_eq_some at_win, by simpa using List.find?_some at_win⟩

end Contents

end Bloar.Archive

namespace Bloar.Pinning
open Ipld Archive Arith Fallible

variable {σ : Type}

def Deep (ipld : Codec) (pins : List Pin) (c : Cid) : Prop :=
  ∃ p ∈ pins, p.recursive = true ∧ ipld.Dag p.cid c

section Deep
variable {ipld : Codec} {policy : Policy} {pins : List Pin} {root c : Cid} {h : Schema.Head}
variable {es : List Link}

theorem deep_iff (distinct : ipld.Distinct) (admissible : Admissible ipld h es)
    (isHead : IsHead ipld root h) (windowed : policy.mode = .window)
    (made : desired policy (enumerationOf ipld root h es) = .ok pins) (leaf : c.codec = raw) :
    Deep ipld pins c ↔
      (∃ seg, (enumerationOf ipld root h es).openCid = some seg ∧ RefersTo ipld seg c) ∨
      ∃ x ∈ (enumerationOf ipld root h es).sealed,
        policy.Meets (enumerationOf ipld root h es) x ∧ RefersTo ipld x.cid c := by
  have notFull : policy.mode ≠ .full := by simp [windowed]
  -- A blob is not an index block.
  have blob : ∀ {seg}, (∃ sg, IsSegment ipld seg sg) → (ipld.Dag seg c ↔ RefersTo ipld seg c) := by
    rintro seg ⟨sg, segment⟩
    rw [segment_dag_iff distinct segment]
    constructor
    · rintro (rfl | inside)
      · obtain ⟨block, rfl, -⟩ := segment
        cases leaf
      · exact ⟨sg, segment, inside⟩
    · rintro ⟨other, again, inside⟩
      rw [segment.unique again]
      exact .inr inside
  rw [desired_index notFull rfl made]
  constructor
  · rintro ⟨p, member, recursive, under⟩
    simp only [List.cons_append, List.mem_append, List.mem_cons, List.mem_map,
      Option.mem_toList] at member
    rcases member with rfl | (⟨_, -, rfl⟩ | ⟨x, inside, rfl⟩) | ⟨seg, opened, rfl⟩
    · cases recursive
    · cases recursive
    · unfold sealedPin at recursive under
      split at recursive
      · rename_i kept
        rw [if_pos kept] at under
        have segment := admissible.isSegment (.inl ⟨x, inside, rfl⟩)
        exact .inr ⟨x, inside, (meets_iff admissible isHead inside).mpr kept.2,
          (blob segment).mp under⟩
      · cases recursive
    · exact .inl ⟨seg, opened, (blob (admissible.isSegment (.inr opened))).mp under⟩
  · rintro (⟨seg, opened, refers⟩ | ⟨x, inside, meets, refers⟩)
    · refine ⟨⟨.openWindow, seg, true⟩, ?_, rfl,
        (blob (admissible.isSegment (.inr opened))).mpr refers⟩
      simp [windowed, opened]
    · have kept := (meets_iff admissible isHead inside).mp meets
      have segment := admissible.isSegment (.inl ⟨x, inside, rfl⟩)
      refine ⟨⟨.window, x.cid, true⟩, ?_, rfl, (blob segment).mpr refers⟩
      have pinned : sealedPin policy (policy.windowLow (enumerationOf ipld root h es).syncedTo) x =
          ⟨.window, x.cid, true⟩ := by
        rw [sealedPin, if_pos ⟨windowed, kept⟩]
      simp only [List.cons_append, List.mem_append, List.mem_cons, List.mem_map]
      exact .inr (.inl (.inr ⟨x, inside, pinned⟩))

end Deep

section Rewind
variable {ipld : Codec} {params : Params} {holds : World σ → Cid → Prop} {w : World σ}
variable {m : Contents} {s : Nat} {root c : Cid} {found : Enumeration} {policy : Policy}
variable {pins : List Pin}

/-- The sealed windows a policy retains start where the engine says. -/
theorem meets_iff_retainedFrom (represents : Represents ipld params holds w m)
    (covered : m.coverage = some s)
    (isHead : IsHead ipld root (bareState ipld params m).headObject)
    (admissible : Admissible ipld (bareState ipld params m).headObject
      (sealedEntries ipld params m.rows s)) {x : SealedSegment}
    (inside : x ∈ (enumerationOf ipld root (bareState ipld params m).headObject
      (sealedEntries ipld params m.rows s)).sealed) :
    policy.Meets (enumerationOf ipld root (bareState ipld params m).headObject
        (sealedEntries ipld params m.rows s)) x ↔
      retainedFrom params policy.windowSlots s ≤ x.ord := by
  rw [meets_iff admissible isHead inside, windowLow_eq]
  have synced : (enumerationOf ipld root (bareState ipld params m).headObject
      (sealedEntries ipld params m.rows s)).syncedTo = s := by
    rw [bareState_some covered]
    rfl
  have listed : x ∈ sealedFrom params.segBits params.base (sealedEntries ipld params m.rows s) := by
    rw [bareState_some covered] at inside
    exact inside
  obtain ⟨low, high, -⟩ := mem_sealedFrom listed
  rw [length_sealedEntries] at high
  have small := represents.valid.bounded s covered
  have start := le_ord_iff.mp (show x.ord + 1 ≤ ord (s + 1) params.segBits by
    change x.ord + 1 ≤ openWindow params s
    omega)
  rw [Schema.maxInt64_eq] at small
  rw [synced, (sealedFrom_slots listed).2, windowEnd_eq (by omega), retainedFrom]
  have origin := ord_lt_iff.mp (show ord params.originSlot params.segBits < x.ord + 1 by
    change params.base < x.ord + 1
    omega)
  have filled : 0 < (x.ord + 1) * 2 ^ params.segBits :=
    Nat.mul_pos (Nat.succ_pos _) (Nat.two_pow_pos _)
  have first : ord (max (s - policy.windowSlots) params.originSlot) params.segBits ≤ x.ord ↔
      max (s - policy.windowSlots) params.originSlot < (x.ord + 1) * 2 ^ params.segBits := by
    rw [← ord_lt_iff]
    omega
  rw [first]
  omega

theorem deep_rows_iff (distinct : ipld.Distinct) (represents : Represents ipld params holds w m)
    (covered : m.coverage = some s) (at_root : w.cur.root = some root)
    (enumerates : Enumerates ipld root found) (windowed : policy.mode = .window)
    (made : desired policy found = .ok pins) (leaf : c.codec = raw) :
    Deep ipld pins c ↔ ∃ win, InRows (windowRows params.segBits m.rows win) c ∧
      (win = openWindow params s ∨ params.base ≤ win ∧ win < openWindow params s ∧
        retainedFrom params policy.windowSlots s ≤ win) := by
  obtain ⟨raws, isHead, admissible, rfl⟩ := represents.enumerates_eq covered at_root enumerates
  have listed : (enumerationOf ipld root (bareState ipld params m).headObject
      (sealedEntries ipld params m.rows s)).sealed =
        sealedFrom params.segBits params.base (sealedEntries ipld params m.rows s) := by
    rw [bareState_some covered]
    rfl
  rw [deep_iff distinct admissible isHead windowed made leaf, represents.opened_refers covered raws]
  constructor
  · rintro (opened | ⟨x, inside, meets, refers⟩)
    · exact ⟨_, opened, .inl rfl⟩
    · have retained := (meets_iff_retainedFrom represents covered isHead admissible inside).mp meets
      rw [listed] at inside
      obtain ⟨low, high, blobs⟩ := represents.sealed_refers covered raws inside
      exact ⟨x.ord, blobs.mp refers, .inr ⟨low, high, retained⟩⟩
  · rintro ⟨win, inside, rfl | ⟨low, high, retained⟩⟩
    · exact .inl inside
    · obtain ⟨r, row, -⟩ := id inside
      obtain ⟨x, at_win, rfl⟩ := exists_sealed ipld low high (List.ne_nil_of_mem row)
      obtain ⟨-, -, blobs⟩ := represents.sealed_refers covered raws at_win
      rw [← listed] at at_win
      exact .inr ⟨x, at_win, (meets_iff_retainedFrom represents covered isHead admissible
        at_win).mpr retained, blobs.mpr inside⟩

theorem hasPrefix_ext {codec : Nat} {c d : Cid} (first : HasPrefix codec c)
    (second : HasPrefix codec d) (same : c.hash = d.hash) : c = d := by
  obtain ⟨version, code, -⟩ := first
  obtain ⟨version', code', -⟩ := second
  cases c
  cases d
  simp_all

theorem inRows_raw {rows : List Schema.Row} (raws : RawBlobs rows) (inside : InRows rows c) :
    HasPrefix raw c := by
  obtain ⟨r, row, e, entry, named⟩ := inside
  obtain ⟨d, named', isRaw⟩ := raws r row e entry
  rw [named] at named'
  cases named'
  exact isRaw

def tracedNew : World (List Block × List Cid) :=
  (new DagCbor.codec (traced sampleConfig) sampleParams (newHead ([], []) sampleParams)).2

def tracedApplied : World (List Block × List Cid) :=
  ((Call.applyRefs [] 9).perform DagCbor.codec (traced sampleConfig) tracedNew).2

end Rewind

end Bloar.Pinning
