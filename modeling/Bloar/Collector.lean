import Bloar.Vault

/-!
The online collector never deletes a live block. Whatever is live while it runs is
either under the pins of its cut, which a completed mark has all marked, or has been
found or written by an application since, which the running epoch protects.
-/

namespace Bloar.Pinning
open Ipld Archive Store

/-! ### The mark -/

namespace Marking
variable {setup : Setup} {m m' : Marking} {s s' : Epochs} {env : Weather} {c d : Cid}

def Visited (m : Marking) (c : Cid) : Prop :=
  c ∈ m.expanded ∨ c.codec = raw ∧ c.hash ∈ m.marked

inductive Effect (ipld : Codec) (m : Marking) : Marking → Prop where
  | queues {p : Pin} {rest : List Pin} (next : m.pins = p :: rest) (deep : p.recursive = true) :
      Effect ipld m { m with pins := rest, frontier := p.cid :: m.frontier }
  | retains {p : Pin} {rest : List Pin} (next : m.pins = p :: rest) (direct : p.recursive = false) :
      Effect ipld m { m with pins := rest, marked := insert p.cid.hash m.marked }
  | skips {c : Cid} {rest : List Cid} (none : m.pins = []) (next : m.frontier = c :: rest)
      (visited : m.Visited c) : Effect ipld m { m with frontier := rest }
  | leaf {c : Cid} {rest : List Cid} (none : m.pins = []) (next : m.frontier = c :: rest)
      (leaf : c.codec = raw) (fresh : c.hash ∉ m.marked) :
      Effect ipld m { m with frontier := rest, marked := insert c.hash m.marked }
  | expands {c : Cid} {rest : List Cid} {data : Block} {node : Node} (none : m.pins = [])
      (next : m.frontier = c :: rest) (inner : c.codec = dagCBOR) (fresh : c ∉ m.expanded)
      (verified : ipld.Verifies c data) (decoded : ipld.decode data = some node) :
      Effect ipld m { m with frontier := node.links.reverse ++ rest
                             marked := insert c.hash m.marked, expanded := insert c m.expanded }
  | enters {group : HeadMark} {rest : List HeadMark} (none : m.pins = []) (empty : m.frontier = [])
      (next : m.groups = group :: rest) :
      Effect ipld m { m with groups := rest, pins := group.pins, followed := group.followed }

theorem readForMark_verifies {followed : Bool} {data : Block}
    (read : readForMark setup s c followed env = (some data, s')) : setup.ipld.Verifies c data := by
  unfold readForMark at read
  split at read
  · cases read
  · split at read
    · split at read
      · rename_i verified
        cases read
        exact verified
      · cases read
    · split at read
      · split at read
        · rename_i verified
          cases read
          exact verified
        · cases read
      · cases read

theorem linksForMark_some {followed : Bool} {kids : List Cid}
    (read : linksForMark setup s c followed env = (some kids, s')) :
    c.codec = dagCBOR ∧ ∃ data node, readForMark setup s c followed env = (some data, s') ∧
      setup.ipld.decode data = some node ∧ kids = node.links := by
  unfold linksForMark at read
  split at read
  · cases read
  · rename_i inner
    split at read
    · cases read
    · rename_i data s₁ got
      simp only [Prod.mk.injEq, Option.map_eq_some_iff] at read
      obtain ⟨⟨node, decoded, same⟩, rfl⟩ := read
      exact ⟨not_not.mp inner, data, node, got, decoded, same.symm⟩

/-- Content addressing leaves no choice of the block, so its links are the CID's. -/
theorem linksTo_iff {ipld : Codec} {data : Block} {node : Node} (inner : c.codec = dagCBOR)
    (verified : ipld.Verifies c data) (decoded : ipld.decode data = some node) :
    ipld.LinksTo c d ↔ d ∈ node.links := by
  constructor
  · rintro ⟨-, other, node', verified', decoded', inside⟩
    have same := verified'.unique verified
    subst same
    rw [decoded'] at decoded
    cases decoded
    exact inside
  · intro inside
    exact ⟨inner, data, node, verified, decoded, inside⟩

theorem step_effect (stepped : m.step setup s env = (.more m', s')) : m.Effect setup.ipld m' := by
  unfold step at stepped
  split at stepped
  · rename_i p rest next
    split at stepped
    · rename_i deep
      cases stepped
      exact .queues next deep
    · rename_i direct
      split at stepped
      · cases stepped
        exact .retains next (by simpa using direct)
      · cases stepped
  · rename_i noPins
    split at stepped
    · rename_i c rest next
      split at stepped
      · rename_i leaf
        split at stepped
        · rename_i visited
          cases stepped
          exact .skips noPins next (.inr ⟨leaf, visited⟩)
        · rename_i fresh
          split at stepped
          · cases stepped
            exact .leaf noPins next leaf fresh
          · cases stepped
      · split at stepped
        · rename_i visited
          cases stepped
          exact .skips noPins next (.inl visited)
        · rename_i fresh
          split at stepped
          · rename_i kids s₁ read
            obtain ⟨inner, data, node, got, decoded, rfl⟩ := linksForMark_some read
            cases stepped
            exact .expands noPins next inner fresh (readForMark_verifies got) decoded
          · cases stepped
    · rename_i empty
      split at stepped
      · rename_i group rest next
        cases stepped
        exact .enters noPins empty next
      · cases stepped

theorem step_done {marked : Finset Multihash} (stepped : m.step setup s env = (.done marked, s')) :
    m.groups = [] ∧ m.pins = [] ∧ m.frontier = [] ∧ marked = m.marked := by
  unfold step at stepped
  split at stepped
  · split at stepped
    · cases stepped
    · split at stepped <;> cases stepped
  · rename_i noPins
    split at stepped
    · split at stepped
      · split at stepped
        · cases stepped
        · split at stepped <;> cases stepped
      · split at stepped
        · cases stepped
        · split at stepped <;> cases stepped
    · rename_i noFrontier
      split at stepped
      · cases stepped
      · rename_i noGroups
        cases stepped
        exact ⟨noGroups, noPins, noFrontier, rfl⟩

/-- A mark that has not lost anything under the pins it started from. -/
structure Sound (ipld : Codec) (snapshot : List Pin) (m : Marking) : Prop where
  expanded : ∀ c ∈ m.expanded, c.hash ∈ m.marked
  closed : ∀ c ∈ m.expanded, ∀ d, ipld.LinksTo c d → m.Visited d ∨ d ∈ m.frontier
  pinned : ∀ p ∈ snapshot, (p ∈ m.pins ∨ ∃ g ∈ m.groups, p ∈ g.pins) ∨
    if p.recursive then m.Visited p.cid ∨ p.cid ∈ m.frontier else p.cid.hash ∈ m.marked

section Keeps
variable {ipld : Codec} {snapshot : List Pin}

theorem start_sound (groups : List HeadMark) :
    (start groups).Sound ipld (groups.flatMap HeadMark.pins) := by
  refine ⟨by simp [start], by simp [start], fun p member => .inl (.inr ?_)⟩
  exact List.mem_flatMap.mp member

theorem Visited.mono (visited : m.Visited c) (expanded : m.expanded ⊆ m'.expanded)
    (marked : m.marked ⊆ m'.marked) : m'.Visited c :=
  visited.imp (fun member => expanded member) fun leaf => ⟨leaf.1, marked leaf.2⟩

variable (effect : m.Effect ipld m')
include effect

theorem Effect.frontier (waiting : c ∈ m.frontier) : m'.Visited c ∨ c ∈ m'.frontier := by
  cases effect with
  | queues => exact .inr (List.mem_cons_of_mem _ waiting)
  | retains | enters => exact .inr waiting
  | skips none next visited =>
    rcases List.mem_cons.mp (next ▸ waiting) with rfl | later
    · exact .inl visited
    · exact .inr later
  | leaf none next isRaw =>
    rcases List.mem_cons.mp (next ▸ waiting) with rfl | later
    · exact .inl (.inr ⟨isRaw, Finset.mem_insert_self _ _⟩)
    · exact .inr later
  | expands none next =>
    rcases List.mem_cons.mp (next ▸ waiting) with rfl | later
    · exact .inl (.inl (Finset.mem_insert_self _ _))
    · exact .inr (List.mem_append_right _ later)

theorem Effect.grows : m.expanded ⊆ m'.expanded ∧ m.marked ⊆ m'.marked := by
  cases effect with
  | queues | skips | enters => exact ⟨Finset.Subset.refl _, Finset.Subset.refl _⟩
  | retains | leaf => exact ⟨Finset.Subset.refl _, Finset.subset_insert _ _⟩
  | expands => exact ⟨Finset.subset_insert _ _, Finset.subset_insert _ _⟩

theorem Effect.keeps (settled : m.Visited c ∨ c ∈ m.frontier) : m'.Visited c ∨ c ∈ m'.frontier := by
  rcases settled with visited | waiting
  · exact .inl (visited.mono effect.grows.1 effect.grows.2)
  · exact effect.frontier waiting

theorem Effect.pending {p : Pin} (waiting : p ∈ m.pins ∨ ∃ g ∈ m.groups, p ∈ g.pins) :
    (p ∈ m'.pins ∨ ∃ g ∈ m'.groups, p ∈ g.pins) ∨
      if p.recursive then m'.Visited p.cid ∨ p.cid ∈ m'.frontier else p.cid.hash ∈ m'.marked := by
  cases effect with
  | queues next deep =>
    rcases waiting with inside | later
    · rcases List.mem_cons.mp (next ▸ inside) with rfl | rest
      · right
        rw [if_pos deep]
        exact .inr (List.mem_cons_self ..)
      · exact .inl (.inl rest)
    · exact .inl (.inr later)
  | retains next direct =>
    rcases waiting with inside | later
    · rcases List.mem_cons.mp (next ▸ inside) with rfl | rest
      · right
        rw [if_neg (by simp [direct])]
        exact Finset.mem_insert_self _ _
      · exact .inl (.inl rest)
    · exact .inl (.inr later)
  | skips | leaf | expands => exact .inl waiting
  | enters none empty next =>
    rcases waiting with inside | ⟨g, member, inside⟩
    · rw [none] at inside
      cases inside
    · rcases List.mem_cons.mp (next ▸ member) with rfl | rest
      · exact .inl (.inl inside)
      · exact .inl (.inr ⟨g, rest, inside⟩)

theorem Effect.closed
    (closed : ∀ c ∈ m.expanded, ∀ d, ipld.LinksTo c d → m.Visited d ∨ d ∈ m.frontier) :
    ∀ c ∈ m'.expanded, ∀ d, ipld.LinksTo c d → m'.Visited d ∨ d ∈ m'.frontier := by
  intro c member d link
  have old (inside : c ∈ m.expanded) := effect.keeps (closed c inside d link)
  cases effect with
  | expands none next inner fresh verified decoded =>
    rcases Finset.mem_insert.mp member with rfl | inside
    · have kid := (linksTo_iff inner verified decoded).mp link
      exact .inr (List.mem_append_left _ (List.mem_reverse.mpr kid))
    · exact old inside
  | _ => exact old member

omit effect

theorem Sound.step (sound : m.Sound ipld snapshot) (effect : m.Effect ipld m') :
    m'.Sound ipld snapshot := by
  refine ⟨fun c member => ?_, effect.closed sound.closed, fun p member => ?_⟩
  · have old (inside : c ∈ m.expanded) := effect.grows.2 (sound.expanded c inside)
    cases effect with
    | expands =>
      rcases Finset.mem_insert.mp member with rfl | inside
      · exact Finset.mem_insert_self _ _
      · exact old inside
    | _ => exact old member
  · rcases sound.pinned p member with waiting | settled
    · exact effect.pending waiting
    · right
      by_cases deep : p.recursive = true
      · rw [if_pos deep] at settled ⊢
        exact effect.keeps settled
      · rw [if_neg deep] at settled ⊢
        exact effect.grows.2 settled

theorem Sound.complete (sound : m.Sound ipld snapshot) (noGroups : m.groups = [])
    (noPins : m.pins = []) (noFrontier : m.frontier = []) (retained : Retained ipld snapshot c) :
    c.hash ∈ m.marked := by
  have visited_marked {d : Cid} (visited : m.Visited d) : d.hash ∈ m.marked :=
    visited.elim (sound.expanded d) And.right
  -- What is visited is closed under links: a raw block has none.
  have closed {a b : Cid} (visited : m.Visited a) (link : ipld.LinksTo a b) : m.Visited b := by
    rcases visited with expanded | ⟨leaf, -⟩
    · exact (sound.closed a expanded b link).resolve_right (by simp [noFrontier])
    · have codec := link.1
      rw [leaf] at codec
      cases codec
  obtain ⟨p, member, covers⟩ := retained
  have settled := (sound.pinned p member).resolve_left (by simp [noGroups, noPins])
  unfold Pin.Covers at covers
  split at settled
  · rename_i deep
    rw [if_pos deep] at covers
    have top := settled.resolve_right (by simp [noFrontier])
    refine visited_marked ?_
    induction covers with
    | refl => exact top
    | tail _ link ih => exact closed ih link
  · rename_i direct
    rw [if_neg direct] at covers
    rw [covers]
    exact settled

end Keeps

theorem readForMark_grows (setup : Setup) (s : Epochs) (c : Cid) (followed : Bool) (env : Weather) :
    s.Grows (readForMark setup s c followed env).2 := by
  unfold readForMark
  split
  · exact .refl s
  · split
    · split <;> exact .refl s
    · split
      · split
        · exact Op.grows s (.put c _ none) trivial
        · exact .refl s
      · exact .refl s

theorem retainForMark_grows (setup : Setup) (s : Epochs) (c : Cid) (followed : Bool)
    (env : Weather) : s.Grows (retainForMark setup s c followed env).2 := by
  unfold retainForMark
  split
  · exact readForMark_grows setup s c followed env
  · split
    · exact .refl s
    · split
      · exact .refl s
      · split
        · split
          · exact Op.grows s (.put c _ none) trivial
          · exact .refl s
        · exact .refl s

theorem linksForMark_grows (setup : Setup) (s : Epochs) (c : Cid) (followed : Bool)
    (env : Weather) : s.Grows (linksForMark setup s c followed env).2 := by
  have read := readForMark_grows setup s c followed env
  unfold linksForMark
  split
  · exact .refl s
  · split <;> (rename_i got; rwa [got] at read)

theorem step_grows (setup : Setup) (m : Marking) (s : Epochs) (env : Weather) :
    s.Grows (m.step setup s env).2 := by
  have retain (c : Cid) := retainForMark_grows setup s c m.followed env
  have links (c : Cid) := linksForMark_grows setup s c m.followed env
  unfold step
  split
  · rename_i p _ _
    split
    · exact .refl s
    · have kept := retain p.cid
      split <;> (rename_i got; rwa [got] at kept)
  · split
    · rename_i c _ _
      have kept := retain c
      have read := links c
      split
      · split
        · exact .refl s
        · split <;> (rename_i got; rwa [got] at kept)
      · split
        · exact .refl s
        · split <;> (rename_i got; rwa [got] at read)
    · split <;> exact .refl s

theorem stepped_grows {result : MarkResult} (stepped : m.step setup s env = (result, s')) :
    s.Grows s' := by
  have grows := step_grows setup m s env
  rwa [stepped] at grows

end Marking

/-! ### The node -/

namespace Vault
variable {setup : Setup} {v v' : Vault} {key : Multihash}

/-- What a collection must not delete, staging rows that have expired included. -/
def Held (ipld : Codec) (v : Vault) (key : Multihash) : Prop :=
  (∃ name, Kept ipld (v.heads name) key) ∨ ∃ c, (v.staging c).isSome ∧ c.hash = key

theorem Live.held {ipld : Codec} (live : v.Live ipld key) : v.Held ipld key := by
  rcases live with kept | ⟨c, expiry, row, -, same⟩
  · exact .inl kept
  · exact .inr ⟨c, by simp [row], same⟩

structure Inv (setup : Setup) (v : Vault) : Prop where
  used : ∀ e ∈ v.epochs.active, ∀ key, v.used key → key ∈ e.touched
  running : v.collector ≠ .idle → v.epochs.active.isSome
  marking : ∀ serial m, v.collector = .marking serial m → ∃ snapshot,
    m.Sound setup.ipld snapshot ∧ ∀ key, v.Held setup.ipld key →
      v.used key ∨ ∃ c, Retained setup.ipld snapshot c ∧ c.hash = key
  sweeping : ∀ serial marked, v.collector = .sweeping serial marked →
    ∀ key, v.Held setup.ipld key → v.used key ∨ key ∈ marked

/-- Steps that keep the collector where it is: the store grows, and what is newly held
has been used. -/
structure Widens (ipld : Codec) (v v' : Vault) : Prop where
  store : v.epochs.Grows v'.epochs
  collector : v'.collector = v.collector
  used : ∀ key, v.used key → v'.used key
  guards : ∀ e ∈ v'.epochs.active, ∀ key, v'.used key → ¬ v.used key → key ∈ e.touched
  held : v.epochs.active.isSome → ∀ key, v'.Held ipld key → v.Held ipld key ∨ v'.used key

theorem Widens.refl (ipld : Codec) (v : Vault) : Widens ipld v v :=
  ⟨.refl _, rfl, fun _ used => used, fun _ _ _ used unused => absurd used unused,
    fun _ _ held => .inl held⟩

theorem Widens.trans {ipld : Codec} {u : Vault} (first : Widens ipld v v')
    (second : Widens ipld v' u) : Widens ipld v u := by
  refine ⟨first.store.trans second.store, second.collector.trans first.collector,
    fun key used => second.used key (first.used key used), fun e active key used unused => ?_,
    fun running key held => ?_⟩
  · by_cases between : v'.used key
    · obtain ⟨e', active', sub⟩ := second.store.guards e active
      exact sub (first.guards e' active' key between unused)
    · exact second.guards e active key used between
  · have running' : v'.epochs.active.isSome := by rw [first.store.running]; exact running
    rcases second.held running' key held with earlier | used
    · rcases first.held running key earlier with oldest | used
      · exact .inl oldest
      · exact .inr (second.used key used)
    · exact .inr used

theorem Inv.widens (inv : v.Inv setup) (widens : Widens setup.ipld v v') : v'.Inv setup := by
  have held (running : v.collector ≠ .idle) := widens.held (inv.running running)
  refine ⟨fun e active key used => ?_, fun running => ?_, fun serial m marking => ?_,
    fun serial marked sweeping key live => ?_⟩
  · by_cases old : v.used key
    · obtain ⟨e', active', sub⟩ := widens.store.guards e active
      exact sub (inv.used e' active' key old)
    · exact widens.guards e active key used old
  · rw [widens.store.running]
    exact inv.running (widens.collector ▸ running)
  · rw [widens.collector] at marking
    obtain ⟨snapshot, sound, covered⟩ := inv.marking serial m marking
    refine ⟨snapshot, sound, fun key live => ?_⟩
    rcases held (by simp [marking]) key live with old | used
    · exact (covered key old).imp (widens.used key) id
    · exact .inl used
  · rw [widens.collector] at sweeping
    rcases held (by simp [sweeping]) key live with old | used
    · exact (inv.sweeping serial marked sweeping key old).imp (widens.used key) id
    · exact .inl used

/-! ### Applications -/

theorem serve_widens (ipld : Codec) (v : Vault) {op : Op} (app : op.OfApplication) :
    Widens ipld v (v.serve op) := by
  refine ⟨Op.grows v.epochs op app, rfl, fun _ => .inl, fun e active key used unused => ?_,
    fun _ _ held => .inl held⟩
  obtain ⟨c, rfl, shows⟩ := used.resolve_left unused
  exact shows.safe.touched e active

theorem serveAll_widens (ipld : Codec) (v : Vault) {ops : List Op}
    (app : ∀ op ∈ ops, op.OfApplication) : Widens ipld v (v.serveAll ops) := by
  induction ops generalizing v with
  | nil => exact .refl ipld v
  | cons op rest ih =>
    rw [List.forall_mem_cons] at app
    exact (serve_widens ipld v app.1).trans (ih (v.serve op) app.2)

theorem putBlocks_widens (setup : Setup) (blobs : List PutBlob) (v : Vault) :
    Widens setup.ipld v (putBlocks setup blobs v).2 ∧
      ((putBlocks setup blobs v).1 = true → ∀ b ∈ blobs,
        (putBlocks setup blobs v).2.used (setup.ipld.sum raw b.data).hash) := by
  induction blobs generalizing v with
  | nil => exact ⟨.refl _ v, by simp⟩
  | cons b rest ih =>
    let op := Op.put (setup.ipld.sum raw b.data) b.data b.fails
    have first : Widens setup.ipld v (v.serve op) := serve_widens setup.ipld v trivial
    unfold putBlocks
    by_cases stored : (b.fails.isNone && b.catalogued) = true
    · obtain ⟨widens, used⟩ := ih (v.serve op)
      simp only [stored, if_true]
      refine ⟨first.trans widens, fun all => ?_⟩
      rw [List.forall_mem_cons]
      refine ⟨widens.used _ (.inr ⟨_, rfl, rfl, ?_⟩), used all⟩
      rw [Bool.and_eq_true, Option.isNone_iff_eq_none] at stored
      change (v.epochs.put (setup.ipld.sum raw b.data) b.data b.fails).1 = .done
      rw [stored.1]
      rfl
    · simp only [stored, Bool.false_eq_true, if_false]
      exact ⟨first, by simp⟩

theorem putBlobs_widens (setup : Setup) (v : Vault) (blobs : List PutBlob) (pinned : Bool) :
    Widens setup.ipld v (v.putBlobs setup blobs pinned).2 := by
  obtain ⟨widens, used⟩ := putBlocks_widens setup blobs v
  unfold putBlobs
  rcases stored : putBlocks setup blobs v with ⟨ok, after⟩
  rw [stored] at widens used
  cases ok with
  | false => exact widens
  | true =>
    dsimp only
    split
    · exact widens
    · split
      · -- The rows that are staged are those of blocks just written.
        refine widens.trans ⟨.refl _, rfl, fun _ used => used,
          fun _ _ _ used unused => absurd used unused, fun _ key held => ?_⟩
        rcases held with kept | ⟨c, row, rfl⟩
        · exact .inl (.inl kept)
        · by_cases member : c ∈ blobs.map fun b => setup.ipld.sum raw b.data
          · obtain ⟨b, inside, rfl⟩ := List.mem_map.mp member
            exact .inr (used rfl b inside)
          · simp only [stage, if_neg member] at row
            exact .inl (.inr ⟨c, row, rfl⟩)
      · exact widens

theorem setHead_widens {ipld : Codec} {name : String} {r : Option Registration}
    (may : v.MayRetarget ipld name r) : Widens ipld v (v.setHead name r) := by
  refine ⟨.refl _, rfl, fun _ used => used, fun _ _ _ used unused => absurd used unused,
    fun running key held => ?_⟩
  rcases held with ⟨other, kept⟩ | row
  · by_cases same : other = name
    · subst same
      simp only [setHead, Function.update_self] at kept
      exact (may running key kept).imp (fun kept => .inl ⟨other, kept⟩) id
    · simp only [setHead, Function.update_of_ne same] at kept
      exact .inl (.inl ⟨other, kept⟩)
  · exact .inl (.inr row)

theorem rows_widens {ipld : Codec} {staging : Cid → Option (Option Nat)}
    (fewer : ∀ c, (staging c).isSome → (v.staging c).isSome) :
    Widens ipld v { v with staging } := by
  refine ⟨.refl _, rfl, fun _ used => used, fun _ _ _ used unused => absurd used unused,
    fun _ key held => .inl ?_⟩
  rcases held with kept | ⟨c, row, rfl⟩
  · exact .inl kept
  · exact .inr ⟨c, fewer c row, rfl⟩

end Vault

/-! ### The collector -/

open Vault (groupsOf)

variable {r : Registration} {pins : List Pin} {names : List String}
  {heads : String → Option Registration} {entries : String → List Pin} {staged : List Cid}

theorem Registration.Wants.unique {ipld : Codec} {pins' : List Pin} (first : r.Wants ipld pins)
    (second : r.Wants ipld pins') : pins = pins' := by
  unfold Registration.Wants at first second
  by_cases gone : r.withdrawn = true
  · rw [if_pos gone] at first second
    rw [first, second]
  · rw [if_neg gone] at first second
    obtain ⟨h, es, isHead, admissible, made⟩ := first
    obtain ⟨h', es', isHead', admissible', made'⟩ := second
    rw [isHead'.unique isHead] at admissible' made'
    rw [admissible'.unique admissible, made] at made'
    exact Except.ok.inj made'

theorem Registration.Wants.consistent {ipld : Codec} (wants : r.Wants ipld pins) :
    Consistent pins := by
  unfold Registration.Wants at wants
  split at wants
  · subst wants
    intro p member
    cases member
  · obtain ⟨h, es, -, -, made⟩ := wants
    exact wanted_consistent made

theorem mem_groupsOf {name : String} {p : Pin} (registered : heads name = some r)
    (listed : name ∈ names) (member : p ∈ entries name) :
    p ∈ (groupsOf names heads entries staged).flatMap HeadMark.pins := by
  refine List.mem_flatMap.mpr ⟨⟨name, r.followed, entries name⟩, ?_, member⟩
  have made : (⟨name, r.followed, entries name⟩ : HeadMark) ∈ names.filterMap fun name =>
      (heads name).map fun r => (⟨name, r.followed, entries name⟩ : HeadMark) :=
    List.mem_filterMap.mpr ⟨name, listed, by rw [registered]; rfl⟩
  simp only [groupsOf, List.mem_append, List.mem_filter]
  cases followed : r.followed with
  | true => exact .inl (.inr ⟨followed ▸ made, rfl⟩)
  | false => exact .inl (.inl ⟨followed ▸ made, rfl⟩)

theorem mem_groupsOf_staged {c : Cid} (member : c ∈ staged) :
    (⟨.other "staging", c, false⟩ : Pin) ∈
      (groupsOf names heads entries staged).flatMap HeadMark.pins := by
  refine List.mem_flatMap.mpr ⟨_, List.mem_append_right _ (List.mem_singleton_self _), ?_⟩
  exact List.mem_map_of_mem member

theorem Cut.covered {setup : Setup} {v : Vault} {key : Multihash} (cut : Cut setup v)
    (held : cut.after.Held setup.ipld key) :
    ∃ c, Retained setup.ipld ((groupsOf cut.names cut.after.heads cut.entries cut.staged).flatMap
      HeadMark.pins) c ∧ c.hash = key := by
  rcases held with ⟨name, r, pins, c, registered, wants, ⟨p, member, covers⟩, rfl⟩ | ⟨c, row, rfl⟩
  · obtain ⟨before, -⟩ := Option.filter_eq_some_iff.mp registered
    have here : (v.heads name).isSome := by simp [before]
    obtain ⟨wanted, lists⟩ := cut.passes name r before
    rw [wants.unique wanted] at member
    have passed := lists.pass wanted.consistent p member
    have listed := ((cut.listed name here).mem p).mpr passed
    exact ⟨c, ⟨p, mem_groupsOf registered ((cut.registered name).mpr here) listed, covers⟩, rfl⟩
  · exact ⟨c, ⟨_, mem_groupsOf_staged ((cut.staged_iff c).mpr row), rfl⟩, rfl⟩

namespace Vault
variable {setup : Setup} {v v' : Vault} {key : Multihash}

theorem Inv.cut (cut : Cut setup v) (quiet : v.epochs.active = none) : cut.after.Inv setup := by
  refine ⟨fun _ _ _ used => used.elim, fun _ => ?_, fun serial m marking => ?_,
    fun serial marked sweeping => by cases sweeping⟩
  · simp [Cut.after, Epochs.beginEpoch, quiet]
  · cases marking
    exact ⟨_, Marking.start_sound _, fun key held => .inr (cut.covered held)⟩

theorem Inv.mark (inv : v.Inv setup) {serial : Nat} {m m' : Marking} {env : Weather} {s : Epochs}
    (marking : v.collector = .marking serial m)
    (stepped : m.step setup v.epochs env = (.more m', s)) :
    Inv setup { v with epochs := s, collector := .marking serial m' } := by
  have grows := Marking.stepped_grows stepped
  obtain ⟨snapshot, sound, covered⟩ := inv.marking serial m marking
  refine ⟨fun e active key used => ?_, fun _ => ?_, fun serial' m'' again => ?_,
    fun serial' marked sweeping => by cases sweeping⟩
  · obtain ⟨e', active', sub⟩ := grows.guards e active
    exact sub (inv.used e' active' key used)
  · exact grows.running.trans (inv.running (by simp [marking]))
  · cases again
    exact ⟨snapshot, sound.step (Marking.step_effect stepped), covered⟩

theorem Inv.marked (inv : v.Inv setup) {serial : Nat} {m : Marking} {env : Weather} {s : Epochs}
    {marked : Finset Multihash} (marking : v.collector = .marking serial m)
    (stepped : m.step setup v.epochs env = (.done marked, s)) :
    Inv setup { v with epochs := s, collector := .sweeping serial marked } := by
  have grows := Marking.stepped_grows stepped
  obtain ⟨snapshot, sound, covered⟩ := inv.marking serial m marking
  obtain ⟨noGroups, noPins, noFrontier, rfl⟩ := Marking.step_done stepped
  refine ⟨fun e active key used => ?_, fun _ => ?_, fun serial' m'' again => (by cases again),
    fun serial' marked sweeping key held => ?_⟩
  · obtain ⟨e', active', sub⟩ := grows.guards e active
    exact sub (inv.used e' active' key used)
  · exact grows.running.trans (inv.running (by simp [marking]))
  · cases sweeping
    rcases covered key held with used | ⟨c, retained, rfl⟩
    · exact .inl used
    · exact .inr (sound.complete noGroups noPins noFrontier retained)

theorem Inv.stopped (inv : v.Inv setup) {s : Epochs} (grows : v.epochs.Grows s) (serial : Nat) :
    Inv setup { v with epochs := (s.endEpoch serial).2, collector := .idle } := by
  refine ⟨fun e active key used => ?_, fun running => absurd rfl running,
    fun serial m marking => (by cases marking), fun serial marked sweeping => (by cases sweeping)⟩
  have active' : e ∈ s.active := by
    simp only [Epochs.endEpoch] at active
    split at active
    · split at active
      · cases active
      · exact active
    · exact active
  obtain ⟨e', found, sub⟩ := grows.guards e active'
  exact sub (inv.used e' found key used)

theorem deleteCandidate_cases (s : Epochs) (serial : Nat) (c : Cid) (fails : Option Bool) :
    (s.deleteCandidate serial c fails).2 = s ∨
      ∃ e, s.active = some e ∧ c.hash ∉ e.touched ∧
        (s.deleteCandidate serial c fails).2 = s.erase c.hash := by
  unfold Epochs.deleteCandidate
  split
  · exact .inl rfl
  · rename_i e active
    split
    · exact .inl rfl
    · split
      · exact .inl rfl
      · rename_i free
        cases fails with
        | none => exact .inr ⟨e, active, free, rfl⟩
        | some removed =>
          cases removed with
          | true => exact .inr ⟨e, active, free, rfl⟩
          | false => exact .inl rfl

theorem Inv.sweep (inv : v.Inv setup) {serial : Nat} (c : Cid) (fails : Option Bool) :
    Inv setup { v with epochs := (v.epochs.deleteCandidate serial c fails).2 } := by
  have same : (v.epochs.deleteCandidate serial c fails).2.active = v.epochs.active := by
    rcases deleteCandidate_cases v.epochs serial c fails with stays | ⟨e, -, -, gone⟩
    · rw [stays]
    · rw [gone]
      rfl
  exact ⟨fun e active => inv.used e (same ▸ active), fun running => same ▸ inv.running running,
    inv.marking, inv.sweeping⟩

theorem Inv.work (inv : v.Inv setup) (work : v.Work setup v') : v'.Inv setup := by
  cases work with
  | serve op app => exact inv.widens (serve_widens _ v app)
  | retarget name r ops app may =>
    exact inv.widens ((serveAll_widens _ v app).trans (setHead_widens may))
  | reconcile | tick => exact ⟨inv.used, inv.running, inv.marking, inv.sweeping⟩
  | expire =>
    refine inv.widens (rows_widens fun c row => ?_)
    obtain ⟨expiry, found⟩ := Option.isSome_iff_exists.mp row
    simp [(Option.filter_eq_some_iff.mp found).1]
  | cut idle quiet cut => exact Inv.cut cut quiet
  | mark env marking stepped => exact inv.mark marking stepped
  | marked env marking stepped => exact inv.marked marking stepped
  | unmarked env marking => exact inv.stopped (Marking.step_grows setup _ _ env) _
  | sweep c fails => exact inv.sweep c fails
  | finish => exact inv.stopped (.refl _) _

theorem Inv.step (inv : v.Inv setup) (step : v.Step setup v') : v'.Inv setup := by
  cases step with
  | work work => exact inv.work work
  | putBlobs blobs pinned => exact inv.widens (putBlobs_widens setup v blobs pinned)
  | drop cids =>
    refine inv.widens (rows_widens fun c row => ?_)
    split at row
    · cases row
    · exact row

theorem Reached.inv (reached : v.Reached setup) : v.Inv setup := by
  induction reached with
  | start idle quiet =>
    exact ⟨fun e active => (by simp [quiet] at active), fun running => absurd idle running,
      fun serial m marking => (by simp [idle] at marking),
      fun serial marked sweeping => (by simp [idle] at sweeping)⟩
  | step _ step ih => exact ih.step step

end Vault

/-! ### Collections that go through -/

def Vault.Steps (setup : Setup) : Vault → Vault → Prop := Relation.ReflTransGen (Vault.Work setup)

def calmWeather : Weather := ⟨false, none⟩

def Pin.Ready (ipld : Codec) (s : Epochs) (p : Pin) : Prop :=
  p.recursive = false ∧ ∃ data ∈ s.blocks p.cid.hash, ipld.Verifies p.cid data

instance (ipld : Codec) (s : Epochs) (p : Pin) : Decidable (p.Ready ipld s) :=
  inferInstanceAs (Decidable (_ ∧ _))

section Through
variable {setup : Setup} {v v' : Vault}

theorem Vault.Reached.steps (reached : v.Reached setup) (steps : v.Steps setup v') :
    v'.Reached setup := by
  induction steps with
  | refl => exact reached
  | tail _ work ih => exact .step ih (.work work)

theorem Pin.Ready.retain {s : Epochs} {p : Pin} (ready : p.Ready setup.ipld s) (followed : Bool) :
    retainForMark setup s p.cid followed calmWeather = (true, s) := by
  obtain ⟨-, data, found, verified⟩ := ready
  rw [Option.mem_def] at found
  have read : readForMark setup s p.cid followed calmWeather = (some data, s) := by
    simp [readForMark, calmWeather, found, verified]
  unfold retainForMark
  rw [read]
  split
  · rfl
  · simp [calmWeather, found]

theorem mark_pins (setup : Setup) (pins : List Pin) (v : Vault) (serial : Nat) (m : Marking)
    (none : m.frontier = []) (ready : ∀ p ∈ pins, p.Ready setup.ipld v.epochs) :
    ∃ marked, (∀ key ∈ marked, key ∈ m.marked ∨ ∃ p ∈ pins, p.cid.hash = key) ∧
      Vault.Steps setup { v with collector := .marking serial { m with pins } }
        { v with collector := .marking serial { m with pins := [], marked } } := by
  induction pins generalizing m with
  | nil => exact ⟨m.marked, fun _ member => .inl member, .refl⟩
  | cons p rest ih =>
    rw [List.forall_mem_cons] at ready
    obtain ⟨marked, only, steps⟩ := ih { m with marked := insert p.cid.hash m.marked } none ready.2
    refine ⟨marked, fun key member => ?_, .head (.mark calmWeather rfl ?_) steps⟩
    · rcases only key member with inside | ⟨q, later, same⟩
      · rcases Finset.mem_insert.mp inside with rfl | old
        · exact .inr ⟨p, List.mem_cons_self .., rfl⟩
        · exact .inl old
      · exact .inr ⟨q, List.mem_cons_of_mem _ later, same⟩
    · simp only [Marking.step, ready.1.1, Bool.false_eq_true, if_false, ready.1.retain]

theorem mark_groups (setup : Setup) (groups : List HeadMark) (v : Vault) (serial : Nat) (m : Marking)
    (noPins : m.pins = []) (none : m.frontier = [])
    (ready : ∀ g ∈ groups, ∀ p ∈ g.pins, p.Ready setup.ipld v.epochs) :
    ∃ marked, (∀ key ∈ marked, key ∈ m.marked ∨ ∃ g ∈ groups, ∃ p ∈ g.pins, p.cid.hash = key) ∧
      Vault.Steps setup { v with collector := .marking serial { m with groups } }
        { v with collector := .sweeping serial marked } := by
  induction groups generalizing m with
  | nil =>
    refine ⟨m.marked, fun _ member => .inl member, .single (.marked calmWeather rfl ?_)⟩
    simp [Marking.step, noPins, none]
  | cons g rest ih =>
    rw [List.forall_mem_cons] at ready
    obtain ⟨middle, only, marks⟩ := mark_pins setup g.pins v serial
      { m with groups := rest, followed := g.followed } none ready.1
    obtain ⟨marked, only', steps⟩ :=
      ih { m with followed := g.followed, pins := [], marked := middle } rfl none ready.2
    refine ⟨marked, fun key member => ?_, .head (.mark calmWeather rfl ?_) (.trans marks ?_)⟩
    · rcases only' key member with inside | ⟨g', later, found⟩
      · rcases only key inside with old | found
        · exact .inl old
        · exact .inr ⟨g, List.mem_cons_self .., found⟩
      · exact .inr ⟨g', List.mem_cons_of_mem _ later, found⟩
    · simp [Marking.step, noPins, none]
    · exact steps

/-- Over direct pins that are all there, a collection gets as far as its sweep and has not
marked what they do not name. -/
theorem Cut.sweeps (cut : Cut setup v) (idle : v.collector = .idle) (quiet : v.epochs.active = none)
    {groups : List HeadMark}
    (named : Vault.groupsOf cut.names cut.after.heads cut.entries cut.staged = groups)
    (ready : ∀ g ∈ groups, ∀ p ∈ g.pins, p.Ready setup.ipld cut.after.epochs) {c : Cid}
    (unpinned : ∀ g ∈ groups, ∀ p ∈ g.pins, p.cid.hash ≠ c.hash) :
    ∃ marked, c.hash ∉ marked ∧
      v.Steps setup { cut.after with collector := .sweeping v.epochs.begun marked } := by
  obtain ⟨marked, only, steps⟩ :=
    mark_groups setup groups cut.after v.epochs.begun (.start []) rfl rfl ready
  subst named
  refine ⟨marked, fun member => ?_, .head (.cut idle quiet cut) steps⟩
  rcases only _ member with old | ⟨g, inside, p, pinned, same⟩
  · simp [Marking.start] at old
  · exact unpinned g inside p pinned same

end Through

namespace Vault
variable {setup : Setup} {v v' : Vault} {key : Multihash}

theorem work_keeps_held (inv : v.Inv setup) (work : v.Work setup v')
    (held : v.Held setup.ipld key) (present : (v.epochs.blocks key).isSome) :
    (v'.epochs.blocks key).isSome := by
  cases work with
  | serve op app => exact (serve_widens setup.ipld v app).store.present key present
  | retarget name r ops app may =>
    exact (serveAll_widens setup.ipld v app).store.present key present
  | reconcile | tick | expire => exact present
  | cut idle quiet cut => simpa [Cut.after, Epochs.beginEpoch, quiet] using present
  | mark env marking stepped => exact (Marking.stepped_grows stepped).present key present
  | marked env marking stepped => exact (Marking.stepped_grows stepped).present key present
  | unmarked env marking =>
    dsimp only
    rw [Epochs.endEpoch_blocks]
    exact (Marking.step_grows setup _ v.epochs env).present key present
  | sweep c fails sweeping dead =>
    rcases deleteCandidate_cases v.epochs _ c fails with stays | ⟨e, active, free, gone⟩
    · dsimp only
      rw [stays]
      exact present
    · -- A held key is marked or protected, so it is not this one.
      have other : key ≠ c.hash := by
        rintro rfl
        rcases inv.sweeping _ _ sweeping _ held with used | marked
        · exact free (inv.used e active _ used)
        · exact dead marked
      rw [gone]
      simpa [Epochs.erase, Function.update_of_ne other] using present
  | finish sweeping =>
    dsimp only
    rw [Epochs.endEpoch_blocks]
    exact present

/-- No step of a node deletes a block that a registered head's current root retains, or
that an unexpired staging row names. -/
theorem step_keeps_live (reached : v.Reached setup) (step : v.Step setup v')
    (live : v.Live setup.ipld key) (present : (v.epochs.blocks key).isSome) :
    (v'.epochs.blocks key).isSome := by
  cases step with
  | work work => exact work_keeps_held reached.inv work live.held present
  | putBlobs blobs pinned => exact (putBlobs_widens setup v blobs pinned).store.present key present
  | drop cids => exact present

end Vault

/-! ### A collection with a staged blob -/

section Sample

def sampleSetup : Setup := ⟨DagCbor.codec, true, 2000000000⟩

def sampleVault : Vault :=
  { epochs := newEpochs (Function.update (fun _ => none) (DagCbor.codec.sum raw []).hash (some []))
    heads := fun _ => none
    ledger := fun _ _ => none
    staging := fun _ => none
    now := 0
    collector := .idle
    used := fun _ => False }

def sampleData : Block := [.byte 1]

def stagedVault : Vault := (sampleVault.putBlobs sampleSetup [⟨sampleData, none, true⟩] true).2

def stagedCut : Cut sampleSetup stagedVault where
  names := []
  registered := by
    intro name
    constructor
    · intro member
      cases member
    · intro found
      cases found
  wants := fun _ => []
  held := fun _ => []
  passes := by
    intro name r registered
    cases registered
  entries := fun _ => []
  listed := by
    intro name registered
    cases registered
  staged := [DagCbor.codec.sum raw sampleData]
  staged_iff := by
    intro c
    by_cases same : c = DagCbor.codec.sum raw sampleData
    · subst same
      exact ⟨fun _ => rfl, fun _ => List.mem_singleton_self _⟩
    · refine ⟨fun member => absurd (List.mem_singleton.mp member) same, fun row => ?_⟩
      change ((if c ∈ [DagCbor.codec.sum raw sampleData] then _ else none).filter _).isSome at row
      rw [if_neg (by simpa using same)] at row
      cases row

/-- The sweep deletes the block that nothing retains, and not the staged one. -/
theorem step_keeps_live_staged : ∃ v v' : Vault, v.Reached sampleSetup ∧ v.Step sampleSetup v' ∧
    v.Live DagCbor.codec (DagCbor.codec.sum raw sampleData).hash ∧
    v'.epochs.blocks (DagCbor.codec.sum raw []).hash = none ∧
    (v'.epochs.blocks (DagCbor.codec.sum raw sampleData).hash).isSome := by
  have staged : stagedVault.Reached sampleSetup := .step (.start rfl rfl) (.putBlobs _ _)
  obtain ⟨marked, dead, steps⟩ := stagedCut.sweeps rfl rfl rfl (c := DagCbor.codec.sum raw [])
    (by decide +kernel) (by decide +kernel)
  let v : Vault := { stagedCut.after with collector := .sweeping 0 marked }
  have reached : v.Reached sampleSetup := staged.steps steps
  have step : v.Step sampleSetup _ := .work (.sweep (DagCbor.codec.sum raw []) none rfl dead)
  have row : stagedCut.after.staging (DagCbor.codec.sum raw sampleData) = some (some 2) := by
    decide +kernel
  have fresh : ¬ Vault.Expired stagedCut.after.now (some 2) := by decide +kernel
  have live : v.Live DagCbor.codec (DagCbor.codec.sum raw sampleData).hash := by
    refine .inr ⟨DagCbor.codec.sum raw sampleData, some 2, ?_, fresh, rfl⟩
    dsimp only [v]
    exact row
  have gone : (stagedCut.after.epochs.deleteCandidate 0 (DagCbor.codec.sum raw []) none).2.blocks
      (DagCbor.codec.sum raw []).hash = none := by decide +kernel
  have stored : (stagedCut.after.epochs.blocks (DagCbor.codec.sum raw sampleData).hash).isSome := by
    decide +kernel
  exact ⟨v, _, reached, step, live, gone, Vault.step_keeps_live reached step live stored⟩

end Sample

end Bloar.Pinning
