import Bloar.Collector

/-!
What a mark finds. One that succeeds has marked exactly what the pins retain, in
whatever order the groups and the frontier are taken and however the store changes
between two iterations. One that owes a block which no read accepts cannot succeed; as
long as it is in the groups without a fetcher it asks for nothing, and nothing is
deleted.
-/

namespace Bloar.Pinning
open Ipld Archive Store

structure Round where
  store : Epochs
  env : Weather

namespace Marking

/-- The iterations of `mark`. Other parts of the node work between them. -/
def run (setup : Setup) : Marking → List Round → MarkResult
  | m, [] => .more m
  | m, round :: rest =>
    match (m.step setup round.store round.env).1 with
    | .more m' => run setup m' rest
    | .done marked => .done marked
    | .failed => .failed

def target (m : Marking) : Option Cid :=
  match m.pins with
  | p :: _ => if p.recursive then none else some p.cid
  | [] =>
    match m.frontier with
    | c :: _ =>
      if c.codec = raw then if c.hash ∈ m.marked then none else some c
      else if c ∈ m.expanded ∨ c.codec ≠ dagCBOR then none
      else some c
    | [] => none

def asks (m : Marking) (round : Round) : Option Cid :=
  if m.followed && !round.env.fails then
    m.target.filter fun c => (round.store.blocks c.hash).isNone
  else none

def fetches (setup : Setup) : Marking → List Round → List Cid
  | _, [] => []
  | m, round :: rest =>
    (m.asks round).toList ++
      match (m.step setup round.store round.env).1 with
      | .more m' => fetches setup m' rest
      | _ => []

end Marking

/-- No read of the mark accepts the block: it is absent, or it is corrupt and reads of
it are validated. -/
def Bad (setup : Setup) (s : Epochs) (c : Cid) : Prop :=
  ∀ data, s.blocks c.hash = some data →
    ¬ setup.ipld.Verifies c data ∧ (c.codec = raw → setup.separateScrub = false)

namespace Marking
variable {setup : Setup} {m m' : Marking} {s s' : Epochs} {env : Weather} {c d : Cid}
  {rounds : List Round} {followed : Bool}

/-! ### Runs -/

theorem asks_of_unfollowed {round : Round} (alone : m.followed = false) : m.asks round = none := by
  simp [asks, alone]

variable {marked : Finset Multihash}

variable {P : Marking → Prop}

theorem run_done (start : P m)
    (keeps : ∀ round ∈ rounds, ∀ m m' s', P m →
      m.step setup round.store round.env = (.more m', s') → P m')
    (ran : m.run setup rounds = .done marked) :
    ∃ last, P last ∧ last.groups = [] ∧ last.pins = [] ∧ last.frontier = [] ∧
      marked = last.marked := by
  induction rounds generalizing m with
  | nil => cases ran
  | cons round rest ih =>
    rw [List.forall_mem_cons] at keeps
    rcases stepped : m.step setup round.store round.env with ⟨result, s'⟩
    cases result with
    | more next =>
      simp only [run, stepped] at ran
      exact ih (keeps.1 m next s' start stepped) keeps.2 ran
    | done found =>
      simp only [run, stepped] at ran
      cases ran
      exact ⟨m, start, step_done stepped⟩
    | failed =>
      simp only [run, stepped] at ran
      cases ran

/-- A run that is long enough for a measure that every iteration lowers has ended. -/
theorem run_ends {w : Marking → Nat} (start : P m)
    (drops : ∀ round ∈ rounds, ∀ m m' s', P m →
      m.step setup round.store round.env = (.more m', s') → P m' ∧ w m' < w m)
    (long : w m < rounds.length) : m.run setup rounds ≠ .more m' := by
  induction rounds generalizing m with
  | nil => simp at long
  | cons round rest ih =>
    rw [List.forall_mem_cons] at drops
    rcases stepped : m.step setup round.store round.env with ⟨result, s'⟩
    cases result with
    | more next =>
      obtain ⟨kept, less⟩ := drops.1 m next s' start stepped
      simp only [run, stepped]
      refine ih kept drops.2 ?_
      rw [List.length_cons] at long
      omega
    | done | failed => simp [run, stepped]

theorem run_goes (start : P m)
    (keeps : ∀ round ∈ rounds, ∀ m m' s', P m →
      m.step setup round.store round.env = (.more m', s') → P m')
    (goes : ∀ round ∈ rounds, ∀ m, P m →
      (m.step setup round.store round.env).1 ≠ .failed ∧ m.asks round = none) :
    m.run setup rounds ≠ .failed ∧ m.fetches setup rounds = [] := by
  induction rounds generalizing m with
  | nil => simp [run, fetches]
  | cons round rest ih =>
    rw [List.forall_mem_cons] at keeps goes
    obtain ⟨goes', quiet⟩ := goes.1 m start
    rcases stepped : m.step setup round.store round.env with ⟨result, s'⟩
    rw [stepped] at goes'
    simp only [run, fetches, stepped, quiet]
    cases result with
    | more next => exact ih (keeps.1 m next s' start stepped) keeps.2 goes.2
    | done => simp
    | failed => exact absurd rfl goes'

/-! ### A mark marks nothing else -/

structure Precise (ipld : Codec) (snapshot : List Pin) (m : Marking) : Prop where
  groups : ∀ g ∈ m.groups, g.pins ⊆ snapshot
  pins : m.pins ⊆ snapshot
  frontier : ∀ c ∈ m.frontier, ∃ p ∈ snapshot, p.recursive = true ∧ ipld.Dag p.cid c
  marked : ∀ key ∈ m.marked, ∃ c, Retained ipld snapshot c ∧ c.hash = key

section Exact
variable {ipld : Codec} {snapshot : List Pin}

theorem start_precise (groups : List HeadMark) :
    (start groups).Precise ipld (groups.flatMap HeadMark.pins) := by
  refine ⟨fun g member p inside => List.mem_flatMap.mpr ⟨g, member, inside⟩, ?_, ?_, ?_⟩ <;>
    simp [start]

theorem retained_deep (deep : ∃ p ∈ snapshot, p.recursive = true ∧ ipld.Dag p.cid c) :
    Retained ipld snapshot c := by
  obtain ⟨p, member, recursive, path⟩ := deep
  exact ⟨p, member, by rwa [Pin.Covers, if_pos recursive]⟩

theorem Precise.step (precise : m.Precise ipld snapshot) (effect : m.Effect ipld m') :
    m'.Precise ipld snapshot := by
  obtain ⟨groups, pins, frontier, marked⟩ := precise
  -- A newly marked block is one that the snapshot retains.
  have marks (c : Cid) (kept : Retained ipld snapshot c) :
      ∀ key ∈ insert c.hash m.marked, ∃ c, Retained ipld snapshot c ∧ c.hash = key := by
    intro key member
    rcases Finset.mem_insert.mp member with rfl | old
    · exact ⟨c, kept, rfl⟩
    · exact marked key old
  cases effect with
  | queues next deep =>
    rw [next, List.cons_subset] at pins
    refine ⟨groups, pins.2, fun c waiting => ?_, marked⟩
    rcases List.mem_cons.mp waiting with rfl | old
    · exact ⟨_, pins.1, deep, .refl⟩
    · exact frontier c old
  | retains next direct =>
    rw [next, List.cons_subset] at pins
    refine ⟨groups, pins.2, frontier, marks _ ⟨_, pins.1, ?_⟩⟩
    rw [Pin.Covers, if_neg (by simp [direct])]
  | skips none next =>
    exact ⟨groups, pins, fun c waiting => frontier c (next ▸ List.mem_cons_of_mem _ waiting),
      marked⟩
  | leaf none next =>
    have top := frontier _ (next ▸ List.mem_cons_self ..)
    exact ⟨groups, pins, fun c waiting => frontier c (next ▸ List.mem_cons_of_mem _ waiting),
      marks _ (retained_deep top)⟩
  | expands none next inner fresh verified decoded =>
    have top := frontier _ (next ▸ List.mem_cons_self ..)
    refine ⟨groups, pins, fun c waiting => ?_, marks _ (retained_deep top)⟩
    rcases List.mem_append.mp waiting with kid | old
    · have link := (linksTo_iff inner verified decoded).mpr (List.mem_reverse.mp kid)
      obtain ⟨p, member, deep, path⟩ := top
      exact ⟨p, member, deep, path.tail link⟩
    · exact frontier c (next ▸ List.mem_cons_of_mem _ old)
  | enters none empty next =>
    rw [next, List.forall_mem_cons] at groups
    exact ⟨groups.2, groups.1, frontier, marked⟩

end Exact

variable {groups : List HeadMark}

theorem run_exact (ran : (start groups).run setup rounds = .done marked) (key : Multihash) :
    key ∈ marked ↔ ∃ c, Retained setup.ipld (groups.flatMap HeadMark.pins) c ∧ c.hash = key := by
  obtain ⟨last, ⟨sound, precise⟩, noGroups, noPins, noFrontier, rfl⟩ :=
    run_done (P := fun m => m.Sound setup.ipld (groups.flatMap HeadMark.pins) ∧
      m.Precise setup.ipld (groups.flatMap HeadMark.pins))
      ⟨start_sound groups, start_precise groups⟩
      (fun round _ m m' s' kept stepped =>
        ⟨kept.1.step (step_effect stepped), kept.2.step (step_effect stepped)⟩) ran
  constructor
  · exact precise.marked key
  · rintro ⟨c, kept, rfl⟩
    exact sound.complete noGroups noPins noFrontier kept

/-! ### A block that no read accepts -/

theorem step_reads (stepped : m.step setup s env = (.more m', s')) (read : m.target = some c) :
    (retainForMark setup s c m.followed env).1 = true := by
  unfold target at read
  unfold step at stepped
  split at read
  · rename_i p rest next
    split at read
    · cases read
    · rename_i direct
      cases read
      simp only [next, if_neg direct] at stepped
      split at stepped
      · rename_i got
        rw [got]
      · cases stepped
  · rename_i noPins
    simp only [noPins] at stepped
    split at read
    · rename_i d rest next
      simp only [next] at stepped
      by_cases leaf : d.codec = raw
      · rw [if_pos leaf] at read stepped
        split at read
        · cases read
        · rename_i fresh
          cases read
          rw [if_neg fresh] at stepped
          split at stepped
          · rename_i got
            rw [got]
          · cases stepped
      · rw [if_neg leaf] at read stepped
        split at read
        · cases read
        · rename_i fresh
          cases read
          rw [not_or] at fresh
          rw [if_neg fresh.1] at stepped
          split at stepped
          · rename_i got
            obtain ⟨-, data, node, read, -⟩ := linksForMark_some got
            simp [retainForMark, leaf, read]
          · cases stepped
    · cases read

/-- No iteration retains a bad block without asking a fetcher, under this CID or, if it
is a leaf, under another one with its hash. -/
theorem retain_bad (bad : Bad setup s c) (same : d.hash = c.hash) (strict : c.codec = raw ∨ d = c)
    (alone : followed = true → env.fails = false → (s.blocks d.hash).isSome) :
    (retainForMark setup s d followed env).1 = false := by
  unfold Bad at bad
  have verifies (data : Block) : setup.ipld.Verifies d data ↔ setup.ipld.Verifies c data := by
    simp [Codec.Verifies, Codec.sum, same]
  cases fails : env.fails with
  | true => simp [retainForMark, readForMark, fails]
  | false =>
    rw [same] at alone
    cases found : s.blocks c.hash with
    | none =>
      have unfollowed : followed = false := by
        cases followed with
        | false => rfl
        | true => simpa [found] using alone rfl fails
      simp [retainForMark, readForMark, fails, same, found, unfollowed]
    | some data =>
      obtain ⟨corrupt, leaf⟩ := bad data found
      have read : (readForMark setup s d followed env).1 = none := by
        simp [readForMark, fails, same, found, verifies, corrupt]
      have validated : setup.separateScrub = false ∨ d.codec ≠ raw := by
        rcases strict with isRaw | rfl
        · exact .inl (leaf isRaw)
        · by_cases isRaw : d.codec = raw
          · exact .inl (leaf isRaw)
          · exact .inr isRaw
      unfold retainForMark
      rw [if_pos (by rcases validated with off | inner <;> simp [*]), read]
      rfl

theorem step_avoids (bad : Bad setup s c) (alone : m.asks ⟨s, env⟩ = none)
    (stepped : m.step setup s env = (.more m', s')) (read : m.target = some d)
    (strict : c.codec = raw ∨ d = c) : d.hash ≠ c.hash := by
  intro same
  have retained := step_reads stepped read
  rw [retain_bad bad same strict fun followed calm => ?_] at retained
  · cases retained
  · simpa [asks, followed, calm, read, Option.isSome_iff_ne_none] using alone

/-- The block is in a group to come; if it has to come before the followed groups, no
group up to there is followed. -/
inductive Ahead (ipld : Codec) (first : Prop) (c : Cid) : List HeadMark → Prop where
  | here {g : HeadMark} {rest : List HeadMark} (alone : first → g.followed = false)
      (kept : Retained ipld g.pins c) : Ahead ipld first c (g :: rest)
  | later {g : HeadMark} {rest : List HeadMark} (alone : first → g.followed = false)
      (ahead : Ahead ipld first c rest) : Ahead ipld first c (g :: rest)

theorem Ahead.of_append {ipld : Codec} {first : Prop} {lead rest : List HeadMark} {g : HeadMark}
    (alone : first → ∀ g ∈ lead, g.followed = false) (alone' : first → g.followed = false)
    (kept : Retained ipld g.pins c) : Ahead ipld first c (lead ++ g :: rest) := by
  induction lead with
  | nil => exact .here alone' kept
  | cons h lead ih =>
    refine .later (fun early => alone early h (List.mem_cons_self ..)) (ih fun early g member => ?_)
    exact alone early g (List.mem_cons_of_mem _ member)

/-- The mark has not got to the block of `c` yet, and has to. -/
structure Owes (ipld : Codec) (first : Prop) (c : Cid) (m : Marking) : Prop where
  alone : first → m.followed = false
  closed : ∀ a ∈ m.expanded, ∀ b, ipld.LinksTo a b → m.Visited b ∨ b ∈ m.frontier
  leaf : c.codec = raw → c.hash ∉ m.marked
  node : c ∉ m.expanded
  owed : (∃ p ∈ m.pins, p.Covers ipld c) ∨ (∃ d ∈ m.frontier, ipld.Dag d c) ∨
    Ahead ipld first c m.groups

section Owing
variable {ipld : Codec} {first : Prop}

theorem start_owes (ahead : Ahead ipld first c groups) : (start groups).Owes ipld first c :=
  ⟨fun _ => rfl, by simp [start], by simp [start], by simp [start], .inr (.inr ahead)⟩

/-- What is below a visited block is visited, or below the frontier. -/
theorem visited_below (closed : ∀ a ∈ m.expanded, ∀ b, ipld.LinksTo a b →
      m.Visited b ∨ b ∈ m.frontier) (visited : m.Visited d) (path : ipld.Dag d c) :
    m.Visited c ∨ ∃ e ∈ m.frontier, ipld.Dag e c := by
  induction path using Relation.ReflTransGen.head_induction_on with
  | refl => exact .inl visited
  | @head a b link rest ih =>
    rcases visited with expanded | ⟨leaf, -⟩
    · rcases closed a expanded b link with below | waiting
      · exact ih below
      · exact .inr ⟨b, waiting, rest⟩
    · have codec := link.1
      rw [leaf] at codec
      cases codec

theorem Owes.not_done (owes : m.Owes ipld first c) (noGroups : m.groups = []) (noPins : m.pins = [])
    (noFrontier : m.frontier = []) : False := by
  rcases owes.owed with ⟨p, member, -⟩ | ⟨d, waiting, -⟩ | ahead
  · simp [noPins] at member
  · simp [noFrontier] at waiting
  · rw [noGroups] at ahead
    cases ahead

end Owing

/-- An iteration that asks no fetcher still owes a block that no read accepts. -/
theorem Owes.step {first : Prop} (owes : m.Owes setup.ipld first c) (bad : Bad setup s c)
    (alone : m.asks ⟨s, env⟩ = none) (stepped : m.step setup s env = (.more m', s')) :
    m'.Owes setup.ipld first c := by
  have effect := step_effect stepped
  have avoids {d : Cid} (read : m.target = some d) (strict : c.codec = raw ∨ d = c) :
      c.hash ≠ d.hash := (step_avoids bad alone stepped read strict).symm
  have leaf : c.codec = raw → c.hash ∉ m'.marked := by
    intro isRaw
    have before := owes.leaf isRaw
    cases effect with
    | queues | skips | enters => exact before
    | retains next direct =>
      have read := avoids (by simp [target, next, direct]; rfl) (.inl isRaw)
      exact fun member => (Finset.mem_insert.mp member).elim read before
    | leaf none next leaf fresh =>
      have read := avoids (by simp [target, none, next, leaf, fresh]; rfl) (.inl isRaw)
      exact fun member => (Finset.mem_insert.mp member).elim read before
    | expands none next inner fresh =>
      have read := avoids (by simp [target, none, next, inner, fresh, raw, dagCBOR]; rfl)
        (.inl isRaw)
      exact fun member => (Finset.mem_insert.mp member).elim read before
  have node : c ∉ m'.expanded := by
    cases effect with
    | @expands d _ _ _ none next inner fresh =>
      intro member
      rcases Finset.mem_insert.mp member with rfl | old
      · exact avoids (by simp [target, none, next, inner, fresh, raw, dagCBOR]) (.inr rfl) rfl
      · exact owes.node old
    | _ => exact owes.node
  have closed := effect.closed owes.closed
  have unvisited : ¬ m'.Visited c := by
    rintro (expanded | ⟨isRaw, marked⟩)
    · exact node expanded
    · exact leaf isRaw marked
  -- What was below the frontier is below the new one: the block is not visited.
  have below : (∃ d ∈ m.frontier, setup.ipld.Dag d c) →
      ∃ d ∈ m'.frontier, setup.ipld.Dag d c := by
    rintro ⟨d, waiting, path⟩
    rcases effect.frontier waiting with visited | still
    · exact (visited_below closed visited path).resolve_left unvisited
    · exact ⟨d, still, path⟩
  cases effect with
  | queues next deep =>
    refine ⟨owes.alone, closed, leaf, node, ?_⟩
    rcases owes.owed with ⟨p, member, covers⟩ | waiting | ahead
    · rcases List.mem_cons.mp (next ▸ member) with rfl | rest
      · rw [Pin.Covers, if_pos deep] at covers
        exact .inr (.inl ⟨_, List.mem_cons_self .., covers⟩)
      · exact .inl ⟨p, rest, covers⟩
    · exact .inr (.inl (below waiting))
    · exact .inr (.inr ahead)
  | retains next direct =>
    refine ⟨owes.alone, closed, leaf, node, ?_⟩
    rcases owes.owed with ⟨p, member, covers⟩ | waiting | ahead
    · rcases List.mem_cons.mp (next ▸ member) with rfl | rest
      · rw [Pin.Covers, if_neg (by simp [direct])] at covers
        subst covers
        exact absurd rfl (avoids (by simp [target, next, direct]) (.inr rfl))
      · exact .inl ⟨p, rest, covers⟩
    · exact .inr (.inl waiting)
    · exact .inr (.inr ahead)
  | skips none | leaf none | expands none =>
    refine ⟨owes.alone, closed, leaf, node, ?_⟩
    rcases owes.owed with ⟨p, member, covers⟩ | waiting | ahead
    · exact .inl ⟨p, member, covers⟩
    · exact .inr (.inl (below waiting))
    · exact .inr (.inr ahead)
  | enters none empty next =>
    rcases owes.owed with ⟨p, member, covers⟩ | ⟨d, waiting, path⟩ | ahead
    · simp [none] at member
    · simp [empty] at waiting
    · rw [next] at ahead
      cases ahead with
      | here alone kept => exact ⟨alone, closed, leaf, node, .inl kept⟩
      | later alone ahead => exact ⟨alone, closed, leaf, node, .inr (.inr ahead)⟩

/-! ### The length of a mark -/

def Within (held : List Block) (s : Epochs) : Prop :=
  ∀ key data, s.blocks key = some data → data ∈ held

def linksOf (ipld : Codec) (held : List Block) : List Cid :=
  held.flatMap fun data => ((ipld.decode data).map Node.links).getD []

theorem links_sublist {ipld : Codec} {held : List Block} {data : Block} {node : Node}
    (member : data ∈ held) (decoded : ipld.decode data = some node) :
    node.links.Sublist (linksOf ipld held) := by
  unfold linksOf
  rw [List.flatMap_def]
  refine List.sublist_flatten_of_mem (List.mem_map.mpr ⟨data, member, ?_⟩)
  simp [decoded]

structure Inside (known : Finset Cid) (m : Marking) : Prop where
  groups : ∀ g ∈ m.groups, ∀ p ∈ g.pins, p.cid ∈ known
  pins : ∀ p ∈ m.pins, p.cid ∈ known
  frontier : ∀ c ∈ m.frontier, c ∈ known

/-- A bound on the iterations to come: each known CID is expanded at most once. -/
def weight (known : Finset Cid) (width : Nat) (m : Marking) : Nat :=
  (known \ m.expanded).card * (width + 1) + m.frontier.length + 2 * m.pins.length +
    (m.groups.map fun g => 2 * g.pins.length + 1).sum

theorem weight_lt {ipld : Codec} {known : Finset Cid} {width : Nat} (inside : m.Inside known)
    (links : ∀ c data node, c ∈ m.frontier → m.target = some c → c.codec = dagCBOR →
      ipld.Verifies c data → ipld.decode data = some node →
      node.links.length ≤ width ∧ ∀ d ∈ node.links, d ∈ known)
    (effect : m.Effect ipld m') :
    m'.Inside known ∧ m'.weight known width < m.weight known width := by
  obtain ⟨groups, pins, frontier⟩ := inside
  cases effect with
  | queues next =>
    rw [next, List.forall_mem_cons] at pins
    refine ⟨⟨groups, pins.2, List.forall_mem_cons.mpr ⟨pins.1, frontier⟩⟩, ?_⟩
    simp only [weight, next, List.length_cons]
    omega
  | retains next =>
    rw [next, List.forall_mem_cons] at pins
    refine ⟨⟨groups, pins.2, frontier⟩, ?_⟩
    simp only [weight, next, List.length_cons]
    omega
  | skips none next | leaf none next =>
    rw [next, List.forall_mem_cons] at frontier
    refine ⟨⟨groups, pins, frontier.2⟩, ?_⟩
    simp only [weight, next, List.length_cons]
    omega
  | @expands c rest data node none next inner fresh verified decoded =>
    rw [next, List.forall_mem_cons] at frontier
    have top : c ∈ m.frontier := next ▸ List.mem_cons_self ..
    have read : m.target = some c := by
      simp [target, none, next, inner, fresh, raw, dagCBOR]
    obtain ⟨short, known'⟩ := links c data node top read inner verified decoded
    refine ⟨⟨groups, pins, fun d waiting => ?_⟩, ?_⟩
    · rcases List.mem_append.mp waiting with kid | old
      · exact known' d (List.mem_reverse.mp kid)
      · exact frontier.2 d old
    · -- The expanded CID pays for the links it queues.
      have less : (known \ insert c m.expanded).card + 1 = (known \ m.expanded).card := by
        rw [Finset.sdiff_insert]
        exact Finset.card_erase_add_one (Finset.mem_sdiff.mpr ⟨frontier.1, fresh⟩)
      simp only [weight, next, ← less, List.length_cons, List.length_append, List.length_reverse,
        Nat.add_mul]
      omega
  | enters none empty next =>
    rw [next, List.forall_mem_cons] at groups
    refine ⟨⟨groups.2, groups.1, frontier⟩, ?_⟩
    simp only [weight, next, none, List.length_nil, List.map_cons, List.sum_cons]
    omega

theorem step_finds (alone : m.asks ⟨s, env⟩ = none) (stepped : m.step setup s env = (.more m', s'))
    (read : m.target = some c) (validated : c.codec = raw → setup.separateScrub = false) :
    ∃ data, s.blocks c.hash = some data ∧ setup.ipld.Verifies c data := by
  by_contra missing
  refine step_avoids (c := c) (fun data found => ⟨fun verified => ?_, validated⟩) alone stepped read
    (.inr rfl) rfl
  exact missing ⟨data, found, verified⟩

theorem weight_step {known : Finset Cid} {held : List Block} (inside : m.Inside known)
    (knows : ∀ d ∈ linksOf setup.ipld held, d ∈ known) (within : Within held s)
    (alone : m.asks ⟨s, env⟩ = none) (stepped : m.step setup s env = (.more m', s')) :
    m'.Inside known ∧ m'.weight known (linksOf setup.ipld held).length <
      m.weight known (linksOf setup.ipld held).length := by
  refine weight_lt inside (fun c data node _ read inner verified decoded => ?_)
    (step_effect stepped)
  obtain ⟨found, stored, same⟩ := step_finds alone stepped read fun leaf => by
    rw [inner] at leaf
    cases leaf
  rw [same.unique verified] at stored
  have part := links_sublist (within _ _ stored) decoded
  exact ⟨part.length_le, fun d kid => knows d (part.subset kid)⟩

def knownOf (ipld : Codec) (groups : List HeadMark) (held : List Block) : Finset Cid :=
  ((groups.flatMap HeadMark.pins).map Pin.cid ++ linksOf ipld held).toFinset

theorem start_inside (ipld : Codec) (groups : List HeadMark) (held : List Block) :
    (start groups).Inside (knownOf ipld groups held) := by
  refine ⟨fun g member p inside => ?_, by simp [start], by simp [start]⟩
  rw [knownOf, List.mem_toFinset]
  exact List.mem_append_left _ (List.mem_map.mpr ⟨p, List.mem_flatMap.mpr ⟨g, member, inside⟩, rfl⟩)

theorem linksOf_known (ipld : Codec) (groups : List HeadMark) (held : List Block) :
    ∀ d ∈ linksOf ipld held, d ∈ knownOf ipld groups held := by
  intro d member
  rw [knownOf, List.mem_toFinset]
  exact List.mem_append_right _ member

/-! ### A store with everything -/

def Readable (ipld : Codec) (blocks : Multihash → Option Block) (c : Cid) : Prop :=
  ∃ data, blocks c.hash = some data ∧ ipld.Verifies c data ∧
    (c.codec = raw ∨ c.codec = dagCBOR ∧ (ipld.decode data).isSome)

theorem retain_readable (readable : Readable setup.ipld s.blocks c) (calm : env.fails = false) :
    retainForMark setup s c followed env = (true, s) := by
  obtain ⟨data, found, verified, -⟩ := readable
  have read : readForMark setup s c followed env = (some data, s) := by
    simp [readForMark, calm, found, verified]
  unfold retainForMark
  split
  · simp [read]
  · simp [calm, found]

theorem links_readable (readable : Readable setup.ipld s.blocks c) (inner : c.codec ≠ raw)
    (calm : env.fails = false) (followed : Bool) :
    ∃ kids, linksForMark setup s c followed env = (some kids, s) := by
  obtain ⟨data, found, verified, codec⟩ := readable
  obtain ⟨codec, decodes⟩ := codec.resolve_left inner
  obtain ⟨node, decoded⟩ := Option.isSome_iff_exists.mp decodes
  have read : readForMark setup s c followed env = (some data, s) := by
    simp [readForMark, calm, found, verified]
  exact ⟨node.links, by simp [linksForMark, codec, read, decoded]⟩

section Everything
variable {snapshot : List Pin}

theorem Precise.target (precise : m.Precise setup.ipld snapshot) (read : m.target = some c) :
    Retained setup.ipld snapshot c := by
  unfold Marking.target at read
  split at read
  · rename_i p rest next
    split at read
    · cases read
    · rename_i direct
      cases read
      exact ⟨p, precise.pins (next ▸ List.mem_cons_self ..), by rw [Pin.Covers, if_neg direct]⟩
  · split at read
    · rename_i d rest next
      have kept := retained_deep (precise.frontier d (next ▸ List.mem_cons_self ..))
      split at read
      · split at read
        · cases read
        · cases read
          exact kept
      · split at read
        · cases read
        · cases read
          exact kept
    · cases read

theorem Precise.goes (precise : m.Precise setup.ipld snapshot)
    (readable : ∀ c, Retained setup.ipld snapshot c → Readable setup.ipld s.blocks c)
    (calm : env.fails = false) :
    (m.step setup s env).1 ≠ .failed ∧ m.asks ⟨s, env⟩ = none := by
  constructor
  · unfold Marking.step
    split
    · rename_i p rest next
      split
      · simp
      · rename_i direct
        have kept : Retained setup.ipld snapshot p.cid :=
          ⟨p, precise.pins (next ▸ List.mem_cons_self ..), by rw [Pin.Covers, if_neg direct]⟩
        simp [retain_readable (readable _ kept) calm]
    · split
      · rename_i c rest next
        have kept := retained_deep (precise.frontier c (next ▸ List.mem_cons_self ..))
        split
        · split
          · simp
          · simp [retain_readable (readable _ kept) calm]
        · rename_i inner
          split
          · simp
          · obtain ⟨kids, links⟩ := links_readable (readable _ kept) inner calm m.followed
            simp [links]
      · split <;> simp
  · unfold asks
    split
    · cases read : m.target with
      | none => rfl
      | some c =>
        obtain ⟨data, found, -⟩ := readable c (precise.target read)
        simp [found]
    · rfl

end Everything

def linkCount (ipld : Codec) (blocks : Multihash → Option Block) (c : Cid) : Nat :=
  (((blocks c.hash).bind ipld.decode).map fun node => node.links.length).getD 0

theorem mark_succeeds {blocks : Multihash → Option Block} (known : Finset Cid)
    (all : ∀ c, Retained setup.ipld (groups.flatMap HeadMark.pins) c → c ∈ known)
    (readable : ∀ c, Retained setup.ipld (groups.flatMap HeadMark.pins) c →
      Readable setup.ipld blocks c) :
    ∃ bound, ∀ rounds : List Round,
      (∀ round ∈ rounds, round.store.blocks = blocks ∧ round.env.fails = false) →
      bound ≤ rounds.length →
      (∃ marked, (start groups).run setup rounds = .done marked) ∧
        (start groups).fetches setup rounds = [] := by
  let width := ∑ c ∈ known, linkCount setup.ipld blocks c
  refine ⟨(start groups).weight known width + 1, fun rounds calm long => ?_⟩
  let P (m : Marking) : Prop :=
    m.Precise setup.ipld (groups.flatMap HeadMark.pins) ∧ m.Inside known
  have kept_direct (p : Pin) (member : p ∈ groups.flatMap HeadMark.pins) : p.cid ∈ known := by
    refine all p.cid ⟨p, member, ?_⟩
    unfold Pin.Covers
    split
    · exact .refl
    · rfl
  have start : P (start groups) :=
    ⟨start_precise groups, fun g member p inside =>
      kept_direct p (List.mem_flatMap.mpr ⟨g, member, inside⟩), by simp [Marking.start],
      by simp [Marking.start]⟩
  have drops : ∀ round ∈ rounds, ∀ m m' s', P m →
      m.step setup round.store round.env = (.more m', s') →
      P m' ∧ m'.weight known width < m.weight known width := by
    rintro round member m m' s' ⟨precise, inside⟩ stepped
    have effect := step_effect stepped
    refine (weight_lt inside (fun c data node waiting _ inner verified decoded => ?_) effect).imp_left
      fun inside' => ⟨precise.step effect, inside'⟩
    obtain ⟨p, member, deep, path⟩ := precise.frontier c waiting
    obtain ⟨data', found, verified', -⟩ := readable c (retained_deep ⟨p, member, deep, path⟩)
    cases verified'.unique verified
    constructor
    · have count : node.links.length = linkCount setup.ipld blocks c := by
        simp [linkCount, found, decoded]
      rw [count]
      exact Finset.single_le_sum (fun _ _ => Nat.zero_le _) (inside.frontier c waiting)
    · intro d kid
      have link := (linksTo_iff inner verified decoded).mpr kid
      exact all d (retained_deep ⟨p, member, deep, path.tail link⟩)
  have goes : ∀ round ∈ rounds, ∀ m, P m →
      (m.step setup round.store round.env).1 ≠ .failed ∧ m.asks round = none := by
    rintro round member m ⟨precise, -⟩
    obtain ⟨same, calm⟩ := calm round member
    exact precise.goes (fun c kept => by rw [same]; exact readable c kept) calm
  obtain ⟨unfailed, quiet⟩ := run_goes start
    (fun round member m m' s' kept stepped => (drops round member m m' s' kept stepped).1) goes
  refine ⟨?_, quiet⟩
  cases ran : (Marking.start groups).run setup rounds with
  | more m' => exact absurd ran (run_ends start drops long)
  | done marked => exact ⟨marked, rfl⟩
  | failed => exact absurd ran unfailed

/-! ### Written heads first -/

section First
variable {groups : List HeadMark}

theorem owes_unfinished {first : Prop} (owes : m.Owes setup.ipld first c)
    (bad : ∀ round ∈ rounds, Bad setup round.store c) (quiet : m.fetches setup rounds = []) :
    m.run setup rounds ≠ .done marked := by
  induction rounds generalizing m with
  | nil => simp [run]
  | cons round rest ih =>
    rw [List.forall_mem_cons] at bad
    rw [fetches, List.append_eq_nil_iff, Option.toList_eq_nil_iff] at quiet
    rcases stepped : m.step setup round.store round.env with ⟨result, s'⟩
    rw [stepped] at quiet
    cases result with
    | more next =>
      simp only [run, stepped]
      exact ih (owes.step bad.1 quiet.1 stepped) bad.2 quiet.2
    | done found =>
      obtain ⟨noGroups, noPins, noFrontier, -⟩ := step_done stepped
      exact (owes.not_done noGroups noPins noFrontier).elim
    | failed => simp [run, stepped]

/-- While the mark owes a bad block to a group before the followed ones, it asks for
nothing. -/
theorem owes_alone (owes : m.Owes setup.ipld True c)
    (bad : ∀ round ∈ rounds, Bad setup round.store c) : m.fetches setup rounds = [] := by
  induction rounds generalizing m with
  | nil => rfl
  | cons round rest ih =>
    rw [List.forall_mem_cons] at bad
    have quiet : m.asks round = none := asks_of_unfollowed (owes.alone trivial)
    rcases stepped : m.step setup round.store round.env with ⟨result, s'⟩
    cases result with
    | more next =>
      simp only [fetches, quiet, stepped]
      exact ih (owes.step bad.1 quiet stepped) bad.2
    | done | failed => simp [fetches, quiet, stepped]

theorem owes_fails (ahead : Ahead setup.ipld True c groups) (held : List Block) :
    ∃ bound, ∀ rounds, (∀ round ∈ rounds, Bad setup round.store c ∧ Within held round.store) →
      bound ≤ rounds.length → (start groups).run setup rounds = .failed := by
  let known := knownOf setup.ipld groups held
  let width := (linksOf setup.ipld held).length
  refine ⟨(start groups).weight known width + 1, fun rounds sees long => ?_⟩
  have owes := start_owes ahead
  have ends (m' : Marking) : (start groups).run setup rounds ≠ .more m' := by
    refine run_ends (P := fun m => m.Owes setup.ipld True c ∧ m.Inside known)
      (w := weight known width) ⟨owes, start_inside _ groups held⟩ ?_ long
    rintro round member m m' s' ⟨owes, inside⟩ stepped
    have quiet : m.asks round = none := asks_of_unfollowed (owes.alone trivial)
    obtain ⟨inside', less⟩ := weight_step inside (linksOf_known _ groups held)
      (sees round member).2 quiet stepped
    exact ⟨⟨owes.step (sees round member).1 quiet stepped, inside'⟩, less⟩
  have bad (round : Round) (member : round ∈ rounds) := (sees round member).1
  have quiet := owes_alone owes bad
  cases ran : (start groups).run setup rounds with
  | more m' => exact absurd ran (ends m')
  | done marked => exact absurd ran (owes_unfinished owes bad quiet)
  | failed => rfl

end First

end Marking

def Vault.During (setup : Setup) (c : Cid) : Vault → Vault → Prop :=
  Relation.ReflTransGen fun v v' =>
    v.collector ≠ .idle ∧ Bad setup v.epochs c ∧ v.Step setup v'

section Online
variable {setup : Setup} {v v' : Vault} {c : Cid}

def Vault.Owes (setup : Setup) (c : Cid) (v : Vault) : Prop :=
  v.collector = .idle ∨
    ∃ serial m, v.collector = .marking serial m ∧ m.Owes setup.ipld True c

theorem Vault.Owes.step (owes : v.Owes setup c) (bad : Bad setup v.epochs c)
    (running : v.collector ≠ .idle) (step : v.Step setup v') :
    v'.Owes setup c ∧
      ∀ key, (v.epochs.blocks key).isSome → (v'.epochs.blocks key).isSome := by
  have owed := owes
  obtain ⟨serial, m, marking, owing⟩ := owes.resolve_left running
  have widened (widens : Widens setup.ipld v v') : v'.Owes setup c ∧
      ∀ key, (v.epochs.blocks key).isSome → (v'.epochs.blocks key).isSome :=
    ⟨by rwa [Vault.Owes, widens.collector], widens.store.present⟩
  cases step with
  | putBlobs blobs pinned => exact widened (putBlobs_widens setup v blobs pinned)
  | drop cids => exact ⟨owed, fun _ present => present⟩
  | work work =>
    cases work with
    | serve op app => exact widened (serve_widens setup.ipld v app)
    | retarget name r ops app may =>
      have served := serveAll_widens setup.ipld v app
      exact ⟨by rwa [Vault.Owes, Vault.setHead, served.collector], served.store.present⟩
    | reconcile | expire | tick => exact ⟨owed, fun _ present => present⟩
    | cut idle => exact absurd idle running
    | mark env marking' stepped =>
      rw [marking] at marking'
      cases marking'
      have quiet : m.asks ⟨v.epochs, env⟩ = none :=
        Marking.asks_of_unfollowed (owing.alone trivial)
      exact ⟨.inr ⟨serial, _, rfl, owing.step bad quiet stepped⟩,
        (Marking.stepped_grows stepped).present⟩
    | marked env marking' stepped =>
      rw [marking] at marking'
      cases marking'
      obtain ⟨noGroups, noPins, noFrontier, -⟩ := Marking.step_done stepped
      exact (owing.not_done noGroups noPins noFrontier).elim
    | unmarked env marking' =>
      refine ⟨.inl rfl, fun key present => ?_⟩
      dsimp only
      rw [Epochs.endEpoch_blocks]
      exact (Marking.step_grows setup _ v.epochs env).present key present
    | sweep c' fails sweeping =>
      rw [marking] at sweeping
      cases sweeping
    | finish sweeping =>
      rw [marking] at sweeping
      cases sweeping

/-- No collection that owes a bad block to a group before the followed ones deletes
anything. -/
theorem during_owes (owes : v.Owes setup c) (during : v.During setup c v') :
    v'.Owes setup c ∧
      ∀ key, (v.epochs.blocks key).isSome → (v'.epochs.blocks key).isSome := by
  induction during with
  | refl => exact ⟨owes, fun _ present => present⟩
  | tail _ next ih =>
    obtain ⟨running, bad, step⟩ := next
    obtain ⟨owes', keeps⟩ := ih
    obtain ⟨owes'', keeps'⟩ := owes'.step bad running step
    exact ⟨owes'', fun key present => keeps' key (keeps key present)⟩

end Online

/-- A mark that succeeds returns the keys of exactly what the pins retain. If a block that
is retained by a group before the followed ones is bad, the mark does not succeed, it
fails once it has had time for every block the store ever holds, no fetcher is asked for
anything, and nothing is deleted while the collection runs. -/
theorem mark_exact (setup : Setup) (groups : List HeadMark) :
    (∀ rounds marked, (Marking.start groups).run setup rounds = .done marked →
      ∀ key, key ∈ marked ↔
        ∃ c, Retained setup.ipld (groups.flatMap HeadMark.pins) c ∧ c.hash = key) ∧
    ∀ lead group rest c, groups = lead ++ group :: rest → (∀ g ∈ lead, g.followed = false) →
      group.followed = false → Retained setup.ipld group.pins c →
      (∀ rounds, (∀ round ∈ rounds, Bad setup round.store c) →
        (∀ marked, (Marking.start groups).run setup rounds ≠ .done marked) ∧
          (Marking.start groups).fetches setup rounds = []) ∧
      (∀ held, ∃ bound, ∀ rounds,
        (∀ round ∈ rounds, Bad setup round.store c ∧ Marking.Within held round.store) →
        bound ≤ rounds.length → (Marking.start groups).run setup rounds = .failed) ∧
      ∀ (v v' : Vault) serial, v.collector = .marking serial (.start groups) →
        v.During setup c v' →
        (∀ serial' marked, v'.collector ≠ .sweeping serial' marked) ∧
          ∀ key, (v.epochs.blocks key).isSome → (v'.epochs.blocks key).isSome := by
  refine ⟨fun rounds marked ran => Marking.run_exact ran, ?_⟩
  intro lead group rest c split alone alone' kept
  have ahead : Marking.Ahead setup.ipld True c groups := by
    rw [split]
    exact .of_append (fun _ => alone) (fun _ => alone') kept
  have owes := Marking.start_owes ahead
  refine ⟨fun rounds bad => ?_, Marking.owes_fails ahead, ?_⟩
  · have quiet := Marking.owes_alone owes bad
    exact ⟨fun marked => Marking.owes_unfinished owes bad quiet, quiet⟩
  intro v v' serial marking during
  obtain ⟨owes', keeps⟩ := during_owes (.inr ⟨serial, _, marking, owes⟩) during
  refine ⟨fun serial' marked sweeping => ?_, keeps⟩
  rcases owes' with idle | ⟨_, _, marking', -⟩
  · rw [sweeping] at idle
    cases idle
  · rw [sweeping] at marking'
    cases marking'

section Sample

/-- A written head with one direct pin, before a followed one without pins. -/
def sampleGroups : List HeadMark :=
  [⟨"mainnet", false, [⟨.other "blob", DagCbor.codec.sum raw sampleData, false⟩]⟩,
    ⟨"mirror", true, []⟩]

def fullStore : Epochs :=
  newEpochs (Function.update (fun _ => none) (DagCbor.codec.sum raw sampleData).hash
    (some sampleData))

def bareStore : Epochs := newEpochs fun _ => none

theorem mark_exact_sample :
    (∃ marked, (Marking.start sampleGroups).run sampleSetup
        (List.replicate 4 ⟨fullStore, calmWeather⟩) = .done marked ∧
      ∀ key, key ∈ marked ↔ ∃ c, Retained DagCbor.codec
        (sampleGroups.flatMap HeadMark.pins) c ∧ c.hash = key) ∧
    ∃ bound, (Marking.start sampleGroups).run sampleSetup
        (List.replicate bound ⟨bareStore, calmWeather⟩) = .failed ∧
      (Marking.start sampleGroups).fetches sampleSetup
        (List.replicate bound ⟨bareStore, calmWeather⟩) = [] := by
  obtain ⟨precise, fails⟩ := mark_exact sampleSetup sampleGroups
  constructor
  · have ran : (Marking.start sampleGroups).run sampleSetup
        (List.replicate 4 ⟨fullStore, calmWeather⟩) =
          .done {(DagCbor.codec.sum raw sampleData).hash} := by
      have leaf : (DagCbor.codec.sum raw sampleData).codec = raw := rfl
      simp [leaf, sampleGroups, List.replicate, Marking.run, Marking.start, Marking.step, retainForMark,
        sampleSetup, fullStore, newEpochs, calmWeather]
    exact ⟨_, ran, precise _ _ ran⟩
  · have missing : Bad sampleSetup bareStore (DagCbor.codec.sum raw sampleData) := by
      intro data found
      cases found
    obtain ⟨alone, ended, -⟩ := fails [] _ _ (DagCbor.codec.sum raw sampleData) rfl (by simp) rfl
      ⟨_, List.mem_singleton_self _, by simp [Pin.Covers]⟩
    obtain ⟨bound, ended⟩ := ended []
    refine ⟨bound, ended _ (fun round member => ?_) (by simp), (alone _ fun round member => ?_).2⟩
    · rw [List.eq_of_mem_replicate member]
      exact ⟨missing, fun key data found => by cases found⟩
    · rw [List.eq_of_mem_replicate member]
      exact missing

end Sample

end Bloar.Pinning
