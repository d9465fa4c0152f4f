import Bloar.Canonical

/-!
The index blocks a root reaches. A CID names one block, so reachability is a
property of CIDs and not of a store: a Head block links its directory and its
open segment, a page links pages or, at the last level, segments.
-/

namespace Bloar.Archive
open Ipld Schema Arith RadixList
variable {σ : Type}

/-- What a block is read as. A page knows how many levels of pages it starts. -/
inductive Kind where
  | head
  | page (depth : Nat)
  | segment
  deriving DecidableEq, Repr

inductive LinksTo (ipld : Codec) (block : Block) : Kind → Kind → Cid → Prop where
  | opened {h : Schema.Head} {c : Cid} (decoded : decodeHead ipld block = .ok h)
      (link : h.openCid = some c) : LinksTo ipld block .head .segment c
  | dir {h : Schema.Head} {c : Cid} (decoded : decodeHead ipld block = .ok h)
      (link : h.dir = some c) : LinksTo ipld block .head (.page h.dirDepth) c
  | child {node : DirNode} {depth : Nat} {c : Cid} (decoded : decodeDirNode ipld block = .ok node)
      (kid : some c ∈ node.kids) : LinksTo ipld block (.page (depth + 2)) (.page (depth + 1)) c
  | leaf {node : DirNode} {c : Cid} (decoded : decodeDirNode ipld block = .ok node)
      (kid : some c ∈ node.kids) : LinksTo ipld block (.page 1) .segment c

inductive Reaches (ipld : Codec) (root : Cid) : Kind → Cid → Prop where
  | root : Reaches ipld root .head root
  | step {kind kind' : Kind} {block : Block} {c : Cid}
      (reached : Reaches ipld root kind (ipld.nodeCID block))
      (links : LinksTo ipld block kind kind' c) : Reaches ipld root kind' c

section Canonical
variable {ipld : Codec} {radix : Nat} {holds : World σ → Cid → Prop} {w : World σ}
variable {params : Params} {m : Contents}

variable {block : Block} {c : Cid} {kind : Kind} {root : Cid}

theorem cidOf_eq {n : Node} (same : ipld.nodeCID block = cidOf ipld n) : block = ipld.encode n :=
  ipld.nodeCID_injective same

theorem Stored.page_links {kids : List Link} {node : DirNode}
    (stored : Stored ipld holds w (dirNodeNode ⟨kids⟩))
    (same : ipld.nodeCID block = dirCid ipld kids) (decoded : decodeDirNode ipld block = .ok node)
    (kid : some c ∈ node.kids) : some c ∈ kids := by
  rw [cidOf_eq same, stored.decodes_dirNode] at decoded
  cases decoded
  exact trimTrailingNulls_mem.mp kid

inductive Placed (ipld : Codec) (params : Params) (holds : World σ → Cid → Prop) (w : World σ)
    (m : Contents) : Kind → Cid → Prop where
  | head : Placed ipld params holds w m .head (cidOf ipld (rootNode ipld params m))
  | page {level : Nat} {es : List Link}
      (stored : PagesStored ipld (2 ^ params.fanoutBits) holds w level es)
      (segments : ∀ c, some c ∈ es → holds w c) :
      Placed ipld params holds w m (.page (level + 1)) (pageCid ipld (2 ^ params.fanoutBits) level es)
  | segment {c : Cid} (held : holds w c) : Placed ipld params holds w m .segment c

theorem Indexed.sealed_held {st : State} (indexed : Indexed ipld params holds w st m) {s : Nat}
    (covered : m.coverage = some s) (member : some c ∈ sealedEntries ipld params m.rows s) :
    holds w c := by
  simp only [sealedEntries, entriesOf, List.mem_map, List.mem_range] at member
  obtain ⟨i, inside, entry⟩ := member
  unfold entryOf at entry
  split at entry
  · cases entry
  · rename_i nonempty
    cases entry
    exact (indexed.stored _ (.sealed covered (by omega) (by omega) nonempty)).held

theorem LinksTo.placed {kind' : Kind} (represents : Represents ipld params holds w m)
    (placed : Placed ipld params holds w m kind (ipld.nodeCID block))
    (links : LinksTo ipld block kind kind' c) : Placed ipld params holds w m kind' c := by
  have root : ∀ {h : Schema.Head}, ipld.nodeCID block = cidOf ipld (rootNode ipld params m) →
      decodeHead ipld block = .ok h → h = (bareState ipld params m).headObject := by
    intro h same decoded
    rw [cidOf_eq same, represents.rootStored.decodes_root represents.valid represents.usable]
      at decoded
    cases decoded
    rfl
  generalize at_block : ipld.nodeCID block = id at placed
  cases links with
  | opened decoded link =>
    cases placed
    obtain rfl := root at_block decoded
    cases coverage : m.coverage with
    | none => simp [bareState, coverage, State.headObject, State.empty] at link
    | some s =>
      rw [bareState_some coverage] at link
      cases link
      exact .segment (represents.open_stored coverage).held
  | @dir h c decoded link =>
    cases placed
    obtain rfl := root at_block decoded
    cases coverage : m.coverage with
    | none => simp [bareState, coverage, State.headObject, State.empty] at link
    | some s =>
      have canonical := represents.dirOf coverage
      have depth : (bareState ipld params m).headObject.dirDepth = w.cur.dirDepth := by
        rw [← represents.state]
        rfl
      have at_dir : w.cur.dir = some c := by
        rw [← link, ← represents.state]
        rfl
      rw [depth]
      rw [canonical.link] at at_dir
      cases levels : w.cur.dirDepth with
      | zero =>
        rw [levels] at at_dir
        cases at_dir
      | succ level =>
        rw [levels] at at_dir
        cases at_dir
        exact .page (canonical.stored level levels) fun _ => represents.sealed_held coverage
  | child decoded kid =>
    cases placed with
    | @page level es stored segments =>
      have inside := stored.root.page_links at_block decoded kid
      simp only [pageKids, List.mem_map, List.mem_range, Option.some.injEq] at inside
      obtain ⟨j, bound, rfl⟩ := inside
      exact .page (stored.child bound) fun c member => segments c (mem_of_mem_chunk member)
  | leaf decoded kid =>
    cases placed with
    | page stored segments =>
      exact .segment (segments _ (stored.root.page_links at_block decoded kid))

theorem Represents.reaches_held (represents : Represents ipld params holds w m)
    (at_root : w.cur.root = some root) (reached : Reaches ipld root kind c) : holds w c := by
  have placed : Placed ipld params holds w m kind c := by
    induction reached with
    | root =>
      rw [represents.root] at at_root
      cases at_root
      exact .head
    | step _ links ih => exact links.placed represents ih
  cases placed with
  | head => exact represents.rootStored.held
  | page stored => exact stored.root.held
  | segment held => exact held

/-! ### Every node of the index is reached -/

theorem Reaches.kid {kids : List Link} {kind' : Kind}
    (stored : Stored ipld holds w (dirNodeNode ⟨kids⟩))
    (reached : Reaches ipld root kind (dirCid ipld kids)) (kid : some c ∈ kids)
    (links : ∀ {block node}, decodeDirNode ipld block = .ok node → some c ∈ node.kids →
      LinksTo ipld block kind kind' c) : Reaches ipld root kind' c :=
  .step reached (links stored.decodes_dirNode (trimTrailingNulls_mem.mpr kid))

theorem Reaches.tree (positive : 0 < radix) {level : Nat} {es : List Link}
    (stored : PagesStored ipld radix holds w level es)
    (reached : Reaches ipld root (.page (level + 1)) (pageCid ipld radix level es)) :
    (∀ kids ∈ pagesOf ipld radix level es, ∃ kind, Reaches ipld root kind (dirCid ipld kids)) ∧
      ∀ c, some c ∈ es → Reaches ipld root .segment c := by
  induction level generalizing es with
  | zero =>
    refine ⟨fun kids member => ?_, fun c member => ?_⟩
    · simp only [pagesOf, List.mem_singleton] at member
      subst member
      exact ⟨_, reached⟩
    · exact reached.kid stored.root member .leaf
  | succ level ih =>
    have cap : 0 < radix ^ (level + 1) := Nat.pow_pos positive
    have child : ∀ j, j < chunkCount (radix ^ (level + 1)) es.length →
        (∀ kids ∈ pagesOf ipld radix level (chunk (radix ^ (level + 1)) j es),
          ∃ kind, Reaches ipld root kind (dirCid ipld kids)) ∧
        ∀ c, some c ∈ chunk (radix ^ (level + 1)) j es → Reaches ipld root .segment c := by
      intro j inside
      refine ih (stored.child inside) (reached.kid stored.root ?_ .child)
      exact List.mem_of_getElem? (pageKids_getElem inside)
    refine ⟨fun kids member => ?_, fun c member => ?_⟩
    · simp only [pagesOf, List.mem_cons, List.mem_flatMap, List.mem_range] at member
      rcases member with rfl | ⟨j, inside, member⟩
      · exact ⟨_, reached⟩
      · exact (child j inside).1 kids member
    · have covers : es.length ≤ chunkCount (radix ^ (level + 1)) es.length *
          radix ^ (level + 1) := by
        have outside := Nat.lt_irrefl (chunkCount (radix ^ (level + 1)) es.length)
        rw [lt_chunkCount_iff cap] at outside
        omega
      rw [← flatMap_chunk _ es covers, List.mem_flatMap] at member
      obtain ⟨j, inside, member⟩ := member
      exact (child j (List.mem_range.mp inside)).2 c member

theorem Represents.node_reached (represents : Represents ipld params holds w m)
    (at_root : w.cur.root = some root) {n : Node} (node : IndexNode ipld params m n) :
    ∃ kind, Reaches ipld root kind (cidOf ipld n) := by
  have same : root = cidOf ipld (rootNode ipld params m) := by
    rw [represents.root] at at_root
    exact (Option.some.inj at_root).symm
  have start : Reaches ipld root .head (cidOf ipld (rootNode ipld params m)) := same ▸ .root
  have decodes := represents.rootStored.decodes_root represents.valid represents.usable
  have state := represents.state
  rcases node with rfl | body
  · exact ⟨_, start⟩
  -- Below the Head block, the directory reaches the pages and the sealed segments.
  have tree : ∀ {s level : Nat}, m.coverage = some s → w.cur.dirDepth = level + 1 →
      Reaches ipld root (.page (level + 1)) (pageCid ipld (2 ^ params.fanoutBits) level
        (sealedEntries ipld params m.rows s)) := by
    intro s level covered depth
    have canonical := represents.dirOf covered
    have headDepth : (bareState ipld params m).headObject.dirDepth = level + 1 := by
      rw [← state, ← depth]
      rfl
    rw [← headDepth]
    refine .step start (.dir decodes ?_)
    rw [← state]
    change w.cur.dir = _
    rw [canonical.link, depth]
    rfl
  cases body with
  | @page s kids covered member =>
    have canonical := represents.dirOf covered
    have least := canonical.least.unique (canonicalDepth_isDepth represents.usable.fanout_pos)
    rw [dirPages, ← least] at member
    cases depth : w.cur.dirDepth with
    | zero =>
      rw [depth] at member
      cases member
    | succ level =>
      rw [depth] at member
      exact ((tree covered depth).tree (Nat.two_pow_pos _)
        (canonical.stored level depth)).1 kids member
  | @sealed s win covered based below rows =>
    have canonical := represents.dirOf covered
    have entry : some (segCid params.segBits ipld m.rows win) ∈
        sealedEntries ipld params m.rows s := by
      apply List.mem_of_getElem?
      unfold sealedEntries
      rw [entriesOf_getElem ipld m.rows based below, entryOf, if_neg rows]
    cases depth : w.cur.dirDepth with
    | zero =>
      have none := canonical.least.zero_iff.mp depth
      rw [List.length_eq_zero_iff.mp none] at entry
      cases entry
    | succ level =>
      exact ⟨_, ((tree covered depth).tree (Nat.two_pow_pos _)
        (canonical.stored level depth)).2 _ entry⟩
  | @opened s covered =>
    refine ⟨_, .step start (.opened decodes ?_)⟩
    rw [← state]
    exact represents.openCid_eq covered

end Canonical

end Bloar.Archive
