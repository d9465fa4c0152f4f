import Bloar.Published

/-!
What an admitted index says. The segments behind a formed Head hold rows in the
order of their windows; put one after the other they are valid contents, and the
index is the one these contents determine up to the encoding of its blocks.
-/

namespace Bloar.Archive
open Ipld Schema Arith Fallible RadixList

variable {σ : Type}

/-! ### Rows by window -/

def sealedOf (segBits : Nat) (rows : List Row) (win : Nat) : Option Segment :=
  if windowRows segBits rows win = [] then none else some (segOf segBits rows win)

def sealedSegments (params : Params) (rows : List Row) (s : Nat) : List (Option Segment) :=
  (List.range (openWindow params s - params.base)).map fun i =>
    sealedOf params.segBits rows (params.base + i)

def rowsOf (segments : List (Option Segment)) : List Row :=
  segments.flatMap fun sg => sg.elim [] Segment.rows

def Shelved (params : Params) : Nat → List (Option Segment) → Prop
  | _, [] => True
  | window, sg :: rest =>
    (∀ s ∈ sg, s.slot0 = window * 2 ^ params.segBits ∧ s.rows ≠ [] ∧ s.Valid ∧
      ∀ r ∈ s.rows, ord r.slot params.segBits = window ∧ params.originSlot ≤ r.slot) ∧
    Shelved params (window + 1) rest

variable {segments : List (Option Segment)}

section Rows
variable {ipld : Codec} {params : Params}

variable {window i : Nat}

variable (shelved : Shelved params window segments)
include shelved

theorem Shelved.rows {r : Row} (member : r ∈ rowsOf segments) :
    window ≤ ord r.slot params.segBits ∧ ord r.slot params.segBits < window + segments.length ∧
      params.originSlot ≤ r.slot ∧ Admitted r := by
  induction segments generalizing window with
  | nil => simp [rowsOf] at member
  | cons sg rest ih =>
    obtain ⟨first, others⟩ := shelved
    simp only [rowsOf, List.flatMap_cons, List.mem_append] at member
    rw [List.length_cons]
    rcases member with here | later
    · cases sg with
      | none => simp at here
      | some s =>
        obtain ⟨-, -, valid, rows⟩ := first s rfl
        obtain ⟨same, origin⟩ := rows r here
        have row := valid.each r here
        exact ⟨by omega, by omega, origin, row.filled, row.ceiling, row.defined⟩
    · obtain ⟨low, high, rest⟩ := ih others later
      exact ⟨by omega, by omega, rest⟩

theorem Shelved.ascending : (rowsOf segments).Pairwise fun a b => a.slot < b.slot := by
  induction segments generalizing window with
  | nil => exact .nil
  | cons sg rest ih =>
    obtain ⟨first, others⟩ := shelved
    change (sg.elim [] Segment.rows ++ rowsOf rest).Pairwise _
    rw [List.pairwise_append]
    refine ⟨?_, ih others, fun a here b later => ?_⟩
    · cases sg with
      | none => exact .nil
      | some s => exact (first s rfl).2.2.1.ascending
    · cases sg with
      | none => simp at here
      | some s =>
        have same := ((first s rfl).2.2.2 a here).1
        have after := (others.rows later).1
        by_contra behind
        have le := ord_mono params.segBits (Nat.le_of_not_lt behind)
        omega

theorem Shelved.windowRows_eq (inside : i < segments.length) :
    windowRows params.segBits (rowsOf segments) (window + i) =
      (segments[i]?.join).elim [] Segment.rows := by
  induction segments generalizing window i with
  | nil => simp at inside
  | cons sg rest ih =>
    obtain ⟨first, others⟩ := shelved
    change windowRows params.segBits (sg.elim [] Segment.rows ++ rowsOf rest) _ = _
    rw [windowRows_append]
    cases i with
    | zero =>
      have later : windowRows params.segBits (rowsOf rest) window = [] := by
        refine windowRows_eq_nil fun r member same => ?_
        have after := (others.rows member).1
        omega
      rw [Nat.add_zero, later, List.append_nil]
      cases sg with
      | none => rfl
      | some s =>
        refine List.filter_eq_self.mpr fun r member => ?_
        simpa using ((first s rfl).2.2.2 r member).1
    | succ i =>
      have here : windowRows params.segBits (sg.elim [] Segment.rows) (window + (i + 1)) = [] := by
        refine windowRows_eq_nil fun r member same => ?_
        cases sg with
        | none => simp at member
        | some s =>
          have at_window := ((first s rfl).2.2.2 r member).1
          omega
      rw [here, List.nil_append, show window + (i + 1) = window + 1 + i by omega]
      exact ih others (by simpa using inside)

theorem Shelved.getElem {s : Segment} (at_i : segments[i]? = some (some s)) :
    s.slot0 = (window + i) * 2 ^ params.segBits ∧ s.rows ≠ [] := by
  induction segments generalizing window i with
  | nil => simp at at_i
  | cons sg rest ih =>
    obtain ⟨first, others⟩ := shelved
    cases i with
    | zero =>
      have found := first s (by simpa using at_i)
      exact ⟨found.1, found.2.1⟩
    | succ i =>
      rw [show window + (i + 1) = window + 1 + i by omega]
      exact ih others (by simpa using at_i)

theorem Shelved.sealedOf_eq {extra : List Row}
    (beyond : ∀ r ∈ extra, window + segments.length ≤ ord r.slot params.segBits)
    (inside : i < segments.length) :
    sealedOf params.segBits (rowsOf segments ++ extra) (window + i) = segments[i] := by
  have late : windowRows params.segBits extra (window + i) = [] :=
    windowRows_eq_nil fun r member same => by
      have after := beyond r member
      omega
  have rows := shelved.windowRows_eq inside
  have found := List.getElem?_eq_getElem inside
  rw [found, Option.join_some] at rows
  rw [sealedOf, segOf, windowRows_append, late, List.append_nil, rows]
  cases here : segments[i] with
  | none => rfl
  | some s =>
    obtain ⟨slot0, filled⟩ := shelved.getElem (found.trans (congrArg some here))
    rw [Option.elim_some, ← slot0]
    exact if_neg filled

omit shelved

theorem SegmentAt.shelves {c : Cid} {s : Segment}
    (placed : SegmentAt ipld params c window (windowEnd window params.segBits) false s)
    (small : (window + 1) * 2 ^ params.segBits ≤ 2 ^ 63) :
    s.slot0 = window * 2 ^ params.segBits ∧ s.rows ≠ [] ∧ s.Valid ∧
      ∀ r ∈ s.rows, ord r.slot params.segBits = window ∧ params.originSlot ≤ r.slot := by
  have step : (window + 1) * 2 ^ params.segBits = window * 2 ^ params.segBits + 2 ^ params.segBits :=
    Nat.succ_mul _ _
  have positive := Nat.two_pow_pos params.segBits
  obtain ⟨block, -, -, decoded, -⟩ := placed.segment
  have start : s.slot0 = window * 2 ^ params.segBits :=
    placed.slot0.trans (windowStart_eq (by omega))
  refine ⟨start, placed.filled rfl, (decodeSegment_encodable decoded).toValid, fun r member => ?_⟩
  obtain ⟨low, high⟩ := placed.rows r member
  rw [windowEnd_eq (by omega)] at high
  exact ⟨ord_eq_iff.mpr ⟨by omega, by omega⟩, by omega⟩

theorem SealedAt.collect {es : List Link} (sealed : SealedAt ipld params window es)
    (small : (window + es.length) * 2 ^ params.segBits ≤ 2 ^ 63) :
    ∃ segments, List.Forall₂ (Option.Rel (IsSegment ipld)) es segments ∧
      Shelved params window segments := by
  induction es generalizing window with
  | nil => exact ⟨[], .nil, trivial⟩
  | cons entry rest ih =>
    obtain ⟨first, others⟩ := sealedAt_cons_iff.mp sealed
    rw [List.length_cons] at small
    obtain ⟨segments, read, shelved⟩ := ih others (by
      rwa [show window + 1 + rest.length = window + (rest.length + 1) by omega])
    cases entry with
    | none => exact ⟨none :: segments, .cons .none read, by simp, shelved⟩
    | some c =>
      obtain ⟨s, placed⟩ := first c rfl
      refine ⟨some s :: segments, .cons (.some placed.segment) read, ?_, shelved⟩
      rintro _ ⟨⟩
      refine placed.shelves (Nat.le_trans (Nat.mul_le_mul_right _ ?_) small)
      omega

end Rows

/-! ### The contents of a formed Head -/

structure OpenAt (params : Params) (s : Nat) (sg : Segment) : Prop where
  slot0 : sg.slot0 = openWindow params s * 2 ^ params.segBits
  valid : sg.Valid
  rows : ∀ r ∈ sg.rows,
    ord r.slot params.segBits = openWindow params s ∧ params.originSlot ≤ r.slot ∧ r.slot ≤ s

/-- The index of a Head covered up to `s` holds these rows. -/
structure Means (ipld : Codec) (h : Schema.Head) (opened : Cid) (es : List Link) (s : Nat)
    (rows : List Row) : Prop where
  valid : Contents.Valid (paramsOf h) ⟨some s, rows⟩
  opened : IsSegment ipld opened (segOf h.segBits rows (openWindow (paramsOf h) s))
  sealed : List.Forall₂ (Option.Rel (IsSegment ipld)) es (sealedSegments (paramsOf h) rows s)

section Means
variable {ipld : Codec} {params : Params} {root opened : Cid} {h : Schema.Head} {es : List Link}
variable {s : Nat} {sg : Segment} {segments : List (Option Segment)}

theorem SegmentAt.opens
    (placed : SegmentAt ipld params opened (ord (s + 1) params.segBits) s true sg)
    (small : s ≤ maxInt64) : OpenAt params s sg := by
  have start := le_ord_iff.mp (Nat.le_refl (ord (s + 1) params.segBits))
  rw [maxInt64_eq] at small
  have slot0 : sg.slot0 = openWindow params s * 2 ^ params.segBits :=
    placed.slot0.trans (windowStart_eq (by omega))
  obtain ⟨block, -, -, decoded, -⟩ := placed.segment
  refine ⟨slot0, (decodeSegment_encodable decoded).toValid, fun r member => ?_⟩
  obtain ⟨low, high⟩ := placed.rows r member
  rw [slot0] at low
  have lower := le_ord_iff.mpr (Nat.le_trans (Nat.le_max_left _ _) low)
  have upper := ord_mono params.segBits (show r.slot ≤ s + 1 by omega)
  exact ⟨Nat.le_antisymm upper lower, Nat.le_trans (Nat.le_max_right _ _) low, high⟩

/-- An open segment that a Head can link ends before the last IPLD integer. -/
theorem OpenAt.bounded (stands : OpenAt params s sg) (seg : params.segBits ≤ 63)
    (start : sg.slot0 ≤ maxInt64) (small : s ≤ maxInt64) : s < maxInt64 := by
  by_contra last
  have next : s + 1 = 2 ^ (63 - params.segBits) * 2 ^ params.segBits := by
    rw [← Nat.pow_add, Nat.sub_add_cancel seg]
    rw [maxInt64_eq] at last small
    omega
  rw [stands.slot0, openWindow, next, ord_eq_div,
    Nat.mul_div_cancel _ (Nat.two_pow_pos _), ← next, maxInt64_eq] at start
  rw [maxInt64_eq] at last
  omega

theorem Shelved.contents (shelved : Shelved params params.base segments)
    (count : params.base + segments.length = openWindow params s) (stands : OpenAt params s sg)
    (origin : params.originSlot ≤ s) (bounded : s < maxInt64) :
    Contents.Valid params ⟨some s, rowsOf segments ++ sg.rows⟩ := by
  have early : ∀ r ∈ rowsOf segments, ord r.slot params.segBits < openWindow params s := by
    intro r member
    have high := (shelved.rows member).2.1
    omega
  have ends : ∀ r ∈ rowsOf segments, r.slot ≤ s := by
    intro r member
    have before := early r member
    by_contra behind
    have le := ord_mono params.segBits (show s + 1 ≤ r.slot by omega)
    rw [openWindow] at before
    omega
  refine ⟨List.pairwise_append.mpr ⟨shelved.ascending, stands.valid.ascending, ?_⟩, ?_, ?_, ?_, ?_, ?_⟩
  · intro a first b second
    have before := early a first
    have after := (stands.rows b second).1
    by_contra behind
    have le := ord_mono params.segBits (Nat.le_of_not_lt behind)
    omega
  · intro r member
    rcases List.mem_append.mp member with first | second
    · exact (shelved.rows first).2.2.2
    · have row := stands.valid.each r second
      exact ⟨row.filled, row.ceiling, row.defined⟩
  · intro r member
    rcases List.mem_append.mp member with first | second
    · exact (shelved.rows first).2.2.1
    · exact (stands.rows r second).2.1
  · intro r member
    refine ⟨s, rfl, ?_⟩
    rcases List.mem_append.mp member with first | second
    · exact ends r first
    · exact (stands.rows r second).2.2
  · rintro _ ⟨⟩
    exact origin
  · rintro _ ⟨⟩
    exact bounded

theorem Shelved.sealedSegments_eq (shelved : Shelved params params.base segments)
    (count : params.base + segments.length = openWindow params s) (stands : OpenAt params s sg) :
    sealedSegments params (rowsOf segments ++ sg.rows) s = segments := by
  have length : openWindow params s - params.base = segments.length := by omega
  refine List.ext_getElem (by simp [sealedSegments, length]) fun i _ inside => ?_
  simp only [sealedSegments, List.getElem_map, List.getElem_range]
  refine shelved.sealedOf_eq (fun r member => ?_) inside
  rw [count, (stands.rows r member).1]

theorem OpenAt.segOf_eq (stands : OpenAt params s sg) (shelved : Shelved params params.base segments)
    (count : params.base + segments.length = openWindow params s) :
    segOf params.segBits (rowsOf segments ++ sg.rows) (openWindow params s) = sg := by
  have before : windowRows params.segBits (rowsOf segments) (openWindow params s) = [] :=
    windowRows_eq_nil fun r member same => by
      have high := (shelved.rows member).2.1
      omega
  have here : windowRows params.segBits sg.rows (openWindow params s) = sg.rows :=
    List.filter_eq_self.mpr fun r member => by simpa using (stands.rows r member).1
  rw [segOf, windowRows_append, before, here, List.nil_append, ← stands.slot0]

theorem Formed.means (formed : Formed ipld h opened es) (isHead : IsHead ipld root h)
    (usable : UsableHead h) (covered : h.syncedTo = some s) :
    ∃ segments sg, List.Forall₂ (Option.Rel (IsSegment ipld)) es segments ∧
      IsSegment ipld opened sg ∧ Means ipld h opened es s (rowsOf segments ++ sg.rows) := by
  obtain ⟨block, -, -, decoded⟩ := isHead
  have encodable := decodeHead_encodable decoded
  have small := encodable.syncedInt s covered
  obtain ⟨sg, placed⟩ := formed.segment
  have total := formed.total
  rw [covered, Option.getD_some] at total placed
  have stands : OpenAt (paramsOf h) s sg := placed.opens small
  obtain ⟨segments, read, shelved⟩ := formed.sealed.collect (by
    change (ord h.originSlot h.segBits + es.length) * 2 ^ h.segBits ≤ 2 ^ 63
    have start := le_ord_iff.mp (Nat.le_refl (ord (s + 1) h.segBits))
    rw [maxInt64_eq] at small
    rw [total]
    omega)
  have count : (paramsOf h).base + segments.length = openWindow (paramsOf h) s := by
    rw [← read.length_eq]
    exact total
  obtain ⟨openBlock, -, -, openDecoded, -⟩ := id placed.segment
  have bounded := stands.bounded usable.seg_le (decodeSegment_encodable openDecoded).slot0 small
  refine ⟨segments, sg, read, placed.segment,
    shelved.contents count stands (encodable.synced s covered) bounded, ?_, ?_⟩
  · have same := stands.segOf_eq shelved count
    change IsSegment ipld opened (segOf (paramsOf h).segBits _ _)
    rw [same]
    exact placed.segment
  · rw [shelved.sealedSegments_eq count stands]
    exact read

end Means

/-! ### Decoded trees -/

def PageTree : Nat → Type
  | 0 => List (Option Segment)
  | level + 1 => List (Option (PageTree level))

structure HeadTree where
  params : Params
  coverage : Option Nat
  opened : Option Segment
  dir : Option (Σ level, PageTree level)

def PageRead (ipld : Codec) : (level : Nat) → Cid → PageTree level → Prop
  | 0, c, tree =>
    ∃ page, IsPage ipld c page ∧ List.Forall₂ (Option.Rel (IsSegment ipld)) page.kids tree
  | level + 1, c, tree =>
    ∃ page, IsPage ipld c page ∧ List.Forall₂ (Option.Rel (PageRead ipld level)) page.kids tree

inductive DirRead (ipld : Codec) (h : Schema.Head) : Option (Σ level, PageTree level) → Prop where
  | flat (depth : h.dirDepth = 0) : DirRead ipld h none
  | page {level : Nat} {c : Cid} {tree : PageTree level} (depth : h.dirDepth = level + 1)
      (dir : h.dir = some c) (read : PageRead ipld level c tree) :
      DirRead ipld h (some ⟨level, tree⟩)

structure HeadTree.Read (ipld : Codec) (root : Cid) (tree : HeadTree) (h : Schema.Head) : Prop where
  isHead : IsHead ipld root h
  params : tree.params = paramsOf h
  coverage : tree.coverage = h.syncedTo
  opened : Option.Rel (IsSegment ipld) h.openCid tree.opened
  dir : DirRead ipld h tree.dir

/-- The tree of a page over these segments: trailing nulls trimmed in a leaf, one kid
for each chunk above. -/
def pageTree (radix : Nat) : (level : Nat) → List (Option Segment) → PageTree level
  | 0, segments => segments.rdropWhile fun sg => !sg.isSome
  | level + 1, segments =>
    (List.range (chunkCount (radix ^ (level + 1)) segments.length)).map fun j =>
      some (pageTree radix level (chunk (radix ^ (level + 1)) j segments))

def dirTree (radix : Nat) (depth : Nat) (segments : List (Option Segment)) :
    Option (Σ level, PageTree level) :=
  match depth with
  | 0 => none
  | level + 1 => some ⟨level, pageTree radix level segments⟩

def treeOf (params : Params) (m : Contents) : HeadTree :=
  match m.coverage with
  | none => { params, coverage := none, opened := none, dir := none }
  | some s =>
    let segments := sealedSegments params m.rows s
    { params, coverage := some s
      opened := some (segOf params.segBits m.rows (openWindow params s))
      dir := dirTree (2 ^ params.fanoutBits) (canonicalDepth segments.length params.fanoutBits)
        segments }

section Trees
variable {ipld : Codec} {radix : Nat}

variable {α β : Type} {R : α → β → Prop} {level : Nat} {c : Cid}

theorem forall₂_rel_rdropWhile {xs : List (Option α)} {ys : List (Option β)}
    (related : List.Forall₂ (Option.Rel R) xs ys) :
    List.Forall₂ (Option.Rel R) (xs.rdropWhile fun x => !x.isSome)
      (ys.rdropWhile fun y => !y.isSome) := by
  have front : ∀ {xs : List (Option α)} {ys : List (Option β)}, List.Forall₂ (Option.Rel R) xs ys →
      List.Forall₂ (Option.Rel R) (xs.dropWhile fun x => !x.isSome)
        (ys.dropWhile fun y => !y.isSome) := by
    intro xs ys related
    induction related with
    | nil => exact .nil
    | cons pair rest ih =>
      cases pair with
      | none => exact ih
      | some pair => exact .cons (.some pair) rest
  exact List.forall₂_reverse_iff.mpr (front (List.forall₂_reverse_iff.mpr related))

theorem rel_unique (unique : Relator.RightUnique R) : Relator.RightUnique (Option.Rel R) := by
  intro x y z first second
  cases first with
  | none => cases second; rfl
  | some first =>
    cases second with
    | some second => rw [unique first second]

theorem PageRead.unique {tree tree' : PageTree level} (first : PageRead ipld level c tree)
    (second : PageRead ipld level c tree') : tree = tree' := by
  induction level generalizing c with
  | zero =>
    obtain ⟨page, isPage, kids⟩ := first
    obtain ⟨page', isPage', kids'⟩ := second
    obtain rfl := isPage.unique isPage'
    have segments : Relator.RightUnique (IsSegment ipld) := fun _ _ _ => IsSegment.unique
    exact (rel_unique segments).forall₂ kids kids'
  | succ level ih =>
    obtain ⟨page, isPage, kids⟩ := first
    obtain ⟨page', isPage', kids'⟩ := second
    obtain rfl := isPage.unique isPage'
    have pages : Relator.RightUnique (PageRead ipld level) := fun _ _ _ first second =>
      ih first second
    exact (rel_unique pages).forall₂ kids kids'

theorem HeadTree.Read.unique {root : Cid} {tree tree' : HeadTree} {h h' : Schema.Head}
    (first : tree.Read ipld root h) (second : tree'.Read ipld root h') : tree = tree' := by
  obtain ⟨isHead, params, coverage, opened, dir⟩ := first
  obtain ⟨isHead', params', coverage', opened', dir'⟩ := second
  obtain rfl := isHead.unique isHead'
  obtain ⟨_, _, openTree, dirTree⟩ := tree
  obtain ⟨_, _, openTree', dirTree'⟩ := tree'
  obtain rfl : openTree = openTree' :=
    rel_unique (R := IsSegment ipld) (fun _ _ _ => IsSegment.unique) opened opened'
  obtain rfl : dirTree = dirTree' := by
    cases dir with
    | flat depth =>
      cases dir' with
      | flat => rfl
      | page depth' => omega
    | page depth link read =>
      cases dir' with
      | flat depth' => omega
      | page depth' link' read' =>
        rw [depth] at depth'
        cases depth'
        rw [link] at link'
        cases link'
        rw [read.unique read']
  change _ = _ at params params'
  simp_all

theorem PageAt.read (positive : 0 < radix) {es : List Link} (page : PageAt ipld radix level c es)
    (read : List.Forall₂ (Option.Rel (IsSegment ipld)) es segments) :
    PageRead ipld level c (pageTree radix level segments) := by
  induction level generalizing c es segments with
  | zero => exact ⟨_, page.2, forall₂_rel_rdropWhile read⟩
  | succ level ih =>
    obtain ⟨node, isPage, laid⟩ := page
    have cap : 0 < radix ^ (level + 1) := Nat.pow_pos positive
    have count := laid.length cap
    refine ⟨node, isPage, List.forall₂_iff_get.mpr ⟨?_, fun j inside inside' => ?_⟩⟩
    · simp only [pageTree, List.length_map, List.length_range, count, read.length_eq]
    · have within := (lt_chunkCount_iff cap j es.length).mp (count ▸ inside)
      obtain ⟨kid, at_j, below⟩ := laid.getElem within
      have link : node.kids.get ⟨j, inside⟩ = some kid := by
        rw [List.get_eq_getElem]
        exact (List.getElem?_eq_some_iff.mp at_j).2
      rw [link]
      simp only [pageTree, List.get_eq_getElem, List.getElem_map, List.getElem_range]
      refine .some (ih below ?_)
      exact List.forall₂_take _ (List.forall₂_drop _ read)

end Trees

/-! ### Admissible heads and their contents -/

structure Holding (ipld : Codec) (h : Schema.Head) (es : List Link) (m : Contents) : Prop where
  valid : m.Valid (paramsOf h)
  coverage : m.coverage = h.syncedTo
  covered : ∀ s, m.coverage = some s →
    ∃ opened, h.openCid = some opened ∧ Means ipld h opened es s m.rows

section Holding
variable {ipld : Codec} {root : Cid} {h : Schema.Head} {es : List Link} {m : Contents}
variable {params : Params} {holds : World σ → Cid → Prop} {w : World σ}

theorem Admissible.holding (admissible : Admissible ipld h es) (isHead : IsHead ipld root h)
    (usable : UsableHead h) :
    ∃ segments opened, List.Forall₂ (Option.Rel (IsSegment ipld)) es segments ∧
      Option.Rel (IsSegment ipld) h.openCid opened ∧
      Holding ipld h es ⟨h.syncedTo, rowsOf segments ++ opened.elim [] Segment.rows⟩ := by
  cases admissible with
  | uncovered bare _ _ openCid =>
    refine ⟨[], none, .nil, by rw [openCid]; exact .none, ?_, rfl, ?_⟩
    · rw [bare]
      exact .empty _
    · intro s covered
      rw [bare] at covered
      cases covered
  | covered covered _ _ formed =>
    obtain ⟨s, synced⟩ := Option.isSome_iff_exists.mp covered
    obtain ⟨segments, sg, read, opened, means⟩ := formed.means isHead usable synced
    refine ⟨segments, some sg, read, by rw [formed.openCid]; exact .some opened, ?_, rfl, ?_⟩
    · rw [synced]
      exact means.valid
    · intro other same
      rw [synced] at same
      cases same
      exact ⟨_, formed.openCid, means⟩

theorem Holding.read (holding : Holding ipld h es m) (admissible : Admissible ipld h es)
    (isHead : IsHead ipld root h) (positive : 0 < h.fanoutBits) :
    (treeOf (paramsOf h) m).Read ipld root h := by
  cases coverage : m.coverage with
  | none =>
    have bare := holding.coverage.symm.trans coverage
    cases admissible with
    | covered covered => simp [bare] at covered
    | uncovered _ depth _ openCid =>
      have tree : treeOf (paramsOf h) m =
          { params := paramsOf h, coverage := none, opened := none, dir := none } := by
        simp [treeOf, coverage]
      rw [tree]
      exact ⟨isHead, rfl, bare.symm, by rw [openCid]; exact .none, .flat depth⟩
  | some s =>
    have synced := holding.coverage.symm.trans coverage
    obtain ⟨opened, openCid, means⟩ := holding.covered s coverage
    cases admissible with
    | uncovered bare =>
      rw [bare] at synced
      cases synced
    | covered _ _ depth formed =>
      have count := means.sealed.length_eq
      rw [count] at depth
      have deep := (canonicalDepth_eq_iff positive).mpr depth
      have tree : treeOf (paramsOf h) m =
          { params := paramsOf h
            coverage := some s
            opened := some (segOf h.segBits m.rows (openWindow (paramsOf h) s))
            dir := dirTree (2 ^ h.fanoutBits) h.dirDepth
              (sealedSegments (paramsOf h) m.rows s) } := by
        rw [deep, treeOf, coverage]
        rfl
      rw [tree]
      refine ⟨isHead, rfl, synced.symm, by rw [openCid]; exact .some means.opened, ?_⟩
      cases levels : h.dirDepth with
      | zero => exact .flat levels
      | succ level =>
        obtain ⟨c, dir, page⟩ := formed.dir level levels
        exact .page levels dir (page.read (Nat.two_pow_pos _) means.sealed)

variable (represents : Represents ipld params holds w m)
include represents

theorem Represents.isSegment {s win : Nat} (covered : m.coverage = some s)
    (le : win ≤ openWindow params s)
    (stored : Stored ipld holds w (segmentNode (segOf params.segBits m.rows win)))
    (raws : RawBlobs m.rows) :
    IsSegment ipld (segCid params.segBits ipld m.rows win) (segOf params.segBits m.rows win) :=
  stored.isSegment (represents.open_encodable covered le) fun r member =>
    raws r (mem_windowRows.mp member).1

theorem Represents.read_sealed {s : Nat} (covered : m.coverage = some s) (raws : RawBlobs m.rows) :
    List.Forall₂ (Option.Rel (IsSegment ipld)) (sealedEntries ipld params m.rows s)
      (sealedSegments params m.rows s) := by
  have based := represents.base_le_open covered
  refine List.forall₂_iff_get.mpr ⟨?_, fun i inside inside' => ?_⟩
  · simp [sealedSegments, length_sealedEntries]
  · have before : params.base + i < openWindow params s := by
      rw [length_sealedEntries] at inside
      omega
    have entry : (sealedEntries ipld params m.rows s)[i]? = _ := sealedEntries_getElem before
    rw [List.getElem?_eq_getElem inside, Option.some.injEq] at entry
    rw [List.get_eq_getElem, entry]
    simp only [sealedSegments, List.get_eq_getElem, List.getElem_map, List.getElem_range]
    by_cases empty : windowRows params.segBits m.rows (params.base + i) = []
    · rw [entryOf, sealedOf, if_pos empty, if_pos empty]
      exact .none
    · rw [entryOf, sealedOf, if_neg empty, if_neg empty]
      have stored := represents.stored _ (.sealed covered (Nat.le_add_right _ _) before empty)
      exact .some (represents.isSegment covered (Nat.le_of_lt before) stored raws)

theorem Represents.holding (raws : RawBlobs m.rows)
    (admissible : Admissible ipld (bareState ipld params m).headObject es) :
    Holding ipld (bareState ipld params m).headObject es m := by
  have same : paramsOf (bareState ipld params m).headObject = params := by
    change (bareState ipld params m).params = params
    exact bareState_params
  refine ⟨by rw [same]; exact represents.valid, ?_, fun s covered => ?_⟩
  · cases coverage : m.coverage with
    | none => simp [bareState, coverage, State.empty, State.headObject]
    | some s => rw [bareState_some coverage]; rfl
  · cases admissible with
    | uncovered bare =>
      rw [bareState_some covered] at bare
      cases bare
    | covered _ _ _ formed =>
      obtain ⟨rfl, rfl⟩ := represents.entries_eq covered formed
      refine ⟨_, formed.openCid, ?_, ?_, ?_⟩
      · rw [same, ← covered]
        exact represents.valid
      · rw [same, bareState_some covered]
        exact represents.isSegment covered (Nat.le_refl _) (represents.open_stored covered) raws
      · rw [same]
        exact represents.read_sealed covered raws

end Holding

/-! ### Reading an admitted index -/

/-- Every index block of the root is read as it is, and reading changes nothing. -/
def Serves (ipld : Codec) (cfg : Config σ) (root : Cid) (s : σ) : Prop :=
  ∀ kind block, Reaches ipld root kind (ipld.nodeCID block) →
    cfg.get (ipld.nodeCID block) s = (.ok block, s)

section Reading
variable {ipld : Codec} {cfg : Config σ} {root : Cid} {w : World σ} {radix : Nat}
variable {h : Schema.Head} {es : List Link} {m : Contents}

variable {kind : Kind} {c : Cid} {text : String} {level : Nat} {p : Cid}

variable (serves : Serves ipld cfg root w.shared)
include serves

theorem Serves.getNode_eq {T : Type} {codec : NodeCodec σ T} {block : Block} {v : T}
    (reached : Reaches ipld root kind (ipld.nodeCID block)) (decoded : codec.decode block = .ok v) :
    getNode cfg codec (some (ipld.nodeCID block)) w = (.ok v, w) := by
  have got : getBlock cfg (ipld.nodeCID block) w = (.ok block, w) := by
    simp [getBlock, serves kind block reached]
  have fetched : decodeBlock cfg codec (ipld.nodeCID block) w = (.ok (v, size block), w) := by
    refine (bind_of_ok got).trans ?_
    simp only [decoded]
    rfl
  exact bind_of_ok fetched

theorem Serves.page {page : DirNode} (reached : Reaches ipld root kind c)
    (isPage : IsPage ipld c page) :
    within text (getNode cfg (dirs ipld) (some c)) w = (.ok page, w) := by
  obtain ⟨block, rfl, -, decoded⟩ := isPage
  have read : getNode cfg (dirs ipld) (some (ipld.nodeCID block)) w = _ :=
    serves.getNode_eq reached decoded
  simp [within, mapError, read]

theorem Serves.segment {sg : Segment} (reached : Reaches ipld root kind c)
    (isSegment : IsSegment ipld c sg) :
    within text (getNode cfg (segs ipld) (some c)) w = (.ok sg, w) := by
  obtain ⟨block, rfl, -, decoded, -⟩ := isSegment
  have read : getNode cfg (segs ipld) (some (ipld.nodeCID block)) w = _ :=
    serves.getNode_eq reached decoded
  simp [within, mapError, read]

theorem Serves.walkDirectory_eq (positive : 0 < radix) {i : Nat}
    (page : PageAt ipld radix level c es) (reached : Reaches ipld root (.page (level + 1)) c)
    (inside : i < radix ^ (level + 1)) :
    walkDirectory ipld cfg (some c) (digits radix (level + 1) i) w = (.ok es[i]?.join, w) := by
  induction level generalizing c es i with
  | zero =>
    have kid := trimTrailingNulls_getElem es i
    rw [Nat.zero_add, Nat.pow_one] at inside
    simp only [digits, Nat.pow_zero, Nat.div_one, walkDirectory]
    refine (bind_of_ok (serves.page reached page.2)).trans ?_
    cases found : (trimTrailingNulls es)[i]?.join with
    | none | some => rw [← kid, found]; rfl
  | succ level ih =>
    obtain ⟨node, isPage, laid⟩ := page
    have cap : 0 < radix ^ (level + 1) := Nat.pow_pos positive
    rw [digits]
    rw [walkDirectory]
    refine (bind_of_ok (serves.page reached isPage)).trans ?_
    by_cases before : i / radix ^ (level + 1) * radix ^ (level + 1) < es.length
    · obtain ⟨kid, at_kid, below⟩ := laid.getElem before
      obtain ⟨block, rfl, -, decoded⟩ := isPage
      simp only [at_kid, Option.join_some]
      rw [← getElem?_chunk cap es i]
      exact ih below (.step reached (.child decoded (List.mem_of_getElem? at_kid)))
        (Nat.mod_lt i cap)
    · have missing : node.kids[i / radix ^ (level + 1)]? = none := by
        rw [List.getElem?_eq_none_iff, laid.length cap]
        by_contra more
        exact before ((lt_chunkCount_iff cap _ _).mp (by omega))
      have start := Nat.div_mul_le_self i (radix ^ (level + 1))
      rw [List.getElem?_eq_none (show es.length ≤ i by omega)]
      simp only [missing, Option.join_none]
      rfl

omit serves

theorem PageAt.reaches (positive : 0 < radix) (page : PageAt ipld radix level c es)
    (reached : Reaches ipld root (.page (level + 1)) c) {link : Cid} (member : some link ∈ es) :
    Reaches ipld root .segment link := by
  induction level generalizing c es with
  | zero =>
    obtain ⟨-, block, rfl, -, decoded⟩ := page
    exact .step reached (.leaf decoded (trimTrailingNulls_mem.mpr member))
  | succ level ih =>
    obtain ⟨node, ⟨block, rfl, -, decoded⟩, laid⟩ := page
    have cap : 0 < radix ^ (level + 1) := Nat.pow_pos positive
    obtain ⟨i, at_i⟩ := List.getElem?_of_mem member
    have inside := (List.getElem?_eq_some_iff.mp at_i).1
    obtain ⟨kid, at_kid, below⟩ := laid.getElem
      (Nat.lt_of_le_of_lt (Nat.div_mul_le_self i (radix ^ (level + 1))) inside)
    refine ih below (.step reached (.child decoded (List.mem_of_getElem? at_kid))) ?_
    rw [← getElem?_chunk cap es i] at at_i
    exact List.mem_of_getElem? at_i

theorem PageAt.reaches_page (positive : 0 < radix) (page : PageAt ipld radix level c es)
    (reached : Reaches ipld root (.page (level + 1)) c) (member : p ∈ pagesUnder ipld level c) :
    ∃ depth, Reaches ipld root (.page depth) p := by
  induction level generalizing c es with
  | zero =>
    obtain rfl := List.mem_singleton.mp member
    exact ⟨_, reached⟩
  | succ level ih =>
    obtain ⟨node, isPage, laid⟩ := page
    rw [pagesUnder, isPage.kidsOf_eq, List.mem_cons, List.mem_flatMap] at member
    rcases member with rfl | ⟨kid, at_kid, below⟩
    · exact ⟨_, reached⟩
    · obtain ⟨child, rfl⟩ := laid.defined kid at_kid
      obtain ⟨j, placed⟩ := laid.kid (Nat.pow_pos positive) at_kid
      obtain ⟨block, rfl, -, decoded⟩ := isPage
      exact ih placed (.step reached (.child decoded at_kid)) below

theorem Formed.mem_headPages_iff {opened : Cid} (formed : Formed ipld h opened es)
    (isHead : IsHead ipld root h) :
    p ∈ headPages ipld h ↔ ∃ depth, Reaches ipld root (.page depth) p := by
  constructor
  · intro member
    cases deep : h.dirDepth with
    | zero => simp [headPages_zero deep] at member
    | succ level =>
      obtain ⟨c, dir, page⟩ := formed.dir level deep
      rw [headPages_eq deep dir] at member
      obtain ⟨block, rfl, -, decoded⟩ := isHead
      refine page.reaches_page (Nat.two_pow_pos _) ?_ member
      rw [← deep]
      exact .step .root (.dir decoded dir)
  · rintro ⟨depth, reached⟩
    have stands := formed.stands isHead reached
    cases stands with
    | page _ _ under => exact under p (mem_pagesUnder_self ..)

theorem Formed.reaches_entry {opened : Cid} (formed : Formed ipld h opened es)
    (isHead : IsHead ipld root h) (least : h.dirDepth = 0 → es = []) (member : some c ∈ es) :
    Reaches ipld root .segment c := by
  cases deep : h.dirDepth with
  | zero => simp [least deep] at member
  | succ level =>
    obtain ⟨top, dir, page⟩ := formed.dir level deep
    obtain ⟨block, rfl, -, decoded⟩ := isHead
    refine page.reaches (Nat.two_pow_pos _) ?_ member
    rw [← deep]
    exact .step .root (.dir decoded dir)

def windowLink (params : Params) (opened : Cid) (es : List Link) (s win : Nat) : Link :=
  if win = openWindow params s then some opened else es[win - params.base]?.join

variable {opened : Cid} {s : Nat}

include serves

variable (isHead : IsHead ipld root h)
include isHead

theorem Serves.sealedSegment_eq (usable : UsableHead h) (formed : Formed ipld h opened es)
    (few : es.length ≤ maxEnumerationOutputs) (depth : IsDepth h.fanoutBits es.length h.dirDepth)
    {win : Nat} (based : (paramsOf h).base ≤ win) :
    sealedSegment ipld cfg (State.ofHead h (some root)) win w =
      (.ok es[win - (paramsOf h).base]?.join, w) := by
  have outputs : maxEnumerationOutputs = 1048576 := rfl
  have narrow : h.fanoutBits < 64 := Nat.lt_of_le_of_lt usable.fanout_le (by decide)
  have shallow : h.dirDepth ≤ 64 := depth.le_64 usable.fanout_pos (by omega)
  obtain ⟨block, rfl, -, decoded⟩ := isHead
  rw [sealedSegment]
  change (if h.dirDepth = 0 ∨ win < (paramsOf h).base then (pure none : Engine σ Link) else _) w = _
  cases deep : h.dirDepth with
  | zero =>
    rw [if_pos (.inl rfl), List.length_eq_zero_iff.mp (depth.zero_iff.mp deep)]
    rfl
  | succ level =>
    obtain ⟨c, dir, page⟩ := formed.dir level deep
    rw [if_neg (by omega)]
    have holds := depth.holds
    let st := State.ofHead h (some (ipld.nodeCID block))
    by_cases fits : win - (paramsOf h).base < 2 ^ (h.fanoutBits * h.dirDepth)
    · have path : pathDigits (win - st.dirBase) st.dirDepth st.params.fanoutBits =
        some (digits (2 ^ h.fanoutBits) h.dirDepth (win - (paramsOf h).base)) :=
          pathDigits_eq narrow shallow fits
      rw [path]
      change walkDirectory ipld cfg h.dir _ w = _
      rw [deep, dir]
      refine serves.walkDirectory_eq (Nat.two_pow_pos _) page ?_ ?_
      · rw [← deep]
        exact .step .root (.dir decoded dir)
      · rwa [← Nat.pow_mul, ← deep]
    · have path : pathDigits (win - st.dirBase) st.dirDepth st.params.fanoutBits = none :=
        pathDigits_none narrow (Nat.le_of_not_lt fits)
      rw [path, List.getElem?_eq_none (by omega)]
      rfl

theorem Serves.openOrd_eq (formed : Formed ipld h opened es) (covered : h.syncedTo = some s) :
    openOrd ipld cfg (State.ofHead h (some root)) w = (.ok (openWindow (paramsOf h) s), w) := by
  obtain ⟨sg, placed⟩ := formed.segment
  obtain ⟨block, rfl, -, decoded⟩ := id isHead
  have small := (decodeHead_encodable decoded).syncedInt s covered
  rw [covered, Option.getD_some] at placed
  have stands : OpenAt (paramsOf h) s sg := placed.opens small
  have reached : Reaches ipld (ipld.nodeCID block) .segment opened :=
    .step .root (.opened decoded formed.openCid)
  have openCid : (State.ofHead h (some (ipld.nodeCID block))).openCid = some opened :=
    formed.openCid
  rw [openOrd, openCid]
  refine (bind_of_ok (serves.segment reached placed.segment)).trans ?_
  rw [stands.slot0, ord_eq_div]
  change (Except.ok (_ * 2 ^ h.segBits / 2 ^ h.segBits), w) = _
  rw [Nat.mul_div_cancel _ (Nat.two_pow_pos _)]

theorem Serves.segmentFor_eq (usable : UsableHead h) (formed : Formed ipld h opened es)
    (few : es.length ≤ maxEnumerationOutputs) (depth : IsDepth h.fanoutBits es.length h.dirDepth)
    (covered : h.syncedTo = some s) {win : Nat} (based : (paramsOf h).base ≤ win) :
    segmentFor ipld cfg (State.ofHead h (some root)) win w =
      (.ok (windowLink (paramsOf h) opened es s win), w) := by
  have present : (State.ofHead h (some root)).covered = true := by
    simp [State.ofHead, covered]
  rw [segmentFor, present, if_neg (by simp)]
  refine (bind_of_ok (serves.openOrd_eq isHead formed covered)).trans ?_
  by_cases last : win = openWindow (paramsOf h) s
  · rw [if_pos last, windowLink, if_pos last]
    change (Except.ok h.openCid, w) = _
    rw [formed.openCid]
  · rw [if_neg last, windowLink, if_neg last]
    exact serves.sealedSegment_eq isHead usable formed few depth based

omit isHead in
omit serves in
theorem Means.link_cases (means : Means ipld h opened es s m.rows) (isHead : IsHead ipld root h)
    (formed : Formed ipld h opened es) (least : h.dirDepth = 0 → es = []) {win : Nat}
    (based : (paramsOf h).base ≤ win) (le : win ≤ openWindow (paramsOf h) s) :
    (windowLink (paramsOf h) opened es s win = none ∧ windowRows h.segBits m.rows win = []) ∨
      ∃ c, windowLink (paramsOf h) opened es s win = some c ∧ Reaches ipld root .segment c ∧
        IsSegment ipld c (segOf h.segBits m.rows win) := by
  obtain ⟨block, rfl, -, decoded⟩ := id isHead
  by_cases last : win = openWindow (paramsOf h) s
  · rw [windowLink, if_pos last, last]
    exact .inr ⟨opened, rfl, .step .root (.opened decoded formed.openCid), means.opened⟩
  · have count := means.sealed.length_eq
    have inside : win - (paramsOf h).base < es.length := by
      rw [count, sealedSegments, List.length_map, List.length_range]
      omega
    have related := means.sealed.get inside (count ▸ inside)
    simp only [sealedSegments, List.get_eq_getElem, List.getElem_map, List.getElem_range] at related
    rw [Nat.add_sub_cancel' based] at related
    rw [windowLink, if_neg last, List.getElem?_eq_getElem inside, Option.join_some]
    cases entry : es[win - (paramsOf h).base] with
    | none =>
      rw [entry, sealedOf] at related
      split at related
      · rename_i empty
        exact .inl ⟨rfl, empty⟩
      · cases related
    | some c =>
      rw [entry, sealedOf] at related
      split at related
      · cases related
      · have member : some c ∈ es := entry ▸ List.getElem_mem inside
        exact .inr ⟨c, rfl, formed.reaches_entry isHead least member,
          Option.rel_some_some.mp related⟩

theorem Serves.lookupRow_covered (usable : UsableHead h) (formed : Formed ipld h opened es)
    (few : es.length ≤ maxEnumerationOutputs) (depth : IsDepth h.fanoutBits es.length h.dirDepth)
    (covered : h.syncedTo = some s) (means : Means ipld h opened es s m.rows) {slot : Nat}
    (origin : h.originSlot ≤ slot) (reached : slot ≤ s) :
    lookupRow ipld cfg (State.ofHead h (some root)) slot w =
      (.ok (.of .found slot, m.rows.find? fun r => r.slot = slot), w) := by
  have based : (paramsOf h).base ≤ ord slot h.segBits := ord_mono _ origin
  have le : ord slot h.segBits ≤ openWindow (paramsOf h) s := ord_mono _ (by omega)
  have least : h.dirDepth = 0 → es = [] := fun flat =>
    List.length_eq_zero_iff.mp (depth.zero_iff.mp flat)
  rw [lookupRow, if_neg (by change ¬ slot < h.originSlot; omega),
    if_neg (by simp [State.ofHead, covered]; omega)]
  refine (bind_of_ok (serves.segmentFor_eq isHead usable formed few depth covered based)).trans ?_
  rcases means.link_cases isHead formed least based le with ⟨link, empty⟩ | ⟨c, link, at_c, segment⟩
  · rw [link, ← windowRows_find h.segBits, empty]
    rfl
  · rw [link]
    refine (bind_of_ok (serves.segment at_c segment)).trans ?_
    obtain ⟨_, _, _, decoded, _⟩ := segment
    rw [searchRows_eq_find (decodeSegment_encodable decoded).ascending]
    exact congrArg (fun row => (Except.ok (Result.of .found slot, row), w)) (windowRows_find _)

end Reading

end Bloar.Archive
