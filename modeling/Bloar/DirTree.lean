import Bloar.Directory

/-!
The canonical directory of a list of entries, and the proof that the directory
functions produce it. A page at level zero lists its entries; a page at level
`l + 1` links one page per chunk of `radix ^ (l + 1)` entries. Appending an
entry to the canonical tree of `es` gives the canonical tree of `es ++ [kid]`,
truncating it to `m` entries gives that of `es.take m`, and shrinking restores
the least depth.
-/

namespace Bloar.Archive
open Ipld Schema Arith Fallible RadixList

variable {σ : Type}

/-! ### Trailing nulls -/

variable (kids : List Link)

theorem trimTrailingNulls_concat_none :
    trimTrailingNulls (kids ++ [none]) = trimTrailingNulls kids :=
  List.rdropWhile_concat_pos _ _ _ (by simp)

theorem trimTrailingNulls_concat_some (c : Cid) :
    trimTrailingNulls (kids ++ [some c]) = kids ++ [some c] :=
  List.rdropWhile_concat_neg _ _ _ (by simp)

theorem trimTrailingNulls_append_replicate (n : Nat) :
    trimTrailingNulls (kids ++ List.replicate n none) = trimTrailingNulls kids := by
  induction n with
  | zero => simp
  | succ n ih =>
    rw [List.replicate_succ', ← List.append_assoc, trimTrailingNulls_concat_none, ih]

theorem trimTrailingNulls_pad : ∃ n, kids = trimTrailingNulls kids ++ List.replicate n none := by
  induction kids using List.reverseRecOn with
  | nil => exact ⟨0, rfl⟩
  | append_singleton rest kid ih =>
    cases kid with
    | some c =>
      refine ⟨0, ?_⟩
      rw [trimTrailingNulls_concat_some]
      simp
    | none =>
      obtain ⟨n, padded⟩ := ih
      refine ⟨n + 1, ?_⟩
      rw [trimTrailingNulls_concat_none, List.replicate_succ', ← List.append_assoc, ← padded]

theorem trimTrailingNulls_of_all_some {kids : List Link} (defined : ∀ kid ∈ kids, kid.isSome) :
    trimTrailingNulls kids = kids := by
  rcases List.eq_nil_or_concat kids with rfl | ⟨front, last, rfl⟩
  · rfl
  · obtain ⟨c, rfl⟩ := Option.isSome_iff_exists.mp (defined last (by simp))
    simpa using trimTrailingNulls_concat_some front c

/-- Trimming hides nothing: a missing kid reads as a null one. -/
theorem trimTrailingNulls_getElem (d : Nat) :
    (trimTrailingNulls kids)[d]?.join = kids[d]?.join := by
  obtain ⟨n, padded⟩ := trimTrailingNulls_pad kids
  conv_rhs => rw [padded]
  rcases Nat.lt_or_ge d (trimTrailingNulls kids).length with inside | outside
  · rw [List.getElem?_append_left inside]
  · rw [List.getElem?_append_right outside, List.getElem?_eq_none outside, List.getElem?_replicate]
    split <;> rfl

theorem trimTrailingNulls_mem {kids : List Link} {c : Cid} :
    some c ∈ trimTrailingNulls kids ↔ some c ∈ kids := by
  obtain ⟨n, padded⟩ := trimTrailingNulls_pad kids
  conv_rhs => rw [padded]
  simp [List.mem_append, List.mem_replicate]

theorem growTo_trimTrailingNulls {kids : List Link} {n : Nat} (long : kids.length ≤ n) :
    growTo (trimTrailingNulls kids) n = kids ++ List.replicate (n - kids.length) none := by
  obtain ⟨k, padded⟩ := trimTrailingNulls_pad kids
  have lengths : kids.length = (trimTrailingNulls kids).length + k := by
    conv_lhs => rw [padded]
    simp
  conv_rhs => rw [padded, List.append_assoc, List.replicate_append_replicate]
  rw [growTo]
  congr 2
  simp only [List.length_append, List.length_replicate]
  omega

theorem trimTrailingNulls_take (m : Nat) :
    trimTrailingNulls ((trimTrailingNulls kids).take m) = trimTrailingNulls (kids.take m) := by
  obtain ⟨n, padded⟩ := trimTrailingNulls_pad kids
  conv_rhs => rw [padded, List.take_append, List.take_replicate]
  rw [trimTrailingNulls_append_replicate]

theorem clampTo_eq_take (n : Nat) : clampTo kids n = kids.take n := by
  unfold clampTo
  split
  · rfl
  · rw [List.take_of_length_le (by omega)]

theorem dirNodeNode_congr {a b : List Link} (same : trimTrailingNulls a = trimTrailingNulls b) :
    dirNodeNode ⟨a⟩ = dirNodeNode ⟨b⟩ := by
  simp [dirNodeNode, same]

/-! ### The canonical tree -/

section Tree
variable (ipld : Codec) (radix : Nat)

def dirCid (kids : List Link) : Cid := cidOf ipld (dirNodeNode ⟨kids⟩)

def pageKids : Nat → List Link → List Link
  | 0, es => es
  | level + 1, es =>
    (List.range (chunkCount (radix ^ (level + 1)) es.length)).map fun j =>
      some (dirCid ipld (pageKids level (chunk (radix ^ (level + 1)) j es)))

def pageCid (level : Nat) (es : List Link) : Cid := dirCid ipld (pageKids ipld radix level es)

def pagesOf : Nat → List Link → List (List Link)
  | 0, es => [es]
  | level + 1, es =>
    pageKids ipld radix (level + 1) es ::
      (List.range (chunkCount (radix ^ (level + 1)) es.length)).flatMap fun j =>
        pagesOf level (chunk (radix ^ (level + 1)) j es)

def PagesStored (holds : World σ → Cid → Prop) (w : World σ) (level : Nat) (es : List Link) : Prop :=
  ∀ kids ∈ pagesOf ipld radix level es, Stored ipld holds w (dirNodeNode ⟨kids⟩)

def IndexLinks (kids : List Link) : Prop := ∀ c, some c ∈ kids → ∃ block, c = ipld.nodeCID block

/-- Some page of at most `radix` links to index blocks exceeds the per-node limit. -/
def BigPage : Prop :=
  ∃ kids : List Link, kids.length ≤ radix ∧ IndexLinks ipld kids ∧
    maxIndexNodeBytes < size (ipld.encode (dirNodeNode ⟨kids⟩))

end Tree

variable {ipld : Codec} {cfg : Config σ} {holds : World σ → Cid → Prop} {unread flaky : Prop}
variable {w w' : World σ}

section Pages
variable {radix level : Nat} {es : List Link}

variable (positive : 0 < radix)

section TreeFacts

theorem pageKids_mem_pagesOf (level : Nat) (es : List Link) :
    pageKids ipld radix level es ∈ pagesOf ipld radix level es := by
  cases level <;> simp [pageKids, pagesOf]

theorem pageKids_succ_defined (level : Nat) (es : List Link) :
    ∀ kid ∈ pageKids ipld radix (level + 1) es, kid.isSome := by
  intro kid member
  simp only [pageKids, List.mem_map] at member
  obtain ⟨j, -, rfl⟩ := member
  rfl

theorem length_pageKids_succ (level : Nat) (es : List Link) :
    (pageKids ipld radix (level + 1) es).length =
      chunkCount (radix ^ (level + 1)) es.length := by
  simp [pageKids]

variable {j : Nat}

include positive in
theorem length_pageKids_le (fits : es.length ≤ radix ^ (level + 1)) :
    (pageKids ipld radix level es).length ≤ radix := by
  cases level with
  | zero => simpa [pageKids] using fits
  | succ level =>
    rw [length_pageKids_succ]
    apply chunkCount_le (Nat.pow_pos positive)
    rw [Nat.mul_comm, ← Nat.pow_succ]
    exact fits

theorem pageKids_getElem (inside : j < chunkCount (radix ^ (level + 1)) es.length) :
    (pageKids ipld radix (level + 1) es)[j]? =
      some (some (pageCid ipld radix level (chunk (radix ^ (level + 1)) j es))) := by
  simp [pageKids, List.getElem?_map, List.getElem?_range inside, pageCid]

theorem IndexLinks.sub {kids kids' : List Link} (links : IndexLinks ipld kids)
    (sub : ∀ kid ∈ kids', kid ∈ kids) : IndexLinks ipld kids' :=
  fun c member => links c (sub _ member)

theorem pageKids_succ_indexLinks (level : Nat) (es : List Link) :
    IndexLinks ipld (pageKids ipld radix (level + 1) es) := by
  intro c member
  simp only [pageKids, List.mem_map, Option.some.injEq] at member
  obtain ⟨j, -, rfl⟩ := member
  exact ⟨_, rfl⟩

theorem mem_of_mem_chunk {cap : Nat} {e : Link} (member : e ∈ chunk cap j es) : e ∈ es :=
  List.mem_of_mem_drop (List.mem_of_mem_take member)

theorem PagesStored.mono (stored : PagesStored ipld radix holds w level es)
    (grows : Grows holds w w') : PagesStored ipld radix holds w' level es :=
  fun kids member => (stored kids member).mono grows

theorem PagesStored.root (stored : PagesStored ipld radix holds w level es) :
    Stored ipld holds w (dirNodeNode ⟨pageKids ipld radix level es⟩) :=
  stored _ (pageKids_mem_pagesOf level es)

theorem PagesStored.child (stored : PagesStored ipld radix holds w (level + 1) es)
    (inside : j < chunkCount (radix ^ (level + 1)) es.length) :
    PagesStored ipld radix holds w level (chunk (radix ^ (level + 1)) j es) := by
  intro kids member
  apply stored
  simp only [pagesOf, List.mem_cons, List.mem_flatMap, List.mem_range]
  exact .inr ⟨j, inside, member⟩

theorem PagesStored.intro
    (root : Stored ipld holds w (dirNodeNode ⟨pageKids ipld radix (level + 1) es⟩))
    (children : ∀ j, j < chunkCount (radix ^ (level + 1)) es.length →
      PagesStored ipld radix holds w level (chunk (radix ^ (level + 1)) j es)) :
    PagesStored ipld radix holds w (level + 1) es := by
  intro kids member
  simp only [pagesOf, List.mem_cons, List.mem_flatMap, List.mem_range] at member
  rcases member with rfl | ⟨j, inside, member⟩
  · exact root
  · exact children j inside kids member

/-- Where appending puts the new child: after the full chunks, in place of the
partial one if there is one. -/
theorem set_growTo_range {g : Nat → Link} {count d : Nat} (x : Link)
    (near : count = d ∨ count = d + 1) :
    (growTo ((List.range count).map g) (d + 1)).set d x = (List.range d).map g ++ [x] := by
  rcases near with rfl | rfl
  · simp [growTo]
  · simp [growTo, List.range_succ]

include positive in
theorem pageKids_append (kid : Link) :
    pageKids ipld radix (level + 1) (es ++ [kid]) =
      (List.range (es.length / radix ^ (level + 1))).map
          (fun j => some (pageCid ipld radix level (chunk (radix ^ (level + 1)) j es))) ++
        [some (pageCid ipld radix level
          (chunk (radix ^ (level + 1)) (es.length / radix ^ (level + 1)) es ++ [kid]))] := by
  have cap : 0 < radix ^ (level + 1) := Nat.pow_pos positive
  rw [pageKids, List.length_append, List.length_singleton, chunkCount_succ cap, List.range_succ,
    List.map_append]
  congr 1
  · apply List.map_congr_left
    intro j before
    rw [List.mem_range] at before
    have full : (j + 1) * radix ^ (level + 1) ≤ es.length :=
      (Nat.le_div_iff_mul_le cap).mp before
    rw [chunk_append_before kid full]
    rfl
  · rw [List.map_singleton, chunk_append_last cap]
    rfl

theorem chunkCount_take {cap m : Nat} (positive : 0 < cap) (short : m ≤ es.length) :
    chunkCount cap (es.take m).length = m / cap + chunkCount cap (m % cap) := by
  rw [List.length_take, Nat.min_eq_left short, chunkCount_div_mod positive]

theorem take_pageKids {d : Nat} (inside : d ≤ chunkCount (radix ^ (level + 1)) es.length) :
    (pageKids ipld radix (level + 1) es).take d =
      (List.range d).map fun j =>
        some (pageCid ipld radix level (chunk (radix ^ (level + 1)) j es)) := by
  rw [pageKids, ← List.map_take, List.take_range, Nat.min_eq_left inside]
  rfl

include positive

theorem map_chunk_take {m : Nat} :
    (List.range (m / radix ^ (level + 1))).map
        (fun j => some (dirCid ipld (pageKids ipld radix level
          (chunk (radix ^ (level + 1)) j (es.take m))))) =
      (List.range (m / radix ^ (level + 1))).map
        fun j => some (pageCid ipld radix level (chunk (radix ^ (level + 1)) j es)) := by
  apply List.map_congr_left
  intro j early
  rw [List.mem_range] at early
  rw [chunk_take_before ((Nat.le_div_iff_mul_le (Nat.pow_pos positive)).mp early)]
  rfl

theorem pageKids_take {m : Nat} (aligned : m % radix ^ (level + 1) = 0) (short : m ≤ es.length) :
    pageKids ipld radix (level + 1) (es.take m) =
      (pageKids ipld radix (level + 1) es).take (m / radix ^ (level + 1)) := by
  have cap : 0 < radix ^ (level + 1) := Nat.pow_pos positive
  rw [pageKids, chunkCount_take cap short, aligned, chunkCount_zero cap, Nat.add_zero (m / _),
    map_chunk_take positive, take_pageKids (div_le_chunkCount _ short)]

theorem pageKids_take_partial {m : Nat} (split : m % radix ^ (level + 1) ≠ 0)
    (short : m ≤ es.length) :
    pageKids ipld radix (level + 1) (es.take m) =
      (List.range (m / radix ^ (level + 1))).map
          (fun j => some (pageCid ipld radix level (chunk (radix ^ (level + 1)) j es))) ++
        [some (pageCid ipld radix level
          ((chunk (radix ^ (level + 1)) (m / radix ^ (level + 1)) es).take
            (m % radix ^ (level + 1))))] := by
  have cap : 0 < radix ^ (level + 1) := Nat.pow_pos positive
  rw [pageKids, chunkCount_take cap short,
    chunkCount_eq_one (Nat.pos_of_ne_zero split) (Nat.le_of_lt (Nat.mod_lt m cap)), List.range_succ,
    List.map_append, map_chunk_take positive, List.map_singleton, chunk_take_last]
  rfl

end TreeFacts

/-! ### The directory functions on canonical trees -/

section Specs

/-- The link addresses the canonical tree at `level` over `es`; no page exists
before its first entry. -/
inductive NodeAt (ipld : Codec) (radix : Nat) (holds : World σ → Cid → Prop) (w : World σ)
    (level : Nat) : List Link → Link → Prop where
  | absent : NodeAt ipld radix holds w level [] none
  | page {es : List Link} (stored : PagesStored ipld radix holds w level es) :
      NodeAt ipld radix holds w level es (some (pageCid ipld radix level es))

variable {node : Link}

theorem NodeAt.mono (at_node : NodeAt ipld radix holds w level es node)
    (grows : Grows holds w w') : NodeAt ipld radix holds w' level es node := by
  cases at_node with
  | absent => exact .absent
  | page stored => exact .page (stored.mono grows)

theorem NodeAt.stored_of_some {c : Cid} (at_node : NodeAt ipld radix holds w level es (some c)) :
    PagesStored ipld radix holds w level es := by
  cases at_node with
  | page stored => exact stored

include positive

theorem NodeAt.child (at_node : NodeAt ipld radix holds w (level + 1) es node) (d : Nat) :
    NodeAt ipld radix holds w level (chunk (radix ^ (level + 1)) d es)
      (pageKids ipld radix (level + 1) es)[d]?.join := by
  have cap : 0 < radix ^ (level + 1) := Nat.pow_pos positive
  by_cases inside : d < chunkCount (radix ^ (level + 1)) es.length
  · rw [pageKids_getElem inside]
    cases at_node with
    | absent =>
      rw [List.length_nil, chunkCount_zero cap] at inside
      omega
    | page stored => exact .page (stored.child inside)
  · have beyond : (pageKids ipld radix (level + 1) es)[d]? = none := by
      rw [List.getElem?_eq_none_iff, length_pageKids_succ]
      omega
    rw [lt_chunkCount_iff cap] at inside
    rw [beyond, chunk_eq_nil (by omega)]
    exact .absent

variable (up : Upholds ipld cfg holds unread flaky)
include up

omit positive in
theorem Upholds.commitDirNode_spec (text : String)
    {kids : List Link} (short : kids.length ≤ radix) (links : IndexLinks ipld kids) :
    Post (commitDirNode ipld cfg text kids) w
      (fun c after => c = dirCid ipld kids ∧ Stored ipld holds after (dirNodeNode ⟨kids⟩))
      (fun _ => flaky ∨ BigPage ipld radix) := by
  refine post_bind (keeps_within (up.commit_keeps up.dirs_writes _))
    (post_raised (post_within (up.commit_dirty_spec up.dirs_writes rfl rfl w))
      fun _ raised => ?_) ?_
  · rcases raised with failed | large
    · exact .inl failed
    · exact .inr ⟨kids, short, links, large trivial⟩
  · rintro ⟨c, _⟩ after ⟨rfl, stored, -⟩ -
    exact post_pure ⟨rfl, stored⟩

theorem Upholds.loadKids_spec (at_node : NodeAt ipld radix holds w level es node) :
    Post (loadKids ipld cfg node) w
      (fun kids _ => kids = trimTrailingNulls (pageKids ipld radix level es))
      (fun _ => unread) := by
  cases at_node with
  | absent =>
    refine post_pure ?_
    cases level with
    | zero => rfl
    | succ level =>
      rw [trimTrailingNulls_of_all_some (pageKids_succ_defined level [])]
      simp [pageKids, chunkCount_zero (Nat.pow_pos positive)]
  | page stored =>
    refine post_then (post_within (up.getNode_spec stored.root stored.root.decodes_dirNode)) ?_
    rintro _ after rfl
    exact post_pure rfl

theorem Upholds.dirSet_spec (level : Nat) (at_node : NodeAt ipld radix holds w level es node)
    (room : es.length < radix ^ (level + 1)) {kid : Link} (links : IndexLinks ipld (es ++ [kid])) :
    Post (dirSet ipld cfg node (digits radix (level + 1) es.length) kid) w
      (fun r after => r = some (pageCid ipld radix level (es ++ [kid])) ∧
        PagesStored ipld radix holds after level (es ++ [kid]))
      (fun _ => flaky ∨ BigPage ipld radix) := by
  induction level generalizing es node w with
  | zero =>
    have room' : es.length < radix := by simpa using room
    simp only [digits, Nat.pow_zero, Nat.div_one, dirSet]
    refine post_then (post_raised (up.loadKids_spec positive at_node)
      fun _ failed => .inl (up.reads failed)) ?_
    rintro _ middle rfl
    refine post_bind (R := Grows holds) (keeps_pure kid)
      (P := fun child _ => kid = child) (post_pure rfl) ?_
    rintro _ middle rfl -
    have rebuilt : (growTo (trimTrailingNulls es) (es.length + 1)).set es.length kid =
        es ++ [kid] := by
      rw [growTo_trimTrailingNulls (by omega)]
      simp
    simp only [pageKids, rebuilt]
    refine post_then (up.commitDirNode_spec _ (by simp; omega) links) ?_
    rintro _ after ⟨rfl, stored⟩
    exact post_pure ⟨rfl, fun kids member => by
      simp only [pagesOf, List.mem_singleton] at member
      exact member ▸ stored⟩
  | succ level ih =>
    have cap : 0 < radix ^ (level + 1) := Nat.pow_pos positive
    rw [digits]
    simp only [dirSet]
    refine post_bind (up.loadKids_keeps node) (post_raised (up.loadKids_spec positive at_node)
      fun _ failed => .inl (up.reads failed)) ?_
    rintro _ loaded rfl grows
    rw [trimTrailingNulls_of_all_some (pageKids_succ_defined level es)]
    set d := es.length / radix ^ (level + 1) with d_eq
    have at_child : NodeAt ipld radix holds loaded level (chunk (radix ^ (level + 1)) d es)
        (pageKids ipld radix (level + 1) es)[d]?.join :=
      (at_node.child positive d).mono grows
    have length : (chunk (radix ^ (level + 1)) d es).length = es.length % radix ^ (level + 1) :=
      chunk_last_length cap es
    rw [← length]
    have childLinks : IndexLinks ipld (chunk (radix ^ (level + 1)) d es ++ [kid]) := by
      refine links.sub fun e member => ?_
      rw [List.mem_append] at member ⊢
      exact member.imp mem_of_mem_chunk id
    refine post_bind (up.dirSet_keeps _ _ _)
      (ih at_child (by rw [length]; exact Nat.mod_lt _ cap) childLinks) ?_
    rintro _ middle ⟨rfl, child⟩ grows'
    have low : d ≤ chunkCount (radix ^ (level + 1)) es.length := div_le_chunkCount _ (Nat.le_refl _)
    have high : chunkCount (radix ^ (level + 1)) es.length ≤ d + 1 := chunkCount_le_div cap
    have rebuilt : (growTo (pageKids ipld radix (level + 1) es) (d + 1)).set d
          (some (pageCid ipld radix level (chunk (radix ^ (level + 1)) d es ++ [kid]))) =
        pageKids ipld radix (level + 1) (es ++ [kid]) := by
      rw [pageKids_append positive, ← d_eq]
      exact set_growTo_range _ (by omega)
    rw [rebuilt]
    refine post_bind (up.commitDirNode_keeps _ _)
      (up.commitDirNode_spec _ ?_ (pageKids_succ_indexLinks _ _)) ?_
    · exact length_pageKids_le positive (by simp; omega)
    · rintro _ after ⟨rfl, root⟩ grows''
      refine post_pure ⟨rfl, .intro root fun j inside => ?_⟩
      rw [List.length_append, List.length_singleton, chunkCount_succ cap, ← d_eq] at inside
      rcases Nat.lt_or_eq_of_le (Nat.le_of_lt_succ inside) with early | rfl
      · -- A full chunk is the old one, still held after every later write.
        have full : (j + 1) * radix ^ (level + 1) ≤ es.length :=
          (Nat.le_div_iff_mul_le cap).mp early
        rw [chunk_append_before kid full]
        have held := at_node.child positive j
        rw [pageKids_getElem (by omega)] at held
        exact ((held.mono grows).mono grows').mono grows'' |>.stored_of_some
      · rw [d_eq, chunk_append_last cap]
        exact child.mono grows''

theorem Upholds.dirTruncate_spec (level : Nat) {m : Nat}
    (stored : PagesStored ipld radix holds w level es) (some_left : 0 < m) (fewer : m < es.length)
    (fits : es.length ≤ radix ^ (level + 1)) (links : IndexLinks ipld es) :
    Post (dirTruncate ipld cfg (some (pageCid ipld radix level es)) (digits radix (level + 1) m)) w
      (fun r after => r = some (pageCid ipld radix level (es.take m)) ∧
        PagesStored ipld radix holds after level (es.take m))
      (fun _ => flaky ∨ BigPage ipld radix) := by
  induction level generalizing es m w with
  | zero =>
    have fits' : es.length ≤ radix := by simpa using fits
    simp only [digits, Nat.pow_zero, Nat.div_one, dirTruncate, if_true]
    refine post_then (post_raised (up.loadKids_spec positive (.page stored))
      fun _ failed => .inl (up.reads failed)) ?_
    rintro _ middle rfl
    refine post_bind (R := Grows holds) (keeps_pure _)
      (P := fun kids _ => kids = clampTo (trimTrailingNulls es) m) (post_pure rfl) ?_
    rintro _ middle rfl -
    have same : dirNodeNode ⟨clampTo (trimTrailingNulls es) m⟩ = dirNodeNode ⟨es.take m⟩ := by
      apply dirNodeNode_congr
      rw [clampTo_eq_take, trimTrailingNulls_take]
    refine post_bind (up.commitDirNode_keeps _ _) (up.commitDirNode_spec _ ?_ ?_) ?_
    · rw [clampTo_eq_take, List.length_take]
      omega
    · intro c member
      rw [clampTo_eq_take] at member
      exact links c (trimTrailingNulls_mem.mp (List.mem_of_mem_take member))
    · rintro _ after ⟨rfl, page⟩ -
      refine post_pure ⟨?_, fun kids member => ?_⟩
      · simp only [pageCid, dirCid, pageKids, same]
      · simp only [pagesOf, List.mem_singleton] at member
        rw [member, ← same]
        exact page
  | succ level ih =>
    have cap : 0 < radix ^ (level + 1) := Nat.pow_pos positive
    have within_radix : (pageKids ipld radix (level + 1) (es.take m)).length ≤ radix :=
      length_pageKids_le positive (by simp; omega)
    have nonempty : digits radix (level + 1) (m % radix ^ (level + 1)) ≠ [] := by
      simp [digits]
    have parts := Nat.div_add_mod' m (radix ^ (level + 1))
    have inside : m / radix ^ (level + 1) < chunkCount (radix ^ (level + 1)) es.length := by
      rw [lt_chunkCount_iff cap]
      exact Nat.lt_of_le_of_lt (Nat.div_mul_le_self _ _) fewer
    -- Chunks before the cut are those of the old tree.
    have earlier : ∀ {after : World σ}, Grows holds w after → ∀ j,
        j < m / radix ^ (level + 1) →
        PagesStored ipld radix holds after level
          (chunk (radix ^ (level + 1)) j (es.take m)) := by
      intro after grows j early
      rw [chunk_take_before ((Nat.le_div_iff_mul_le cap).mp early)]
      exact (stored.child (by omega)).mono grows
    rw [digits]
    simp only [dirTruncate, if_neg nonempty]
    refine post_bind (up.loadKids_keeps _) (post_raised (up.loadKids_spec positive (.page stored))
      fun _ failed => .inl (up.reads failed)) ?_
    rintro _ loaded rfl grows
    rw [trimTrailingNulls_of_all_some (pageKids_succ_defined level es)]
    by_cases aligned : m % radix ^ (level + 1) = 0
    · have zeros : allZero (digits radix (level + 1) (m % radix ^ (level + 1))) = true := by
        rw [allZero_iff, digits_all_zero_iff (Nat.mod_lt m cap)]
        exact aligned
      simp only [zeros, if_true]
      refine post_bind (R := Grows holds) (keeps_pure _)
        (P := fun kids _ => kids = pageKids ipld radix (level + 1) (es.take m))
        (post_pure ?_) ?_
      · rw [clampTo_eq_take, pageKids_take positive aligned (by omega)]
      · rintro _ middle rfl grows'
        refine post_bind (up.commitDirNode_keeps _ _)
          (up.commitDirNode_spec _ within_radix (pageKids_succ_indexLinks _ _)) ?_
        rintro _ after ⟨rfl, root⟩ grows''
        refine post_pure ⟨rfl, .intro root fun j early => ?_⟩
        refine earlier ((grows.trans grows').trans grows'') j ?_
        rwa [chunkCount_take cap (by omega), aligned, chunkCount_zero cap] at early
    · have rest := Nat.pos_of_ne_zero aligned
      have nonzero : ¬ allZero (digits radix (level + 1) (m % radix ^ (level + 1))) = true := by
        rw [allZero_iff, digits_all_zero_iff (Nat.mod_lt m cap)]
        exact aligned
      simp only [if_neg nonzero, pageKids_getElem inside]
      have small := Nat.mod_lt m cap
      have child := (stored.child inside).mono grows
      have shorter : m % radix ^ (level + 1) <
          (chunk (radix ^ (level + 1)) (m / radix ^ (level + 1)) es).length := by
        rw [length_chunk]
        omega
      refine post_bind (keeps_bind (up.dirTruncate_keeps _ _) fun _ =>
          keeps_pure _)
        (P := fun kids after => kids = pageKids ipld radix (level + 1) (es.take m) ∧
          PagesStored ipld radix holds after level
            ((chunk (radix ^ (level + 1)) (m / radix ^ (level + 1)) es).take
              (m % radix ^ (level + 1)))) ?_ ?_
      · refine post_then (ih child rest shorter (chunk_length_le _ _ _)
            (links.sub fun _ => mem_of_mem_chunk)) ?_
        rintro _ after ⟨rfl, cut⟩
        refine post_pure ⟨?_, cut⟩
        rw [clampTo_eq_take, take_pageKids (by omega), set_growTo_range _ (.inl rfl),
          pageKids_take_partial positive aligned (by omega)]
      · rintro _ middle ⟨rfl, cut⟩ grows'
        refine post_bind (up.commitDirNode_keeps _ _)
          (up.commitDirNode_spec _ within_radix (pageKids_succ_indexLinks _ _)) ?_
        rintro _ after ⟨rfl, root⟩ grows''
        refine post_pure ⟨rfl, .intro root fun j early => ?_⟩
        rw [chunkCount_take cap (by omega), chunkCount_eq_one rest (by omega)] at early
        rcases Nat.lt_or_eq_of_le (Nat.le_of_lt_succ early) with before | rfl
        · exact earlier ((grows.trans grows').trans grows'') j before
        · rw [chunk_take_last]
          exact cut.mono grows''

end Specs

end Pages

/-! ### The directory of a head -/

section Dir
variable {fanoutBits : Nat} {es : List Link}

def dirLink (ipld : Codec) (fanoutBits : Nat) : Nat → List Link → Link
  | 0, _ => none
  | level + 1, es => some (pageCid ipld (2 ^ fanoutBits) level es)

structure DirOf (ipld : Codec) (fanoutBits : Nat) (holds : World σ → Cid → Prop) (w : World σ)
    (es : List Link) (dir : Link) (depth : Nat) : Prop where
  least : IsDepth fanoutBits es.length depth
  link : dir = dirLink ipld fanoutBits depth es
  stored : ∀ level, depth = level + 1 → PagesStored ipld (2 ^ fanoutBits) holds w level es

theorem DirOf.mono {dir : Link} {depth : Nat}
    (canonical : DirOf ipld fanoutBits holds w es dir depth) (grows : Grows holds w w') :
    DirOf ipld fanoutBits holds w' es dir depth :=
  ⟨canonical.least, canonical.link, fun level same => (canonical.stored level same).mono grows⟩

theorem DirOf.nil : DirOf ipld fanoutBits holds w [] none 0 :=
  ⟨⟨by simp, by simp, by simp⟩, rfl, by simp⟩

/-- A full tree under one more root is the canonical tree one level up. -/
theorem pageKids_of_fits {radix level : Nat} (some_entry : 0 < es.length)
    (fits : es.length ≤ radix ^ (level + 1)) :
    pageKids ipld radix (level + 1) es = [some (pageCid ipld radix level es)] := by
  rw [pageKids, chunkCount_eq_one some_entry fits]
  simp [chunk_zero fits, pageCid]

theorem PagesStored.wrap {radix level : Nat} (some_entry : 0 < es.length)
    (fits : es.length ≤ radix ^ (level + 1))
    (root : Stored ipld holds w (dirNodeNode ⟨[some (pageCid ipld radix level es)]⟩))
    (stored : PagesStored ipld radix holds w level es) :
    PagesStored ipld radix holds w (level + 1) es := by
  refine .intro (pageKids_of_fits some_entry fits ▸ root) fun j inside => ?_
  rw [chunkCount_eq_one some_entry fits] at inside
  obtain rfl : j = 0 := by omega
  rw [chunk_zero fits]
  exact stored

theorem Upholds.dirAppend_spec (up : Upholds ipld cfg holds unread flaky) (positive : 0 < fanoutBits)
    (narrow : fanoutBits < 64) {dir : Link} {depth : Nat}
    (canonical : DirOf ipld fanoutBits holds w es dir depth) (small : es.length < 2 ^ 63)
    {kid : Link} (links : IndexLinks ipld (es ++ [kid])) :
    Post (dirAppend ipld cfg dir depth fanoutBits es.length kid) w
      (fun r after => DirOf ipld fanoutBits holds after (es ++ [kid]) r.1 r.2)
      (fun _ => flaky ∨ BigPage ipld (2 ^ fanoutBits)) := by
  have radix : 0 < 2 ^ fanoutBits := Nat.two_pow_pos fanoutBits
  have length : (es ++ [kid]).length = es.length + 1 := by simp
  obtain ⟨least, rfl, stored⟩ := canonical
  refine post_ite (fun flat => ?_) fun nonzero => ?_
  · -- The first entry makes the first page.
    have none : es = [] := List.length_eq_zero_iff.mp (least.zero_iff.mp flat)
    subst none
    refine post_ite (fun wrong => absurd rfl wrong) fun _ => ?_
    refine post_then (up.commitDirNode_spec _ radix links) ?_
    rintro _ after ⟨rfl, page⟩
    refine post_pure ⟨⟨by simp, by simpa using Nat.one_le_two_pow, by simp⟩, rfl, ?_⟩
    rintro level same kids member
    obtain rfl : level = 0 := by omega
    simp only [pagesOf, List.mem_singleton] at member
    rw [member]
    exact page
  · obtain ⟨level, rfl⟩ : ∃ level, depth = level + 1 := ⟨depth - 1, by omega⟩
    have stored := stored level rfl
    have holds_all := least.holds
    have limit : es.length < maxUint64 := by
      rw [maxUint64_eq]
      omega
    have room_iff : es.length < capacity (level + 1) fanoutBits ↔
        es.length < 2 ^ (fanoutBits * (level + 1)) := lt_capacity_iff limit
    -- Whether or not the root grew, the append finds a tree with room.
    refine post_bind (R := Grows holds) ?_
      (P := fun r after => ∃ level', r = (some (pageCid ipld (2 ^ fanoutBits) level' es),
          level' + 1) ∧ PagesStored ipld (2 ^ fanoutBits) holds after level' es ∧
        es.length < 2 ^ (fanoutBits * (level' + 1)) ∧
        IsDepth fanoutBits (es.length + 1) (level' + 1)) ?_ ?_
    · refine keeps_ite (fun _ => ?_) fun _ =>
        keeps_ite (fun _ => keeps_fail _) fun _ =>
          keeps_pure _
      exact keeps_bind (up.commitDirNode_keeps _ _) fun _ => keeps_pure _
    · refine post_ite (fun full => ?_) fun notFull => post_ite (fun past => ?_) fun _ => ?_
      · have exact : es.length = 2 ^ (fanoutBits * (level + 1)) := by
          have saturated : ¬ es.length < 2 ^ (fanoutBits * (level + 1)) := by
            rw [← room_iff]
            omega
          omega
        have some_entry : 0 < es.length := exact ▸ Nat.two_pow_pos _
        have fits : es.length ≤ (2 ^ fanoutBits) ^ (level + 1) := by
          rw [← Nat.pow_mul]
          exact holds_all
        refine post_bind (up.commitDirNode_keeps _ _)
          (up.commitDirNode_spec _ (by simpa using Nat.one_le_two_pow) ?_) ?_
        · intro c member
          exact ⟨_, Option.some.inj (List.mem_singleton.mp member)⟩
        rintro _ after ⟨rfl, page⟩ grows
        have deeper := IsDepth.succ_of_full positive exact
        refine post_pure ⟨level + 1, ?_, (stored.mono grows).wrap some_entry fits page, ?_, deeper⟩
        · rw [pageCid, pageKids_of_fits some_entry fits]
          rfl
        · have := deeper.holds
          omega
      · have bound := le_capacity limit holds_all
        omega
      · have bound := le_capacity limit holds_all
        have room := room_iff.mp (by omega)
        exact post_pure ⟨level, rfl, stored, room, least.succ (by omega) room⟩
    · rintro _ after ⟨level', rfl, pages, room, deep⟩ grows
      have shallow : level' + 1 ≤ 64 := deep.le_64 positive (by omega)
      simp only [pathDigits_eq narrow shallow room]
      refine post_then (up.dirSet_spec radix level' (.page pages)
        (by rw [← Nat.pow_mul]; exact room) links) ?_
      rintro _ last ⟨rfl, pages'⟩
      refine post_pure ⟨length ▸ deep, rfl, fun level'' same => ?_⟩
      obtain rfl : level'' = level' := by omega
      exact pages'

theorem Upholds.dirShrink_spec (up : Upholds ipld cfg holds unread flaky) (level : Nat)
    (stored : PagesStored ipld (2 ^ fanoutBits) holds w level es)
    (some_entry : 0 < es.length) (fits : es.length ≤ 2 ^ (fanoutBits * (level + 1))) :
    Post (dirShrink ipld cfg (some (pageCid ipld (2 ^ fanoutBits) level es)) (level + 1)) w
      (fun r after => DirOf ipld fanoutBits holds after es r.1 r.2) (fun _ => unread) := by
  induction level generalizing w with
  | zero =>
    have canonical : DirOf ipld fanoutBits holds w es
        (some (pageCid ipld (2 ^ fanoutBits) 0 es)) 1 := by
      refine ⟨⟨by omega, fits, by omega⟩, rfl, fun level same => ?_⟩
      obtain rfl : level = 0 := by omega
      exact stored
    exact post_pure canonical
  | succ level ih =>
    simp only [dirShrink]
    refine post_bind (keeps_within (getNode_keeps up.get_keeps _)) (post_within
      (up.getNode_spec stored.root stored.root.decodes_dirNode)) ?_
    rintro _ after rfl grows
    rw [trimTrailingNulls_of_all_some (pageKids_succ_defined level es)]
    by_cases single : es.length ≤ 2 ^ (fanoutBits * (level + 1))
    · have single' : es.length ≤ (2 ^ fanoutBits) ^ (level + 1) := by
        rw [← Nat.pow_mul]
        exact single
      have child := stored.child (j := 0) (by rw [chunkCount_eq_one some_entry single']; omega)
      rw [chunk_zero single'] at child
      simp only [pageKids_of_fits some_entry single']
      exact ih (child.mono grows) single
    · have several : (pageKids ipld (2 ^ fanoutBits) (level + 1) es).length ≠ 1 := by
        intro one
        rw [length_pageKids_succ] at one
        have beyond : 1 < chunkCount ((2 ^ fanoutBits) ^ (level + 1)) es.length := by
          rw [lt_chunkCount_iff (Nat.pow_pos (Nat.two_pow_pos _)), ← Nat.pow_mul]
          omega
        omega
      split
      · rename_i one
        exact absurd (congrArg List.length one) several
      · refine post_pure ⟨⟨by omega, fits, fun _ => ?_⟩, rfl, fun level' same => ?_⟩
        · simpa using single
        · obtain rfl : level' = level + 1 := by omega
          exact stored.mono grows

end Dir

end Bloar.Archive
