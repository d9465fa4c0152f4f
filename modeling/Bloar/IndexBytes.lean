import Bloar.Meaning

/-!
How many bytes an index takes. A formed Head reaches its own block, its open
segment, the pages of its directory and the segments of its entries, so a bound on
each kind of block bounds any set of them.
-/

namespace Bloar.Archive
open Ipld Schema Arith RadixList
variable {σ : Type}

section Bytes
variable {ipld : Codec} {root opened : Cid} {h : Schema.Head} {es : List Link} {radix : Nat}

/-- A sum over distinct blocks of a list is at most the sum over the list. -/
theorem bytesWithin_of_list {P : Cid → Prop} {limit : Nat} (cs : List Cid)
    (listed : ∀ c, P c → c ∈ cs) (bound : (cs.map (sizeOf ipld)).sum ≤ limit) :
    BytesWithin ipld P limit := by
  intro blocks each
  have inside : blocks ⊆ cs.dedup.toFinset := fun c member =>
    List.mem_toFinset.mpr (List.mem_dedup.mpr (listed c (each c member)))
  calc ∑ c ∈ blocks, sizeOf ipld c ≤ ∑ c ∈ cs.dedup.toFinset, sizeOf ipld c :=
        Finset.sum_le_sum_of_subset inside
    _ = (cs.dedup.map (sizeOf ipld)).sum := List.sum_toFinset _ cs.nodup_dedup
    _ ≤ (cs.map (sizeOf ipld)).sum :=
        ((List.dedup_sublist cs).map _).sum_le_sum fun _ _ => Nat.zero_le _
    _ ≤ limit := bound

theorem IsHead.size_le (isHead : IsHead ipld root h) : sizeOf ipld root ≤ maxEnumerationNodeBytes := by
  obtain ⟨block, rfl, small, -⟩ := isHead
  rwa [sizeOf_nodeCID]

theorem IsPage.size_le {c : Cid} {page : DirNode} (isPage : IsPage ipld c page) :
    sizeOf ipld c ≤ maxEnumerationNodeBytes := by
  obtain ⟨block, rfl, small, -⟩ := isPage
  rwa [sizeOf_nodeCID]

theorem IsSegment.size_le {c : Cid} {sg : Segment} (segment : IsSegment ipld c sg) :
    sizeOf ipld c ≤ maxEnumerationNodeBytes := by
  obtain ⟨block, rfl, small, -⟩ := segment
  rwa [sizeOf_nodeCID]

theorem KidsAt.length_pagesUnder (positive : 0 < radix) {level : Nat} {kids : List Link}
    (counted : ∀ {c below}, PageAt ipld radix level c below → below ≠ [] →
      below.length ≤ radix ^ (level + 1) →
      (pagesUnder ipld level c).length = pathsOf radix level below.length)
    (laid : KidsAt (PageAt ipld radix level) (radix ^ (level + 1)) kids es) :
    (pagesOfKids ipld level kids).length = pathsOf radix level es.length := by
  have cap : 0 < radix ^ (level + 1) := Nat.pow_pos positive
  induction kids generalizing es with
  | nil =>
    rw [KidsAt] at laid
    subst laid
    rw [List.length_nil, pathsOf_zero positive]
    rfl
  | cons kid rest ih =>
    obtain ⟨some_entry, ⟨c, rfl, page⟩, others⟩ := laid
    have filled := List.length_pos_of_ne_nil some_entry
    have first : es.take (radix ^ (level + 1)) ≠ [] := by
      apply List.ne_nil_of_length_pos
      rw [List.length_take]
      omega
    rw [pagesOfKids_cons, List.length_append, ih others,
      counted page first (List.length_take_le _ _), List.length_take, List.length_drop]
    rcases Nat.le_total es.length (radix ^ (level + 1)) with short | long
    · rw [Nat.min_eq_right short, Nat.sub_eq_zero_of_le short, pathsOf_zero positive, Nat.add_zero]
    · rw [Nat.min_eq_left long, ← pathsOf_add positive (Nat.dvd_refl _), Nat.add_sub_cancel' long]

theorem PageAt.length_pagesUnder (positive : 0 < radix) {level : Nat} {c : Cid}
    (page : PageAt ipld radix level c es) (some_entry : es ≠ [])
    (fits : es.length ≤ radix ^ (level + 1)) :
    (pagesUnder ipld level c).length = pathsOf radix level es.length := by
  have filled := List.length_pos_of_ne_nil some_entry
  induction level generalizing c es with
  | zero =>
    rw [Nat.zero_add, Nat.pow_one] at fits
    rw [pagesUnder, pathsOf, chunkCount_eq_one filled fits]
    rfl
  | succ level ih =>
    obtain ⟨node, isPage, laid⟩ := page
    have below := laid.length_pagesUnder positive fun page some_entry fits =>
      ih page some_entry fits (List.length_pos_of_ne_nil some_entry)
    rw [pagesUnder, isPage.kidsOf_eq, List.length_cons, pathsOf_succ filled fits, Nat.add_comm]
    exact congrArg (1 + ·) below

theorem Formed.length_headPages (formed : Formed ipld h opened es)
    (depth : IsDepth h.fanoutBits es.length h.dirDepth) :
    (headPages ipld h).length = pathsUpTo (2 ^ h.fanoutBits) es.length h.dirDepth := by
  cases deep : h.dirDepth with
  | zero => rw [headPages_zero deep, pathsUpTo]; rfl
  | succ level =>
    obtain ⟨c, dir, page⟩ := formed.dir level deep
    rw [headPages_eq deep dir, pathsUpTo]
    refine page.length_pagesUnder (Nat.two_pow_pos _) ?_ ?_
    · rintro rfl
      have flat := depth.zero_iff.mpr rfl
      omega
    · rw [← Nat.pow_mul, ← deep]
      exact depth.holds

/-- A bound on some blocks of a formed index: two of any kind, the pages, and the
listed segments. -/
theorem Formed.bytes_le (formed : Formed ipld h opened es) (isHead : IsHead ipld root h)
    {P : Cid → Prop} (segments : List Cid) (segment : Nat)
    (index : ∀ c, P c → ∃ kind, Reaches ipld root kind c)
    (listed : ∀ c, P c → some c ∈ es → c ∈ segments)
    (small : ∀ c ∈ segments, sizeOf ipld c ≤ segment) :
    BytesWithin ipld P ((2 + (headPages ipld h).length) * maxEnumerationNodeBytes +
      segments.length * segment) := by
  have pages : ((headPages ipld h).map (sizeOf ipld)).sum ≤
      (headPages ipld h).length * maxEnumerationNodeBytes := by
    refine Nat.le_trans (List.sum_le_card_nsmul _ maxEnumerationNodeBytes ?_) (by simp)
    intro n member
    obtain ⟨p, inside, rfl⟩ := List.mem_map.mp member
    obtain ⟨d, reached⟩ := (formed.mem_headPages_iff isHead).mp inside
    cases formed.stands isHead reached with
    | page page =>
      obtain ⟨_, isPage⟩ := page.isPage
      exact isPage.size_le
  have sealed : (segments.map (sizeOf ipld)).sum ≤ segments.length * segment := by
    refine Nat.le_trans (List.sum_le_card_nsmul _ segment ?_) (by simp)
    intro n member
    obtain ⟨c, inside, rfl⟩ := List.mem_map.mp member
    exact small c inside
  obtain ⟨sg, placed⟩ := formed.segment
  have headBytes := isHead.size_le
  have openBytes := placed.segment.size_le
  have within : ∀ c, P c → c ∈ root :: opened :: (headPages ipld h ++ segments) := by
    intro c holds
    obtain ⟨kind, reached⟩ := index c holds
    have stands := formed.stands isHead reached
    simp only [List.mem_cons, List.mem_append]
    cases stands with
    | head => exact .inl rfl
    | opened => exact .inr (.inl rfl)
    | sealed member => exact .inr (.inr (.inr (listed c holds member)))
    | page _ _ under => exact .inr (.inr (.inl (under c (mem_pagesUnder_self ..))))
  refine bytesWithin_of_list _ within ?_
  rw [List.map_cons, List.map_cons, List.sum_cons, List.sum_cons, List.map_append, List.sum_append,
    Nat.add_mul]
  omega

end Bytes

end Bloar.Archive
