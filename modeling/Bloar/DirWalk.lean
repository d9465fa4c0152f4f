import Bloar.WalkSpec

/-!
What a walk does with directory pages. `walkDir` covers exactly the entries of a
well-formed tree and counts the pages of the canonical one. The shortcuts never
refuse a well-formed index: a page has one level and a segment one window, so
nothing that holds a segment can stand at two positions.
-/

namespace Bloar.Archive
open Ipld Schema Arith Fallible RadixList

variable {σ : Type} {t : Tour σ} {s : Walking σ} {offset : Nat}

/-! ### One page -/

variable {c : Cid} {page : DirNode} {n level start entries : Nat} {node : Cid} {es : List Link}

theorem Tour.page_stale (t : Tour σ) (isPage : IsPage t.ipld c page) : t.fault ∨ ¬ t.fresh c := by
  by_cases fresh : t.fresh c
  · exact (t.fresh_segment fresh).imp id fun ⟨_, segment⟩ => (isPage.not_segment segment).elim
  · exact .inr fresh

variable {depth : Nat} {b : EnumerationBudget} {radix : Nat} {walkPage : DirNode → Walk σ Nat}
  {walk : Link → Nat → Nat → Walk σ DirSummary}

theorem Tour.Walked.add_page (walked : t.Walked offset s) {data : Block} {s₁ : Walking σ}
    (read : t.ReadTo c s data s₁) (decoded : decodeDirNode t.ipld data = .ok page)
    (reached : Reaches t.ipld t.root (.page depth) c) (new : c ∉ s.walker.dirNodes)
    (room : s.walker.out.dirPages.length + 1 ≤ s.walker.budget.paths) :
    t.Covers offset [] [c] 0 s { s₁ with walker := { s₁.walker with
      dirNodes := s₁.walker.dirNodes.insert c page
      out := { s₁.walker.out with dirPages := s₁.walker.out.dirPages ++ [c] } } } := by
  have isPage : IsPage t.ipld c page := ⟨data, read.named, read.small, decoded⟩
  have unlisted : c ∉ s.walker.out.dirPages := fun listed => new ((walked.nodes c).mpr listed)
  have stale := t.page_stale isPage
  have visited : firstVisits s.walker.out.dirPages [c] = s.walker.out.dirPages ++ [c] := by
    simp [firstVisits, unlisted]
  rw [read.walker]
  refine ⟨SealedAt.nil, ?_, rfl, ?_, rfl, by simp, fun _ old => old⟩
  · exact { walked with
      inv := read.inv
      pages_le := by simpa using room
      charged := walked.charged.read_more read.named read.new stale read.within
      world := by rw [read.world, walked.world]
      counted := by
        intro d
        simp only [Finset.mem_insert, List.mem_append, List.mem_singleton, walked.counted d]
        tauto
      index := by
        intro d member
        rcases Finset.mem_insert.mp member with rfl | old
        · exact ⟨read.seen, _, reached⟩
        · exact ⟨read.kept d (walked.index d old).1, (walked.index d old).2⟩
      node := by
        intro d other found
        by_cases same : d = c
        · subst same
          rw [Finmap.lookup_insert] at found
          cases found
          exact isPage
        · rw [Finmap.lookup_insert_of_ne _ same] at found
          exact walked.node found
      nodes := by
        intro d
        simp only [Finmap.mem_insert, List.mem_append, List.mem_singleton, walked.nodes d]
        tauto
      memo := by
        intro d depth entries summary found
        obtain ⟨level, start, es, deep, length, laid, before, paths, count, pages⟩ :=
          walked.memo found
        exact ⟨level, start, es, deep, length, laid, before, paths, count, fun p below =>
          List.mem_append_left _ (pages p below)⟩ }
  · rw [visited]
    simp [sealedFrom]

theorem Tour.Walked.readDir_spec (walked : t.Walked offset s) (cbor : HasPrefix dagCBOR c)
    (reached : Reaches t.ipld t.root (.page depth) c)
    (room : s.walker.out.dirPages.length + 1 ≤ s.walker.budget.paths) :
    Post (readDir t.ipld t.cfg c) s
      (fun page s' => IsPage t.ipld c page ∧ t.Covers offset [] [c] 0 s s')
      (fun _ => ∀ page, IsPage t.ipld c page → t.Fails) := by
  refine post_get_bind ?_
  cases found : s.walker.dirNodes.lookup c with
  | some page =>
    have listed : c ∈ s.walker.out.dirPages :=
      (walked.nodes c).mp (Finmap.mem_of_lookup_eq_some found)
    refine post_pure ⟨walked.node found, SealedAt.nil, walked, rfl, ?_, rfl, by simp,
      fun _ old => old⟩
    simp [firstVisits, listed, sealedFrom]
  | none =>
    have new : c ∉ s.walker.dirNodes := Finmap.lookup_eq_none.mp found
    refine post_then (post_raised (t.readNode_spec walked.inv cbor walked.charged _)
      fun _ fault page isPage => ?_) ?_
    · obtain ⟨block, named, small, -⟩ := id isPage
      refine walked.readFault_fails named small reached (fun member => ?_) (t.page_stale isPage)
        fault
      rcases (walked.counted c).mp member with rfl | listed | noted
      · exact t.isHead.not_page isPage
      · exact new ((walked.nodes c).mpr listed)
      · obtain ⟨win, at_win⟩ := Finmap.mem_iff.mp noted
        obtain ⟨⟨_, _, sg, placed⟩, -⟩ := walked.segment at_win
        exact isPage.not_segment placed.segment
    intro data s₁ read
    cases decoded : decodeDirNode t.ipld data with
    | error text =>
      refine post_fail (E := fun _ => ∀ page, IsPage t.ipld c page → t.Fails) ?_
      rintro page ⟨block, named, -, other⟩
      rw [← t.ipld.nodeCID_injective (read.named.symm.trans named), decoded] at other
      cases other
    | ok page =>
      exact post_pure_bind (post_modify_bind (post_pure ⟨⟨data, read.named, read.small, decoded⟩,
        walked.add_page read decoded reached new room⟩))

def Tour.Above (t : Tour σ) (low : Nat) (active : Finset Cid) : Prop :=
  ∀ a ∈ active, ∃ high es, low ≤ high ∧ es ≠ [] ∧ PageAt t.ipld t.radix high a es

noncomputable def pagesBelow (ipld : Codec) (level : Nat) (c : Cid) : List Cid :=
  (pagesUnder ipld level c).tail

theorem pagesUnder_eq (ipld : Codec) (level : Nat) (c : Cid) :
    pagesUnder ipld level c = c :: pagesBelow ipld level c := by
  cases level <;> rfl

def Tour.WalksPage (t : Tour σ) (walkPage : DirNode → Walk σ Nat) (level : Nat) (node : Cid)
    (start entries : Nat) : Prop :=
  ∀ page s, IsPage t.ipld node page → t.Walked start s →
    s.walker.budget.paths + (pathsOf t.radix level entries - 1) ≤ maxEnumerationPaths →
    Post (walkPage page) s
      (fun count s' => ∃ es : List Link, es.length = entries ∧ PageAt t.ipld t.radix level node es ∧
        count = es.countP Option.isSome ∧
        t.Covers start es (pagesBelow t.ipld level node) (pathsOf t.radix level entries - 1) s s')
      (fun _ => ∀ es, t.Laid level node start es → es.length = entries →
        t.Above level s.walker.dirActive → t.Fails)

theorem addPaths_ok {b' : EnumerationBudget} {u : Unit} (added : b.addPaths n = .ok (u, b')) :
    b' = { b with paths := b.paths + n } := by
  unfold EnumerationBudget.addPaths at added
  by_cases full : n > maxEnumerationPaths - b.paths
  · rw [if_pos full] at added
    cases added
  · rw [if_neg full] at added
    cases added
    rfl

theorem addPaths_error {e : Error} (refused : b.addPaths n = .error e) :
    maxEnumerationPaths < b.paths + n := by
  unfold EnumerationBudget.addPaths at refused
  by_contra room
  rw [if_neg (by omega)] at refused
  cases refused

theorem Tour.Walked.add_paths (walked : t.Walked offset s)
    (room : s.walker.budget.paths + n ≤ maxEnumerationPaths) :
    t.Covers offset [] [] n s { s with walker := { s.walker with budget :=
      { s.walker.budget with paths := s.walker.budget.paths + n } } } := by
  refine ⟨SealedAt.nil, ?_, rfl, by simp [firstVisits, sealedFrom], rfl, by simp, fun _ old => old⟩
  exact { walked with
    charged := ⟨walked.charged.read, walked.charged.within⟩
    pages_le := Nat.le_trans walked.pages_le (Nat.le_add_right _ _)
    paths_le := room }

theorem Tour.Walked.set_active (walked : t.Walked offset s) (active : Finset Cid) :
    t.Walked offset { s with walker := { s.walker with dirActive := active } } :=
  { walked with }

theorem pathsOf_pos (positive : 0 < radix) (some : 0 < n) : 0 < pathsOf radix level n := by
  cases level with
  | zero => exact chunkCount_pos positive some
  | succ level =>
    have top := chunkCount_pos (Nat.pow_pos positive : 0 < radix ^ (level + 2)) some
    rw [pathsOf]
    omega

theorem Tour.Covers.remember {paths : Nat} {s' : Walking σ}
    (covers : t.Covers start es (pagesUnder t.ipld level node) paths s s')
    (length : es.length = entries) (page : PageAt t.ipld t.radix level node es)
    (counted : paths = pathsOf t.radix level entries) :
    t.Covers start es (pagesUnder t.ipld level node) paths s { s' with walker := { s'.walker with
      dirMemo := s'.walker.dirMemo.insert ⟨node, level + 1, entries⟩
        { paths, segments := es.countP Option.isSome }
      dirContains := s'.walker.dirContains.insert node
        (decide (es.countP Option.isSome ≠ 0)) } } := by
  have walked := covers.walked
  have laid : t.Laid level node start es := ⟨page, covers.sealed⟩
  have listed : ∀ p ∈ pagesUnder t.ipld level node, p ∈ s'.walker.out.dirPages := by
    intro p below
    rw [covers.out]
    exact mem_firstVisits.mpr (.inr below)
  refine { covers with walked := { walked with memo := ?_, contains := ?_ } }
  · intro c depth entries' summary found
    by_cases same : (⟨c, depth, entries'⟩ : DirMemoKey) = ⟨node, level + 1, entries⟩
    · rw [same, Finmap.lookup_insert] at found
      cases found
      cases same
      exact ⟨level, start, es, rfl, length, laid, by omega, counted, rfl, listed⟩
    · rw [Finmap.lookup_insert_of_ne _ same] at found
      exact walked.memo found
  · intro c found
    by_cases same : c = node
    · subst same
      rw [Finmap.lookup_insert] at found
      have some_entry : es.countP Option.isSome ≠ 0 := by simpa using found
      obtain ⟨entry, member, isSome⟩ := List.countP_pos_iff.mp (Nat.pos_of_ne_zero some_entry)
      obtain ⟨link, rfl⟩ := Option.isSome_iff_exists.mp isSome
      obtain ⟨i, at_i⟩ := List.getElem?_of_mem member
      exact ⟨level, start, es, i, link, laid, Nat.le_refl _, at_i⟩
    · rw [Finmap.lookup_insert_of_ne _ same] at found
      exact walked.contains found

def Tour.VisitedTo (t : Tour σ) (level : Nat) (node : Cid) (start entries : Nat) (s : Walking σ)
    (summary : DirSummary) (s' : Walking σ) : Prop :=
  ∃ es : List Link, es.length = entries ∧ PageAt t.ipld t.radix level node es ∧
    summary.paths = pathsOf t.radix level entries ∧
    summary.segments = es.countP Option.isSome ∧
    t.Covers start es (pagesUnder t.ipld level node) (pathsOf t.radix level entries) s s'

theorem Tour.Walked.enterDir_spec (walked : t.Walked start s) (cbor : HasPrefix dagCBOR node)
    (reached : Reaches t.ipld t.root (.page (level + 1)) node) (positive : 0 < entries)
    (room : s.walker.budget.paths + pathsOf t.radix level entries ≤ maxEnumerationPaths)
    (outside : node ∉ s.walker.dirActive) (walks : t.WalksPage walkPage level node start entries) :
    Post (enterDir t.ipld t.cfg walkPage node level entries) s
      (t.VisitedTo level node start entries s)
      (fun _ => ∀ es, t.Laid level node start es → es.length = entries →
        t.Above (level + 1) s.walker.dirActive → t.Fails) := by
  have pages : 0 < pathsOf t.radix level entries := pathsOf_pos t.radix_pos positive
  refine post_get_bind ?_
  refine post_then (post_charge (fun _ budget added => ?_) fun e refused es _ _ _ => ?_)
    (P := fun _ s' => s' = { s with walker := { s.walker with budget :=
      { s.walker.budget with paths := s.walker.budget.paths + 1 } } }) ?_
  · rw [addPaths_ok added]
  · have full := addPaths_error refused
    omega
  rintro _ _ rfl
  have entered := walked.add_paths (n := 1) (by omega)
  have pages_le := walked.pages_le
  refine post_then (post_raised (entered.walked.readDir_spec cbor reached (by
    dsimp only
    omega)) fun _ raised es laid _ _ => ?_) ?_
  · obtain ⟨page, isPage⟩ := laid.page.isPage
    exact raised page isPage
  rintro page s₂ ⟨isPage, decoded⟩
  have before : t.Covers start [] [node] 1 s s₂ := entered.trans decoded
  refine post_modify_bind ?_
  have paths := before.paths
  refine post_then (P := fun count s' => ∃ es : List Link, es.length = entries ∧
      PageAt t.ipld t.radix level node es ∧ count = es.countP Option.isSome ∧
      t.Covers start es (pagesBelow t.ipld level node) (pathsOf t.radix level entries - 1) s₂ s')
    (post_ensuring (post_mono (walks page _ isPage
      (before.walked.set_active (insert node s₂.walker.dirActive)) (by
        dsimp only
        omega)) ?_ fun _ raised es laid length above => ?_)) ?_
  · rintro count s₄ ⟨es, length, page_at, counted, covers⟩
    refine ⟨es, length, page_at, counted, covers.sealed, covers.walked.set_active _, covers.paths,
      covers.out, ?_, covers.noted, covers.kept⟩
    have active := covers.active
    dsimp only at active ⊢
    rw [active, Finset.erase_insert]
    rw [before.active]
    exact outside
  · refine raised es laid length fun a member => ?_
    rcases Finset.mem_insert.mp member with rfl | old
    · exact ⟨level, es, Nat.le_refl _, List.ne_nil_of_length_pos (by omega), laid.page⟩
    · rw [before.active] at old
      obtain ⟨high, es', higher, filled, page_at⟩ := above a old
      exact ⟨high, es', by omega, filled, page_at⟩
  rintro count s₅ ⟨es, length, page_at, rfl, covers⟩
  have whole : t.Covers start es (pagesUnder t.ipld level node) (pathsOf t.radix level entries) s s₅ := by
    have joined := before.trans covers
    rw [pagesUnder_eq]
    rwa [List.nil_append, List.singleton_append, Nat.add_sub_cancel' pages] at joined
  refine post_get_bind (post_modify_bind (post_pure ?_))
  have counted : s₅.walker.budget.paths - s.walker.budget.paths =
      pathsOf t.radix level entries := by
    rw [whole.paths, Nat.add_sub_cancel_left]
  rw [counted]
  exact ⟨es, length, page_at, rfl, rfl, whole.remember length page_at rfl⟩

/-- A page that holds a segment is not laid out at two positions. -/
theorem Tour.Laid.disjoint {level' start' i : Nat} {link : Cid} {es' : List Link}
    (laid : t.Laid level c start es) (earlier : t.Laid level' c start' es')
    (entry : es'[i]? = some (some link)) (before : start' + es'.length ≤ start) (filled : es ≠ [])
    (inside : start + es.length ≤ t.sealedCount) : False := by
  have bound := (List.getElem?_eq_some_iff.mp entry).1
  have filled' : es' ≠ [] := List.ne_nil_of_length_pos (by omega)
  obtain rfl : level = level' := by
    have up := laid.page.level_eq t.radix_pos earlier.page filled filled' laid.sealed.segments
    have down := earlier.page.level_eq t.radix_pos laid.page filled' filled earlier.sealed.segments
    omega
  have again := earlier.page.agree t.radix_pos laid.page entry
  have bound' := (List.getElem?_eq_some_iff.mp again).1
  obtain ⟨_, first⟩ := earlier.sealed i link entry
  obtain ⟨_, second⟩ := laid.sealed i link again
  have total := t.base_add
  have small := t.window_small (by omega : t.base + start' + i ≤ t.openOrd)
  have small' := t.window_small (by omega : t.base + start + i ≤ t.openOrd)
  have same := first.window_eq second (by omega) (by omega)
  omega

theorem countP_isSome_eq_zero (none : es.countP Option.isSome = 0) :
    es = List.replicate es.length Option.none := by
  rw [List.countP_eq_zero] at none
  apply List.eq_replicate_iff.mpr
  refine ⟨rfl, fun entry member => ?_⟩
  simpa using none entry member

/-- A subtree without segments is as good at a second position. -/
theorem Tour.Walked.skip_empty (walked : t.Walked start s)
    (inside : start + entries ≤ t.sealedCount)
    (room : s.walker.budget.paths + pathsOf t.radix level entries ≤ maxEnumerationPaths)
    (length : es.length = entries) (empty : es.countP Option.isSome = 0)
    (listed : ∀ p ∈ pagesUnder t.ipld level c, p ∈ s.walker.out.dirPages) :
    t.Covers start es (pagesUnder t.ipld level c) (pathsOf t.radix level entries) s
      { s with walker := { s.walker with budget := { s.walker.budget with
        paths := s.walker.budget.paths + pathsOf t.radix level entries } } } := by
  have counted := walked.add_paths room
  have nulls := countP_isSome_eq_zero empty
  rw [length] at nulls
  subst nulls
  refine ⟨SealedAt.nulls _ _, counted.walked.later (by simp) (by simpa using inside),
    counted.paths, ?_, counted.active, ?_, counted.kept⟩
  · simp [firstVisits_of_subset listed, sealedFrom_nulls]
  · intro d member
    simp [List.mem_replicate] at member

theorem IsPage.cbor {ipld : Codec} (isPage : IsPage ipld c page) : HasPrefix dagCBOR c := by
  obtain ⟨block, rfl, -⟩ := isPage
  exact nodeCID_hasPrefix ipld block

/-- One logical page position, whatever the shortcuts know about its page. -/
theorem Tour.Walked.visitDir_spec {node : Link} (walked : t.Walked start s)
    (reached : ∀ c, node = some c → Reaches t.ipld t.root (.page (level + 1)) c)
    (positive : 0 < entries) (inside : start + entries ≤ t.sealedCount)
    (room : s.walker.budget.paths + pathsOf t.radix level entries ≤ maxEnumerationPaths)
    (walks : ∀ c, node = some c → t.WalksPage walkPage level c start entries) :
    Post (visitDir t.ipld t.cfg walkPage node level start entries) s
      (fun summary s' => ∃ c, node = some c ∧ t.VisitedTo level c start entries s summary s')
      (fun _ => ∀ c es, node = some c → t.Laid level c start es → es.length = entries →
        t.Above (level + 1) s.walker.dirActive → t.Fails) := by
  cases node with
  | none =>
    refine post_fail (E := fun _ => ∀ c es, none = some c → t.Laid level c start es →
      es.length = entries → t.Above (level + 1) s.walker.dirActive → t.Fails) ?_
    rintro c es ⟨⟩
  | some node =>
    have at_node := reached node rfl
    refine post_ofExcept_bind ?_ fun _ valid => post_get_bind ?_
    · rintro e refused c es ⟨⟩ laid - -
      obtain ⟨page, isPage⟩ := laid.page.isPage
      rw [(validateIndexCID_ok_iff (u := ())).mpr ⟨node, rfl, isPage.cbor⟩] at refused
      cases refused
    obtain ⟨_, ⟨⟩, cbor⟩ := validateIndexCID_ok_iff.mp valid
    dsimp only
    cases found : s.walker.dirMemo.lookup ⟨node, level + 1, entries⟩ with
    | some summary =>
      obtain ⟨level', start', es', depth, length, laid, before, paths, count, listed⟩ :=
        walked.memo found
      obtain rfl : level = level' := by omega
      refine post_guard_bind ?_ fun empty => ?_
      · rintro shared c es ⟨⟩ again sameLength -
        have some_entry : summary.segments ≠ 0 := of_decide_eq_false shared
        rw [count] at some_entry
        obtain ⟨entry, member, isSome⟩ := List.countP_pos_iff.mp (Nat.pos_of_ne_zero some_entry)
        obtain ⟨link, rfl⟩ := Option.isSome_iff_exists.mp isSome
        obtain ⟨i, at_i⟩ := List.getElem?_of_mem member
        exact (again.disjoint laid at_i (by omega) (List.ne_nil_of_length_pos (by omega))
          (by omega)).elim
      · have empty : summary.segments = 0 := of_decide_eq_true empty
        refine post_then (post_charge (fun _ budget added => ?_) ?_)
          (P := fun _ s' => s' = { s with walker := { s.walker with budget :=
            { s.walker.budget with
              paths := s.walker.budget.paths + pathsOf t.radix level entries } } }) ?_
        · rw [addPaths_ok added, paths]
        · rintro e refused c es ⟨⟩ - - -
          have full := addPaths_error refused
          omega
        rintro _ _ rfl
        exact post_pure ⟨node, rfl, es', length, laid.page, paths, count,
          walked.skip_empty inside room length (by omega) listed⟩
    | none =>
      refine post_guard_bind ?_ fun outside => post_guard_bind ?_ fun empty => ?_
      · rintro cyclic c es ⟨⟩ laid length above
        have active : node ∈ s.walker.dirActive := by
          simpa using of_decide_eq_false cyclic
        obtain ⟨high, es', higher, filled, page⟩ := above node active
        exact absurd (Nat.lt_of_succ_le higher) (laid.page.level_eq t.radix_pos page
          (List.ne_nil_of_length_pos (by omega)) filled laid.sealed.segments)
      · rintro shared c es ⟨⟩ laid length -
        have contains : s.walker.dirContains.lookup node = some true := by
          simpa using of_decide_eq_false shared
        obtain ⟨_, _, _, _, _, earlier, before, entry⟩ := walked.contains contains
        exact (laid.disjoint earlier entry (by omega) (List.ne_nil_of_length_pos (by omega))
          (by omega)).elim
      · refine post_mono (walked.enterDir_spec cbor at_node positive room
          (of_decide_eq_true outside) (walks node rfl))
          (fun summary s' visited => ⟨node, rfl, visited⟩) ?_
        rintro e raised c es ⟨⟩ laid length above
        exact raised es laid length above

/-! ### The kids of a page -/

theorem Tour.walksPage_leaf (reached : Reaches t.ipld t.root (.page 1) node)
    (positive : 0 < entries) (fits : entries ≤ t.radix) (inside : start + entries ≤ t.sealedCount) :
    t.WalksPage (walkLeafPage t.ipld t.cfg start entries) 0 node start entries := by
  intro page s isPage walked _
  have width : u64 (1 <<< s.walker.st.params.fanoutBits) = t.radix := by
    rw [show s.walker.st.params = t.params by rw [walked.st]; rfl, Nat.one_shiftLeft]
    have wide : 2 ^ t.params.fanoutBits ≤ 2 ^ 32 := by
      rw [t.params_eq]
      exact Nat.pow_le_pow_right (by omega) t.fanout_le
    exact u64_of_lt (by omega)
  have kids_eq : ∀ {es : List Link}, PageAt t.ipld t.radix 0 node es →
      page.kids = trimTrailingNulls es := fun at_node => by rw [isPage.unique at_node.2]
  refine post_get_bind (post_guard_bind ?_ fun few => ?_)
  · intro many es laid length _
    obtain ⟨n, padded⟩ := trimTrailingNulls_pad es
    have fewer := congrArg List.length padded
    rw [← kids_eq laid.page, List.length_append] at fewer
    have many := of_decide_eq_false many
    rw [width] at many
    omega
  have few : page.kids.length ≤ entries := by
    have bound := of_decide_eq_true few
    omega
  obtain ⟨block, named, -, decoded⟩ := id isPage
  refine post_mono (Tour.Walked.walkLeaf_spec (t := t) 0 walked (fun c member => ?_)
    (by omega)) ?_ ?_
  · exact .step (named ▸ reached) (.leaf decoded member)
  · rintro count s' ⟨rfl, covers⟩
    have nulls := Tour.Covers.nulls (n := entries - page.kids.length) covers.walked (by omega)
    have all := covers.trans nulls
    refine ⟨page.kids ++ List.replicate (entries - page.kids.length) none, ?_, ⟨?_, ?_⟩, ?_, ?_⟩
    · rw [List.length_append, List.length_replicate]
      omega
    · rw [List.length_append, List.length_replicate]
      omega
    · rw [trimTrailingNulls_append_replicate, isPage.trimmed]
      exact isPage
    · rw [List.countP_append, List.countP_replicate]
      simp
    · rw [pathsOf, chunkCount_eq_one positive fits]
      exact all
  · intro e raised es laid length _
    obtain ⟨n, padded⟩ := trimTrailingNulls_pad es
    rw [← kids_eq laid.page] at padded
    have sealed := laid.sealed
    rw [padded, sealedAt_append_iff] at sealed
    exact raised sealed.1

/-- The pages of a range are those of its first chunk and of the rest. -/
theorem pathsOf_chunk (positive : 0 < radix) (level n : Nat) :
    pathsOf radix level n = pathsOf radix level (min n (radix ^ (level + 1))) +
      pathsOf radix level (n - radix ^ (level + 1)) := by
  rcases Nat.le_total n (radix ^ (level + 1)) with fits | more
  · rw [Nat.min_eq_left fits, Nat.sub_eq_zero_of_le fits, pathsOf_zero positive, Nat.add_zero]
  · rw [Nat.min_eq_right more, ← pathsOf_add positive (Nat.dvd_refl _), Nat.add_sub_cancel' more]

def Tour.WalksDir (t : Tour σ) (walk : Link → Nat → Nat → Walk σ DirSummary) (level : Nat) : Prop :=
  ∀ (node : Link) (start entries : Nat) (s : Walking σ), t.Walked start s →
    (∀ c, node = some c → Reaches t.ipld t.root (.page (level + 1)) c) → 0 < entries →
    entries ≤ t.radix ^ (level + 1) → start + entries ≤ t.sealedCount →
    s.walker.budget.paths + pathsOf t.radix level entries ≤ maxEnumerationPaths →
    Post (walk node start entries) s
      (fun summary s' => ∃ c, node = some c ∧ t.VisitedTo level c start entries s summary s')
      (fun _ => ∀ c es, node = some c → t.Laid level c start es → es.length = entries →
        t.Above (level + 1) s.walker.dirActive → t.Fails)

theorem Tour.sealedCount_lt (t : Tour σ) : t.sealedCount < maxUint64 :=
  Nat.lt_of_le_of_lt t.sealed_le (by decide)

theorem append_take_drop {front back : List Link} {cap : Nat}
    (frontLength : front.length = min n cap) (backLength : back.length = n - cap) :
    (front ++ back).take cap = front ∧ (front ++ back).drop cap = back := by
  rcases Nat.le_total n cap with fits | more
  · have empty : back = [] := List.length_eq_zero_iff.mp (by omega)
    rw [empty, List.append_nil, List.take_of_length_le (by omega),
      List.drop_eq_nil_of_le (by omega)]
    exact ⟨rfl, rfl⟩
  · have full : front.length = cap := by omega
    exact ⟨List.take_left' full, List.drop_left' full⟩

noncomputable def pagesOfKids (ipld : Codec) (level : Nat) (kids : List Link) : List Cid :=
  kids.flatMap fun kid =>
    match kid with
    | none => []
    | some kid => pagesUnder ipld level kid

theorem pagesOfKids_cons (ipld : Codec) (level : Nat) (c : Cid) (rest : List Link) :
    pagesOfKids ipld level (some c :: rest) = pagesUnder ipld level c ++ pagesOfKids ipld level rest :=
  rfl

theorem Tour.Walked.walkKids_spec (walks : t.WalksDir walk level)
    (inside : start + entries ≤ t.sealedCount) (digit : Nat) (kids : List Link)
    (walked : t.Walked (start + min (digit * t.radix ^ (level + 1)) entries) s)
    (reached : ∀ c, some c ∈ kids → Reaches t.ipld t.root (.page (level + 1)) c)
    (count : kids.length =
      chunkCount (t.radix ^ (level + 1)) (entries - digit * t.radix ^ (level + 1)))
    (room : s.walker.budget.paths +
      pathsOf t.radix level (entries - digit * t.radix ^ (level + 1)) ≤ maxEnumerationPaths) :
    Post (walkKids walk (capacity (level + 1) t.params.fanoutBits) start entries digit kids) s
      (fun count s' => ∃ es : List Link, es.length = entries - digit * t.radix ^ (level + 1) ∧
        KidsAt (PageAt t.ipld t.radix level) (t.radix ^ (level + 1)) kids es ∧
        count = es.countP Option.isSome ∧
        t.Covers (start + min (digit * t.radix ^ (level + 1)) entries) es
          (pagesOfKids t.ipld level kids)
          (pathsOf t.radix level (entries - digit * t.radix ^ (level + 1))) s s')
      (fun _ => ∀ es : List Link, es.length = entries - digit * t.radix ^ (level + 1) →
        KidsAt (PageAt t.ipld t.radix level) (t.radix ^ (level + 1)) kids es →
        SealedAt t.ipld t.params
          (t.base + (start + min (digit * t.radix ^ (level + 1)) entries)) es →
        t.Above (level + 1) s.walker.dirActive → t.Fails) := by
  have capPos : 0 < t.radix ^ (level + 1) := Nat.pow_pos t.radix_pos
  have power : t.radix ^ (level + 1) = 2 ^ (t.params.fanoutBits * (level + 1)) := by
    rw [Tour.radix, Nat.pow_mul]
  have limit : entries < maxUint64 := Nat.lt_of_le_of_lt (by omega) t.sealedCount_lt
  induction kids generalizing digit s with
  | nil =>
    have none : entries - digit * t.radix ^ (level + 1) = 0 := by
      by_contra some
      have more := chunkCount_pos capPos (Nat.pos_of_ne_zero some)
      rw [← count] at more
      simp at more
    rw [none, pathsOf_zero t.radix_pos]
    exact post_pure ⟨[], rfl, rfl, rfl, .nil walked⟩
  | cons kid rest ih =>
    have left : digit * t.radix ^ (level + 1) < entries := by
      by_contra past
      rw [Nat.sub_eq_zero_of_le (by omega), chunkCount_zero capPos] at count
      simp at count
    have next : (digit + 1) * t.radix ^ (level + 1) =
        digit * t.radix ^ (level + 1) + t.radix ^ (level + 1) := by
      rw [Nat.add_mul, Nat.one_mul]
    obtain ⟨offset_eq, entries_eq⟩ := capacity_kid (d := level + 1) limit (power ▸ left)
    rw [← power] at offset_eq entries_eq
    rw [pathsOf_chunk t.radix_pos] at room
    rw [chunkCount_sub capPos (by omega), List.length_cons, Nat.add_right_cancel_iff] at count
    have done : min (digit * t.radix ^ (level + 1)) entries = digit * t.radix ^ (level + 1) := by
      omega
    rw [done] at walked ⊢
    refine post_guard_bind ?_ fun isSome => ?_
    · rintro missing es - ⟨-, ⟨c, rfl, -⟩, -⟩
      simp at missing
    have wide : maxUint64 < 2 ^ 64 := by decide
    have bound := t.sealedCount_lt
    rw [offset_eq, entries_eq, u64_of_lt (by omega)]
    refine post_then (post_raised (walks kid _ _ s walked (fun c same => reached c (by simp [same]))
      (by omega) (by omega) (by omega) (by omega)) ?_) ?_
    · rintro e raised es length ⟨-, ⟨c, same, page⟩, -⟩ sealed above
      rw [← List.take_append_drop (t.radix ^ (level + 1)) es, sealedAt_append_iff] at sealed
      exact raised c _ same ⟨page, sealed.1⟩ (by rw [List.length_take]; omega) above
    rintro summary s₁ ⟨c, rfl, front, frontLength, page, -, segments, covers⟩
    have after : start + digit * t.radix ^ (level + 1) + front.length =
        start + min ((digit + 1) * t.radix ^ (level + 1)) entries := by omega
    have walked₁ := covers.walked
    rw [after] at walked₁
    have rest_eq : entries - (digit + 1) * t.radix ^ (level + 1) =
        entries - digit * t.radix ^ (level + 1) - t.radix ^ (level + 1) := by omega
    refine post_then (post_raised (ih (digit + 1) walked₁
      (fun d member => reached d (List.mem_cons_of_mem _ member)) (by rw [rest_eq]; exact count)
      (by rw [rest_eq, covers.paths]; omega)) ?_) ?_
    · rintro e raised es length ⟨-, ⟨d, -, -⟩, others⟩ sealed above
      rw [← List.take_append_drop (t.radix ^ (level + 1)) es, sealedAt_append_iff] at sealed
      refine raised _ (by rw [List.length_drop]; omega) others ?_ (covers.active ▸ above)
      rw [List.length_take, length, Nat.min_comm, ← frontLength, Nat.add_assoc, after] at sealed
      exact sealed.2
    · rintro total s₂ ⟨back, backLength, others, rfl, covers'⟩
      rw [rest_eq] at backLength
      obtain ⟨take_eq, drop_eq⟩ := append_take_drop frontLength backLength
      refine post_pure ⟨front ++ back, ?_, ⟨?_, ⟨c, rfl, ?_⟩, ?_⟩, ?_, ?_⟩
      · rw [List.length_append]
        omega
      · exact List.append_ne_nil_of_left_ne_nil (List.ne_nil_of_length_pos (by omega)) _
      · rw [take_eq]
        exact page
      · rw [drop_eq]
        exact others
      · rw [segments, List.countP_append]
      · rw [pathsOf_chunk t.radix_pos, ← rest_eq, pagesOfKids_cons]
        refine covers.trans ?_
        rw [after]
        exact covers'

theorem Tour.walksPage_inner (walks : t.WalksDir walk level)
    (reached : Reaches t.ipld t.root (.page (level + 2)) node) (positive : 0 < entries)
    (fits : entries ≤ t.radix ^ (level + 2)) (inside : start + entries ≤ t.sealedCount) :
    t.WalksPage (walkInnerPage walk (level + 1) start entries) (level + 1) node start entries := by
  intro page s isPage walked room
  have power : 2 ^ (t.params.fanoutBits * (level + 1)) = t.radix ^ (level + 1) := by
    rw [Tour.radix, Nat.pow_mul]
  have limit : entries < maxUint64 := Nat.lt_of_le_of_lt (by omega) t.sealedCount_lt
  have pages : pathsOf t.radix (level + 1) entries - 1 = pathsOf t.radix level entries := by
    rw [pathsOf_succ positive fits, Nat.add_sub_cancel_left]
  have below : pagesBelow t.ipld (level + 1) node = pagesOfKids t.ipld level page.kids := by
    rw [← isPage.kidsOf_eq]
    rfl
  rw [pages] at room ⊢
  refine post_get_bind ?_
  rw [show s.walker.st.params = t.params by rw [walked.st]; rfl]
  dsimp only
  rw [expectedKids_eq limit positive, power]
  refine post_guard_bind ?_ fun count => ?_
  · rintro wrong es ⟨⟨page', isPage', kids⟩, -⟩ rfl -
    obtain rfl := isPage.unique isPage'
    exact absurd (kids.length (Nat.pow_pos t.radix_pos)) (of_decide_eq_false wrong)
  obtain ⟨block, named, -, decoded⟩ := id isPage
  have start_eq : start + min (0 * t.radix ^ (level + 1)) entries = start := by simp
  have entries_eq : entries - 0 * t.radix ^ (level + 1) = entries := by simp
  have spec := Tour.Walked.walkKids_spec (t := t) (s := s) walks inside 0 page.kids
  rw [start_eq, entries_eq] at spec
  refine post_mono (spec walked (fun c member => .step (named ▸ reached) (.child decoded member))
    (of_decide_eq_true count) room) ?_ ?_
  · rintro count s' ⟨es, length, kids, counted, covers⟩
    rw [below]
    exact ⟨es, length, ⟨page, isPage, kids⟩, counted, covers⟩
  · rintro e raised es ⟨⟨page', isPage', kids⟩, sealed⟩ length above
    obtain rfl := isPage.unique isPage'
    exact raised es length kids sealed above

theorem Tour.walkDir_spec (t : Tour σ) (level : Nat) :
    t.WalksDir (walkDir t.ipld t.cfg level) level := by
  induction level with
  | zero =>
    intro node start entries s walked reached positive fits inside room
    rw [Nat.zero_add, Nat.pow_one] at fits
    exact walked.visitDir_spec reached positive inside room fun c same =>
      Tour.walksPage_leaf (reached c same) positive fits inside
  | succ level ih =>
    intro node start entries s walked reached positive fits inside room
    exact walked.visitDir_spec reached positive inside room fun c same =>
      Tour.walksPage_inner ih (reached c same) positive fits inside

end Bloar.Archive
