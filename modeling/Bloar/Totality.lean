import Bloar.Atomicity

/-!
The loop over windows of `ApplyRefs` always ends, and a call that returns has done
exact arithmetic. The counter of the loop is a `uint64`. It wraps only when the last
window is the largest ordinal there is; every window is then sealed, and each turn of
the counter has an append at the largest index, which makes the directory one level
deeper. A directory of more than 64 levels takes no entry.
-/

namespace Bloar.Archive
open Ipld Schema Arith Fallible

variable {σ : Type} {ipld : Codec} {cfg : Config σ}

/-- The loop over windows as the source runs it, with no bound on its rounds. -/
inductive Ends (ipld : Codec) (cfg : Config σ) (newSyncedTo w1 : Nat) :
    Nat → Loop → World σ → Except Error Loop × World σ → Prop where
  | done {win : Nat} {loop : Loop} {w : World σ} (past : ¬ win ≤ w1) :
      Ends ipld cfg newSyncedTo w1 win loop w (.ok loop, w)
  | failed {win : Nat} {loop : Loop} {w w' : World σ} {e : Error} (last : win ≤ w1)
      (raised : applyWindow ipld cfg newSyncedTo win loop w = (.error e, w')) :
      Ends ipld cfg newSyncedTo w1 win loop w (.error e, w')
  | next {win : Nat} {loop loop' : Loop} {w w' : World σ} {out : Except Error Loop × World σ}
      (last : win ≤ w1) (ran : applyWindow ipld cfg newSyncedTo win loop w = (.ok loop', w'))
      (rest : Ends ipld cfg newSyncedTo w1 (u64 (win + 1)) loop' w' out) :
      Ends ipld cfg newSyncedTo w1 win loop w out

section Loop
variable {newSyncedTo w1 : Nat}

/-- A measure that every round lowers bounds the rounds of the loop. -/
theorem ends_of_measure (measure : Nat → Loop → Nat) (fits : Nat → Loop → Prop)
    (lowers : ∀ win loop loop' w w', fits win loop → win ≤ w1 →
      applyWindow ipld cfg newSyncedTo win loop w = (.ok loop', w') →
      fits (u64 (win + 1)) loop' ∧ measure (u64 (win + 1)) loop' < measure win loop)
    (zero : ∀ win loop, fits win loop → measure win loop = 0 → ¬ win ≤ w1)
    {rounds win : Nat} {loop : Loop} (start : fits win loop) (enough : measure win loop ≤ rounds)
    (w : World σ) :
    Ends ipld cfg newSyncedTo w1 win loop w
      (applyWindows ipld cfg newSyncedTo w1 rounds win loop w) := by
  induction rounds generalizing win loop w with
  | zero =>
    have past := zero win loop start (Nat.le_zero.mp enough)
    rw [applyWindows, if_neg past]
    exact .done past
  | succ rounds ih =>
    rw [applyWindows]
    by_cases last : win ≤ w1
    · rw [if_pos last, bind_run]
      rcases ran : applyWindow ipld cfg newSyncedTo win loop w with ⟨outcome, w'⟩
      cases outcome with
      | error e => exact .failed last ran
      | ok loop' =>
        obtain ⟨fits', lower⟩ := lowers win loop loop' w w' start last ran
        exact .next last ran (ih fits' (by omega) w')
    · rw [if_neg last]
      exact .done last

theorem capacity_le_max (d fanoutBits : Nat) : capacity d fanoutBits ≤ maxUint64 := by
  rcases Nat.lt_or_ge (fanoutBits * d) 64 with small | large
  · rw [capacity_eq small, maxUint64]
    have below : 2 ^ (fanoutBits * d) < 2 ^ 64 := Nat.pow_lt_pow_right (by omega) small
    omega
  · rw [capacity_saturated large]

theorem pathDigits_shallow {i depth fanoutBits : Nat} {digits : List Nat}
    (found : pathDigits i depth fanoutBits = some digits) : depth ≤ 64 := by
  unfold pathDigits at found
  split at found
  · omega
  · split at found
    · cases found
    · omega

/-- What an append that returns did to the depth, whatever the store hands out. -/
theorem dirAppend_depth (dir kid : Link) (depth fanoutBits i : Nat) (w : World σ) :
    Post (dirAppend ipld cfg dir depth fanoutBits i kid) w
      (fun made _ => made.2 ≤ 64 ∧ (depth = 0 ∧ i = 0 ∧ made.2 = 1 ∨
        depth ≠ 0 ∧ i = capacity depth fanoutBits ∧ made.2 = depth + 1 ∨
        depth ≠ 0 ∧ i < capacity depth fanoutBits ∧ made.2 = depth))
      (fun _ => True) := by
  refine post_ite (fun flat => post_ite (fun _ => trivial) fun first => ?_) fun deep => ?_
  · refine post_then (post_any _) fun _ _ _ => ?_
    exact post_pure ⟨Nat.le_add_left 1 63, .inl ⟨flat, by omega, rfl⟩⟩
  · refine post_then (P := fun grown _ => i = capacity depth fanoutBits ∧ grown.2 = depth + 1 ∨
      i < capacity depth fanoutBits ∧ grown.2 = depth) ?_ ?_
    · refine post_ite (fun full => ?_) fun below => post_ite (fun _ => trivial) fun inside => ?_
      · exact post_then (post_any _) fun _ _ _ => post_pure (.inl ⟨full, rfl⟩)
      · exact post_pure (.inr ⟨by omega, rfl⟩)
    · rintro ⟨dir', depth'⟩ w' grown
      cases found : pathDigits i depth' fanoutBits with
      | none => simp only [found]; trivial
      | some digits =>
        simp only [found]
        refine post_then (post_any _) fun _ _ _ => ?_
        exact post_pure ⟨pathDigits_shallow found, .inr (grown.imp (.intro deep) (.intro deep))⟩

theorem windowEnd_le_max (win segBits : Nat) : windowEnd win segBits ≤ maxUint64 := by
  rw [windowEnd, pred64, u64_eq, maxUint64]
  split <;> omega

/-- Coverage up to the largest slot seals the window of every round. -/
theorem applyWindow_deepens (win : Nat) (loop : Loop) (w : World σ) :
    Post (applyWindow ipld cfg maxUint64 win loop) w
      (fun loop' _ => loop'.next.params = loop.next.params ∧ loop'.next.dirDepth ≤ 64 ∧
        loop.next.dirDepth ≤ loop'.next.dirDepth ∧
        (sub64 win loop.next.dirBase = maxUint64 → loop.next.dirDepth < loop'.next.dirDepth))
      (fun _ => True) := by
  refine post_then (post_any _) fun opened _ _ => ?_
  rw [sealIfFull, if_pos (windowEnd_le_max _ _)]
  refine post_then (P := fun made _ => made.1.params = loop.next.params ∧ made.1.dirDepth ≤ 64 ∧
    loop.next.dirDepth ≤ made.1.dirDepth ∧
    (sub64 win loop.next.dirBase = maxUint64 → loop.next.dirDepth < made.1.dirDepth)) ?_
    fun _ _ made => post_pure made
  refine post_then (post_any _) fun _ _ _ => ?_
  refine post_then (post_any _) fun _ _ _ => ?_
  refine post_then (dirAppend_depth _ _ _ _ _ _) ?_
  rintro made _ ⟨shallow, grown⟩
  -- At the largest index a saturated capacity counts as full.
  have most := capacity_le_max loop.next.dirDepth loop.next.params.fanoutBits
  exact post_pure ⟨rfl, shallow, by dsimp only; omega, fun top => by dsimp only; omega⟩

theorem sub64_succ (a b : Nat) :
    sub64 (u64 (a + 1)) b = if sub64 a b = maxUint64 then 0 else sub64 a b + 1 := by
  simp only [sub64, u64_eq, maxUint64]
  split <;> omega

theorem sub64_le_max (a b : Nat) : sub64 a b ≤ maxUint64 := by
  rw [sub64, u64_eq, maxUint64]
  omega

/-- The rounds left when every window is sealed: the appends up to the next one at the
largest index, and a whole turn of the counter for each level left. -/
def turnsLeft (win : Nat) (loop : Loop) : Nat :=
  (65 - loop.next.dirDepth) * 2 ^ 64 + (maxUint64 - sub64 win loop.next.dirBase) + 1

theorem turnsLeft_lowers {win : Nat} {loop loop' : Loop}
    (params : loop'.next.params = loop.next.params) (shallow : loop'.next.dirDepth ≤ 64)
    (grows : loop.next.dirDepth ≤ loop'.next.dirDepth)
    (deepens : sub64 win loop.next.dirBase = maxUint64 →
      loop.next.dirDepth < loop'.next.dirDepth) :
    turnsLeft (u64 (win + 1)) loop' < turnsLeft win loop := by
  have base : loop'.next.dirBase = loop.next.dirBase := by
    rw [State.dirBase, State.dirBase, params]
  have most := sub64_le_max win loop.next.dirBase
  rw [turnsLeft, turnsLeft, base, sub64_succ]
  rw [maxUint64_eq] at *
  split
  · rename_i top
    have deeper := deepens top
    have turn : 65 - loop'.next.dirDepth + 1 ≤ 65 - loop.next.dirDepth := by omega
    have whole := Nat.mul_le_mul_right (2 ^ 64) turn
    rw [Nat.add_mul] at whole
    omega
  · have levels : 65 - loop'.next.dirDepth ≤ 65 - loop.next.dirDepth := by omega
    have whole := Nat.mul_le_mul_right (2 ^ 64) levels
    omega

theorem turnsLeft_le (win : Nat) (loop : Loop) : turnsLeft win loop ≤ 66 * 2 ^ 64 := by
  have levels : (65 - loop.next.dirDepth) * 2 ^ 64 ≤ 65 * 2 ^ 64 :=
    Nat.mul_le_mul_right _ (Nat.sub_le _ _)
  have appends : maxUint64 - sub64 win loop.next.dirBase ≤ 2 ^ 64 - 1 := Nat.sub_le _ _
  calc turnsLeft win loop ≤ 65 * 2 ^ 64 + (2 ^ 64 - 1) + 1 :=
        Nat.succ_le_succ (Nat.add_le_add levels appends)
    _ = 66 * 2 ^ 64 := by norm_num

theorem applyWindows_ends {segBits w0 : Nat} (bounded : newSyncedTo < 2 ^ 64) (loop : Loop)
    (w : World σ) :
    Ends ipld cfg newSyncedTo (ord newSyncedTo segBits) w0 loop w
      (applyWindows ipld cfg newSyncedTo (ord newSyncedTo segBits)
        (windowRounds w0 (ord newSyncedTo segBits)) w0 loop w) := by
  have last_le := ord_le newSyncedTo segBits
  rw [windowRounds]
  split
  · -- The counter passes the last window.
    rename_i below
    rw [maxUint64_eq] at below
    refine ends_of_measure (fun win _ => ord newSyncedTo segBits + 1 - win) (fun _ _ => True)
      ?_ ?_ trivial (Nat.le_refl _) w
    · intro win loop loop' w w' _ last _
      rw [u64_of_lt (by omega)]
      exact ⟨trivial, by omega⟩
    · intro win loop _ none
      omega
  · rename_i top
    rw [maxUint64] at top
    obtain rfl : newSyncedTo = maxUint64 := by
      rw [maxUint64]
      omega
    refine ends_of_measure turnsLeft (fun _ _ => True) ?_ ?_ trivial (turnsLeft_le w0 loop) w
    · intro win loop loop' w w' _ _ ran
      obtain ⟨params, shallow, grows, deepens⟩ := post_ok (applyWindow_deepens win loop w) ran
      exact ⟨trivial, turnsLeft_lowers params shallow grows deepens⟩
    · intro win loop _ none
      rw [turnsLeft] at none
      omega

end Loop

section Call
variable {present : σ → Cid → Prop} {params : Params} {f : Flat} {w : World σ}
variable {rows : List RefRow} {newSyncedTo : Nat}

structure Exact (params : Params) (win : Nat) : Prop where
  last : windowEnd win params.segBits = (win + 1) * 2 ^ params.segBits - 1
  next : windowStart (u64 (win + 1)) params.segBits = (win + 1) * 2 ^ params.segBits
  based : params.base ≤ win
  index : sub64 win params.base = win - params.base

theorem Params.Usable.exact (usable : params.Usable) (small : newSyncedTo ≤ maxInt64) {win : Nat}
    (based : params.base ≤ win) (last : win ≤ ord newSyncedTo params.segBits) :
    Exact params win := by
  have fits := usable.next_start small last
  have wide : win + 1 ≤ (win + 1) * 2 ^ params.segBits :=
    Nat.le_mul_of_pos_right _ (Nat.two_pow_pos _)
  refine ⟨windowEnd_eq fits, ?_, based, sub64_eq based (by omega)⟩
  rw [u64_of_lt (by omega), windowStart_eq fits]

def firstWindow (st : State) : Nat :=
  ord (if st.covered then u64 (st.syncedTo + 1) else st.params.originSlot) st.params.segBits

/-- For every head made by a run and every batch with a 64-bit coverage: the loop over windows ends; a call that returns has computed every window exactly and
leaves a coverage and an open segment whose next slots are integers a node can carry;
a call that fails leaves the head as it was. -/
theorem applyRefs_total (durable : Durable ipld cfg present)
    (run : Run ipld cfg present params w f) (bounded : newSyncedTo < 2 ^ 64) :
    (∀ loop w0 started, Ends ipld cfg newSyncedTo (ord newSyncedTo params.segBits) w0 loop started
      (applyWindows ipld cfg newSyncedTo (ord newSyncedTo params.segBits)
        (windowRounds w0 (ord newSyncedTo params.segBits)) w0 loop started)) ∧
    (∀ r w', applyRefs ipld cfg rows newSyncedTo w = (.ok r, w') →
      (∀ win, firstWindow w.cur ≤ win → win ≤ ord newSyncedTo params.segBits → Exact params win) ∧
      w'.cur.syncedTo + 1 ≤ maxInt64 ∧
      ∃ seg, w'.cur.openCid = some (cidOf ipld (segmentNode seg)) ∧
        present w'.shared (cidOf ipld (segmentNode seg)) ∧
        seg.slot0 = ord (w'.cur.syncedTo + 1) params.segBits * 2 ^ params.segBits ∧
        seg.slot0 ≤ w'.cur.syncedTo + 1) ∧
    ∀ e w', applyRefs ipld cfg rows newSyncedTo w = (.error e, w') → w'.cur = w.cur := by
  obtain ⟨m, represents, agrees⟩ := run.represents durable
  have up := durable.upholds
  refine ⟨fun loop w0 started => applyWindows_ends bounded loop started, fun r w' ran => ?_,
    fun e w' raised => (up.applyRefs_keepsOnError rows newSyncedTo w e w' raised).cur⟩
  -- Either way the head ends up covered, and its coverage bounds the batch's.
  obtain ⟨m', s, represents', covered, le⟩ : ∃ m' s,
      Represents ipld params (Present present) w' m' ∧ m'.coverage = some s ∧ newSyncedTo ≤ s := by
    rcases post_ok (up.applyRefs_spec (present_unobserved present) represents) ran with
      ⟨-, ⟨⟨s, covered, back⟩, -⟩, -, -, grows⟩ | ⟨-, -, -, out, -, -, extended⟩
    · exact ⟨m, s, represents.mono grows, covered, back⟩
    · exact ⟨_, newSyncedTo, extended.represents, rfl, Nat.le_refl _⟩
  have inside := represents'.valid.bounded s covered
  have synced := represents'.syncedTo_eq covered
  have start : params.base ≤ firstWindow w.cur := by
    rw [firstWindow, represents.start_eq]
    exact represents.valid.base_le_start
  refine ⟨fun win after last => represents.usable.exact (by omega) (Nat.le_trans start after) last,
    by omega, segOf params.segBits m'.rows (openWindow params s),
    represents'.openCid_eq covered, (represents'.open_stored covered).held, ?_, ?_⟩ <;> rw [synced]
  · rfl
  · exact le_ord_iff.mp (Nat.le_refl _)

theorem applyRefs_total_sample : ∃ r w',
    applyRefs DagCbor.codec sampleConfig [] 20 sampleApplied = (.ok r, w') ∧
      (∀ win, firstWindow sampleApplied.cur ≤ win → win ≤ 10 → Exact sampleParams win) ∧
      w'.cur.syncedTo + 1 ≤ maxInt64 := by
  obtain ⟨r, answer⟩ := Option.isSome_iff_exists.mp (show
    (applyRefs DagCbor.codec sampleConfig [] 20 sampleApplied).1.toOption.isSome from
    by decide +kernel)
  have ran := returned (ok_of_toOption answer)
  obtain ⟨exact, inside, -⟩ := (applyRefs_total (memory_reliable DagCbor.codec sampleBlob).toDurable
    sampleApplied_run (by decide : 20 < 2 ^ 64)).2.1 _ _ ran
  exact ⟨r, _, ran, exact, inside⟩

end Call

end Bloar.Archive
