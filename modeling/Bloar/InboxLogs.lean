import Bloar.ChainSpec

/-!
The logs of an inbox in the order of the chain. `canonicalInboxLogs` sorts a copy of what the
node returned and then checks each log against those before it. What it checks does not depend
on an order: it accepts a list exactly when every log fits the request and every two logs are
compatible, and then the list has one order.
-/

namespace Bloar.Chain
open Schema Archive Indexing
open Loops

/-! ### The slice of the caller -/

abbrev Arrays := List (List Log)

/-- `append([]types.Log(nil), logs...)`. -/
def Arrays.copy (m : Arrays) (logs : Nat) : Nat × Arrays := (m.length, m ++ [m.getD logs []])

/-- `sort.SliceStable`, which sorts in place. -/
def Arrays.sort (m : Arrays) (logs : Nat) : Arrays :=
  m.set logs ((m.getD logs []).insertionSort Log.precedes)

/-- `canonicalInboxLogs` over the array that the node's answer is in. -/
def canonicalInboxLogsIn (m : Arrays) (logs : Nat) (src : Source) (first last : Nat) :
    Except String Nat × Arrays :=
  let (ordered, m) := m.copy logs
  let m := m.sort ordered
  ((checkLogs src first last [] (m.getD ordered [])).map fun _ => ordered, m)

theorem canonicalInboxLogsIn_eq {m : Arrays} {a : Nat} {logs : List Log} (found : m[a]? = some logs)
    (src : Source) (first last : Nat) :
    (canonicalInboxLogsIn m a src first last).2 = m ++ [logs.insertionSort Log.precedes] ∧
      (canonicalInboxLogsIn m a src first last).1.map
          ((canonicalInboxLogsIn m a src first last).2.getD · []) =
        canonicalInboxLogs logs src first last := by
  have sorted : (m.copy a).2.sort (m.copy a).1 = m ++ [logs.insertionSort Log.precedes] := by
    simp [Arrays.copy, Arrays.sort, found]
  refine ⟨sorted, ?_⟩
  simp only [canonicalInboxLogsIn, sorted, canonicalInboxLogs]
  have here : (m ++ [logs.insertionSort Log.precedes]).getD (m.copy a).1 [] =
      logs.insertionSort Log.precedes := by simp [Arrays.copy]
  rw [here]
  cases checkLogs src first last [] (logs.insertionSort Log.precedes) with
  | error e => rfl
  | ok _ => exact congrArg Except.ok here

/-! ### What is checked -/

structure Log.Fits (src : Source) (first last : Nat) (l : Log) : Prop where
  inside : first ≤ l.blockNumber ∧ l.blockNumber ≤ last
  address : l.address = src.address
  topic : l.topics.head? = some src.topic
  block : l.blockHash ≠ 0
  tx : l.txHash ≠ 0

structure Log.Compatible (a b : Log) : Prop where
  block : a.blockNumber = b.blockNumber ↔ a.blockHash = b.blockHash
  tx : a.blockNumber = b.blockNumber ∧ a.txIndex = b.txIndex ↔ a.txHash = b.txHash
  order : a.blockNumber = b.blockNumber →
    a.index ≠ b.index ∧ (a.txIndex < b.txIndex → a.index < b.index) ∧
      (b.txIndex < a.txIndex → b.index < a.index)

theorem Log.Compatible.symm {a b : Log} (compatible : a.Compatible b) : b.Compatible a where
  block := eq_comm.trans (compatible.block.trans eq_comm)
  tx := by
    rw [eq_comm (a := b.txHash), ← compatible.tx, eq_comm (a := b.blockNumber),
      eq_comm (a := b.txIndex)]
  order same := by
    obtain ⟨apart, left, right⟩ := compatible.order same.symm
    exact ⟨apart.symm, right, left⟩

instance : Std.Symm Log.Compatible := ⟨fun _ _ => Log.Compatible.symm⟩

def Log.Before (a b : Log) : Prop :=
  a.blockNumber < b.blockNumber ∨
    a.blockNumber = b.blockNumber ∧
      (a.txIndex < b.txIndex ∨ a.txIndex = b.txIndex ∧ a.index < b.index)

theorem check_ok_iff {α β : Type} {condition : Prop} [Decidable condition] {e : String}
    {next : α → Except String β} {rest : Except String β} {b : β} :
    (if condition then (.error e : Except String α) >>= next else rest) = .ok b ↔
      ¬ condition ∧ rest = .ok b := by
  split <;> simp [*, bind, Except.bind]

/-- What the loop requires of a log after those seen; only the last of them is compared with
its index. -/
theorem checkLog_ok_iff {src : Source} {first last : Nat} {seen : List Log} {l : Log} :
    checkLog src first last seen l = .ok () ↔ l.Fits src first last ∧
      (∀ p ∈ seen, (p.blockNumber = l.blockNumber ↔ p.blockHash = l.blockHash) ∧
        (p.blockNumber = l.blockNumber ∧ p.txIndex = l.txIndex ↔ p.txHash = l.txHash) ∧
        (p.blockNumber = l.blockNumber → p.index ≠ l.index)) ∧
      ∀ p, seen.head? = some p → p.blockNumber = l.blockNumber → p.index < l.index := by
  simp only [checkLog, check_ok_iff, List.any_eq_true, Bool.and_eq_true, Bool.not_eq_true',
    Bool.and_eq_false_iff, beq_iff_eq, beq_eq_false_iff_ne, bne_iff_ne, not_exists, not_and, not_not]
  constructor
  · rintro ⟨inside, address, topic, block, tx, numbers, hashes, positions, indices, places, order⟩
    refine ⟨⟨by omega, address, topic, block, tx⟩, fun p member => ⟨⟨numbers p member, hashes p member⟩,
      ⟨indices p member, fun same => ?_⟩, positions p member⟩, ?_⟩
    · have apart := places p member same
      tauto
    · intro p isHead sameBlock
      by_contra late
      simp [isHead, sameBlock, Nat.le_of_not_lt late] at order
  · rintro ⟨fits, each, order⟩
    have inside := fits.inside
    refine ⟨by omega, fits.address, fits.topic, fits.block, fits.tx, fun p member => (each p member).1.mp,
      fun p member => (each p member).1.mpr, fun p member => (each p member).2.2,
      fun p member => (each p member).2.1.mp, fun p member same => ?_, ?_⟩
    · have place := (each p member).2.1.mpr same
      tauto
    · rw [if_neg]
      · rfl
      · simp only [Option.isSome_filter, Option.any_eq_true, not_exists, not_and]
        intro p isHead
        have later := order p isHead
        simp only [Bool.and_eq_true, beq_iff_eq, decide_eq_true_eq, not_and, Nat.not_le]
        exact later

/-! ### Sorted lists -/

section Sorted

variable {src : Source} {first last : Nat} {a b : Log} {logs logs' ordered : List Log}

theorem Log.Compatible.before (compatible : a.Compatible b) (sorted : a.precedes b) : a.Before b := by
  unfold Log.precedes at sorted
  unfold Log.Before
  have order := compatible.order
  omega

theorem Log.Compatible.index_lt (compatible : a.Compatible b) (sorted : a.precedes b)
    (block : a.blockNumber = b.blockNumber) : a.index < b.index := by
  have before := compatible.before sorted
  unfold Log.Before at before
  have order := compatible.order block
  omega

theorem Log.Before.not_precedes (before : a.Before b) : ¬ b.precedes a := by
  unfold Log.Before at before
  unfold Log.precedes
  omega

/-- Along sorted logs it is enough to compare the index with the last log: those before it in
the block have smaller ones. -/
theorem compatible_of_checked {seen : List Log} {l : Log}
    (past : seen.Pairwise fun b a => a.precedes b ∧ a.Compatible b)
    (after : ∀ p ∈ seen, p.precedes l) (checked : checkLog src first last seen l = .ok ()) :
    ∀ p ∈ seen, p.Compatible l := by
  obtain ⟨-, each, order⟩ := checkLog_ok_iff.mp checked
  intro p member
  obtain ⟨block, tx, -⟩ := each p member
  have sorted := after p member
  have index : p.blockNumber = l.blockNumber → p.index < l.index := by
    intro same
    cases seen with
    | nil => cases member
    | cons h older =>
      rcases List.mem_cons.mp member with rfl | old
      · exact order p rfl same
      · obtain ⟨toHead, compatible⟩ := (List.pairwise_cons.mp past).1 p old
        have fromHead := after h List.mem_cons_self
        have between : p.blockNumber = h.blockNumber := by
          unfold Log.precedes at toHead fromHead
          omega
        exact (compatible.index_lt toHead between).trans (order h rfl (between ▸ same))
  refine ⟨block, tx, fun same => ?_⟩
  have smaller := index same
  unfold Log.precedes at sorted
  omega

theorem checkLogs_ok_iff {seen rest : List Log} (sorted : rest.Pairwise Log.precedes)
    (after : ∀ p ∈ seen, ∀ l ∈ rest, p.precedes l)
    (past : seen.Pairwise fun b a => a.precedes b ∧ a.Compatible b) :
    checkLogs src first last seen rest = .ok () ↔
      (∀ l ∈ rest, l.Fits src first last) ∧ rest.Pairwise Log.Compatible ∧
        ∀ p ∈ seen, ∀ l ∈ rest, p.Compatible l := by
  induction rest generalizing seen with
  | nil => simp [checkLogs, pure, Except.pure]
  | cons l rest ih =>
    obtain ⟨here, sorted⟩ := List.pairwise_cons.mp sorted
    have afterL : ∀ p ∈ seen, p.precedes l := fun p member => after p member l List.mem_cons_self
    have later : ∀ p ∈ l :: seen, ∀ l' ∈ rest, p.precedes l' := by
      intro p member l' inRest
      rcases List.mem_cons.mp member with rfl | old
      · exact here l' inRest
      · exact after p old l' (List.mem_cons_of_mem l inRest)
    have extend (all : ∀ p ∈ seen, p.Compatible l) :
        (l :: seen).Pairwise fun b a => a.precedes b ∧ a.Compatible b :=
      List.pairwise_cons.mpr ⟨fun p member => ⟨afterL p member, all p member⟩, past⟩
    rw [checkLogs, bind_ok_iff]
    simp only [List.forall_mem_cons, List.pairwise_cons]
    constructor
    · rintro ⟨⟨⟩, checked, done⟩
      have all := compatible_of_checked past afterL checked
      obtain ⟨fits, pairs, ⟨first, others⟩⟩ :=
        (ih sorted later (extend all)).mp done |>.imp id (And.imp id List.forall_mem_cons.mp)
      exact ⟨⟨(checkLog_ok_iff.mp checked).1, fits⟩, ⟨first, pairs⟩,
        fun p member => ⟨all p member, others p member⟩⟩
    · rintro ⟨⟨fits, others⟩, ⟨first, pairs⟩, all⟩
      have seenL : ∀ p ∈ seen, p.Compatible l := fun p member => (all p member).1
      refine ⟨(), checkLog_ok_iff.mpr ⟨fits, fun p member => ?_, fun p isHead same => ?_⟩,
        (ih sorted later (extend seenL)).mpr ⟨others, pairs, ?_⟩⟩
      · exact ⟨(seenL p member).block, (seenL p member).tx, fun same => ((seenL p member).order same).1⟩
      · have member := List.mem_of_head? isHead
        exact (seenL p member).index_lt (afterL p member) same
      · exact List.forall_mem_cons.mpr ⟨first, fun p member => (all p member).2⟩

/-- What a list of logs is accepted for; no order is part of it. -/
def Accepted (src : Source) (first last : Nat) (logs : List Log) : Prop :=
  (∀ l ∈ logs, l.Fits src first last) ∧ logs.Pairwise Log.Compatible

theorem Accepted.of_perm (perm : logs.Perm logs') (accepted : Accepted src first last logs) :
    Accepted src first last logs' :=
  ⟨fun l member => accepted.1 l (perm.mem_iff.mpr member),
    (perm.pairwise_iff Log.Compatible.symm).mp accepted.2⟩

theorem canonicalInboxLogs_ok_iff :
    canonicalInboxLogs logs src first last = .ok ordered ↔
      Accepted src first last logs ∧ ordered = logs.insertionSort Log.precedes := by
  have perm : (logs.insertionSort Log.precedes).Perm logs := List.perm_insertionSort _ logs
  have checks := @checkLogs_ok_iff src first last [] _ (List.pairwise_insertionSort Log.precedes logs)
    (by simp) .nil
  have accepts : checkLogs src first last [] (logs.insertionSort Log.precedes) = .ok () ↔
      Accepted src first last logs := by
    rw [checks]
    constructor
    · exact fun ⟨fits, pairs, _⟩ => Accepted.of_perm perm ⟨fits, pairs⟩
    · intro accepted
      obtain ⟨fits, pairs⟩ := accepted.of_perm perm.symm
      exact ⟨fits, pairs, by simp⟩
  simp only [canonicalInboxLogs, bind_ok_iff, pure_ok_iff, ← accepts]
  constructor
  · rintro ⟨⟨⟩, checked, rfl⟩
    exact ⟨checked, rfl⟩
  · rintro ⟨checked, rfl⟩
    exact ⟨(), checked, rfl⟩

theorem Accepted.strict (accepted : Accepted src first last logs) :
    (logs.insertionSort Log.precedes).Pairwise Log.Before := by
  have pairs := (accepted.of_perm (List.perm_insertionSort Log.precedes logs).symm).2
  exact (List.pairwise_insertionSort Log.precedes logs).imp₂ (fun a b sorted compatible =>
    Log.Compatible.before compatible sorted) pairs

theorem canonicalInboxLogs_perm (perm : logs.Perm logs') :
    (canonicalInboxLogs logs src first last).toOption =
      (canonicalInboxLogs logs' src first last).toOption := by
  have one : ∀ {xs ys : List Log} {out : List Log}, xs.Perm ys →
      canonicalInboxLogs xs src first last = .ok out → canonicalInboxLogs ys src first last = .ok out := by
    intro xs ys out perm done
    obtain ⟨accepted, rfl⟩ := canonicalInboxLogs_ok_iff.mp done
    have other := accepted.of_perm perm
    refine canonicalInboxLogs_ok_iff.mpr ⟨other, ?_⟩
    exact insertionSort_of_perm (perm.trans (List.perm_insertionSort _ ys).symm)
      (other.strict.imp fun before => ⟨by unfold Log.Before at before; unfold Log.precedes; omega,
        before.not_precedes⟩)
  cases done : canonicalInboxLogs logs src first last with
  | ok out => rw [one perm done]
  | error e =>
    cases other : canonicalInboxLogs logs' src first last with
    | error e' => rfl
    | ok out =>
      have back := one perm.symm other
      rw [done] at back
      cases back

theorem Accepted.nodup (accepted : Accepted src first last logs) : logs.Nodup :=
  accepted.2.imp fun compatible same => (compatible.order (congrArg _ same)).1 (congrArg _ same)

end Sorted

/-! ### The rows -/

theorem scanInboxEvents_of_same {Blob : Type} {cfg : Config} {reads reads' : Reads Blob} {src : Source}
    {first last : Nat} {b : RowBuilder} {logs logs' : List Log}
    (answer : reads.filterLogs first last src.address src.topic = .ok logs)
    (answer' : reads'.filterLogs first last src.address src.topic = .ok logs')
    (tx : reads'.transactionByHash = reads.transactionByHash)
    (header : reads'.headerByHash = reads.headerByHash)
    (same : (canonicalInboxLogs logs src first last).toOption =
      (canonicalInboxLogs logs' src first last).toOption) :
    (scanInboxEvents cfg reads src first last b).toOption =
      (scanInboxEvents cfg reads' src first last b).toOption := by
  have step : scanLog cfg reads' first last = scanLog cfg reads first last := by
    funext b l
    simp only [scanLog, tx, header]
  simp only [scanInboxEvents, answer, answer', step, bind, Except.bind]
  cases left : canonicalInboxLogs logs src first last with
  | ok ordered => rw [ok_of_toOption (same.symm.trans (congrArg Except.toOption left))]
  | error e =>
    cases right : canonicalInboxLogs logs' src first last with
    | error e' => rfl
    | ok ordered => simp [left, right, Except.toOption] at same

/-- The order in which the node lists the logs is of no effect: neither on the decision nor on
the logs and rows that follow from it. -/
theorem inbox_logs_order_independent {Blob : Type} (cfg : Config) (src : Source) (first last : Nat)
    (logs logs' : List Log) :
    (logs.Perm logs' →
      (canonicalInboxLogs logs src first last).toOption =
        (canonicalInboxLogs logs' src first last).toOption) ∧
    (∀ (m : Arrays) (a : Nat), m[a]? = some logs →
      (∃ made, (canonicalInboxLogsIn m a src first last).2 = m ++ made) ∧
      (canonicalInboxLogsIn m a src first last).1.map
          ((canonicalInboxLogsIn m a src first last).2.getD · []) =
        canonicalInboxLogs logs src first last) ∧
    (∀ ordered, canonicalInboxLogs logs src first last = .ok ordered →
      ordered.Perm logs ∧ ordered.Pairwise Log.Before ∧
      (∀ l ∈ ordered, ∀ l' ∈ ordered, l.blockNumber = l'.blockNumber → l.blockHash = l'.blockHash) ∧
      ∀ l ∈ ordered, ∀ l' ∈ ordered, l.blockNumber = l'.blockNumber → l.txIndex = l'.txIndex →
        l.txHash = l'.txHash) ∧
    ∀ (reads : Reads Blob) (b : RowBuilder),
      reads.filterLogs first last src.address src.topic = .ok logs →
      (logs.Perm logs' →
        (scanInboxEvents cfg reads src first last b).toOption =
          (scanInboxEvents cfg { reads with filterLogs := fun _ _ _ _ => .ok logs' } src first last
            b).toOption) ∧
      ∀ rows rows', (∀ l, l ∈ logs ↔ l ∈ logs') →
        scanInboxEvents cfg reads src first last b = .ok rows →
        scanInboxEvents cfg { reads with filterLogs := fun _ _ _ _ => .ok logs' } src first last b =
          .ok rows' →
        rows = rows' := by
  have scans (reads : Reads Blob) (b : RowBuilder)
      (answer : reads.filterLogs first last src.address src.topic = .ok logs) (perm : logs.Perm logs') :
      (scanInboxEvents cfg reads src first last b).toOption =
        (scanInboxEvents cfg { reads with filterLogs := fun _ _ _ _ => .ok logs' } src first last
          b).toOption :=
    scanInboxEvents_of_same answer rfl rfl rfl (canonicalInboxLogs_perm perm)
  refine ⟨canonicalInboxLogs_perm, fun m a found => ?_, fun ordered done => ?_,
    fun reads b answer => ⟨scans reads b answer, fun rows rows' same done done' => ?_⟩⟩
  · obtain ⟨kept, agrees⟩ := canonicalInboxLogsIn_eq found src first last
    exact ⟨⟨_, kept⟩, agrees⟩
  · obtain ⟨accepted, rfl⟩ := canonicalInboxLogs_ok_iff.mp done
    have perm := List.perm_insertionSort Log.precedes logs
    have pairs := (accepted.of_perm perm.symm).2
    refine ⟨perm, accepted.strict, fun l member l' member' block => ?_,
      fun l member l' member' block index => ?_⟩
    · by_cases one : l = l'
      · rw [one]
      · exact (pairs.forall member member' one).block.mp block
    · by_cases one : l = l'
      · rw [one]
      · exact (pairs.forall member member' one).tx.mp ⟨block, index⟩
  · -- both lists are accepted, so no log is in either of them twice
    obtain ⟨_, listed, scanned⟩ := bind_ok_iff.mp done
    obtain ⟨_, canonical, _⟩ := bind_ok_iff.mp scanned
    obtain ⟨_, listed', scanned'⟩ := bind_ok_iff.mp done'
    obtain ⟨_, canonical', _⟩ := bind_ok_iff.mp scanned'
    cases answer.symm.trans listed
    cases listed'
    have nodup := (canonicalInboxLogs_ok_iff.mp canonical).1.nodup
    have nodup' := (canonicalInboxLogs_ok_iff.mp canonical').1.nodup
    have equal := scans reads b answer ((List.perm_ext_iff_of_nodup nodup nodup').mpr same)
    rw [done, done'] at equal
    exact Option.some.inj equal

theorem inbox_logs_order_independent_pair :
    (canonicalInboxLogs [{ sampleLog with index := 1 }, sampleLog] sampleSources[0] 0 1).toOption =
      some [sampleLog, { sampleLog with index := 1 }] := by
  have perm : [{ sampleLog with index := 1 }, sampleLog].Perm
      [sampleLog, { sampleLog with index := 1 }] := List.Perm.swap _ _ []
  rw [(@inbox_logs_order_independent Unit sampleConfig _ 0 1 _ _).1 perm]
  decide

end Bloar.Chain
