import Bloar.PublicRead
import Bloar.TokenBucket

/-!
The admission of public reads (`server/public_read_limiter.go`): one bucket for the process
and one for each client, kept in the order of their last use. A request reserves in both and
gives both back unless both are free at once. One mutex covers a request, so requests come one
after another, each at the time it reads from the clock.
-/

namespace Bloar.PublicRead
open TokenBucket

/-- `PublicReadLimiterConfig` as `newPublicReadLimiter` accepts it. -/
structure Limits where
  maxQueryHashes : Nat
  globalRate : ℚ
  globalBurst : Nat
  perClientRate : ℚ
  perClientBurst : Nat
  maxClients : Nat
  clientTTL : ℚ
  global_fills : 0 < globalRate
  client_fills : 0 < perClientRate
  global_fits : 1 + maxQueryHashes ≤ globalBurst
  client_fits : 1 + maxQueryHashes ≤ perClientBurst
  some_clients : 0 < maxClients
  lives : 0 < clientTTL

inductive Kind where
  | metadata
  | blobs (hashes : Nat)
  deriving DecidableEq, Repr

def publicReadCost (maxQueryHashes : Nat) : Kind → Nat
  | .metadata => 1
  | .blobs n => 1 + if n = 0 ∨ n > maxQueryHashes then maxQueryHashes else n

inductive Outcome where
  | admitted
  | rejectedGlobal
  | rejectedClient
  | rejectedCanceled
  deriving DecidableEq, Repr

structure ClientBucket where
  key : ClientKey
  limiter : Bucket
  lastSeen : ℚ
  deriving DecidableEq

structure Buckets where
  global : Bucket
  clients : List ClientBucket
  deriving DecidableEq

/-- One request: the time it reads, and whether its context is cancelled before it reads the
clock or once it has reserved. -/
structure Read where
  client : ClientKey
  kind : Kind
  now : ℚ
  canceledBefore : Bool
  canceledAfter : Bool
  deriving DecidableEq

variable (lim : Limits)

def Limits.start : Buckets := { global := .full lim.globalBurst, clients := [] }

def Limits.cost (r : Read) : Nat := publicReadCost lim.maxQueryHashes r.kind

def Limits.expireLocked (clients : List ClientBucket) (now : ℚ) : List ClientBucket :=
  clients.rdropWhile fun b => !decide (now < b.lastSeen + lim.clientTTL)

def Limits.bucketLocked (clients : List ClientBucket) (key : ClientKey) (now : ℚ) :
    ClientBucket × List ClientBucket :=
  let live := lim.expireLocked clients now
  match live.find? fun b => b.key == key with
  | some b => ({ b with lastSeen := now }, live.filter fun b => b.key != key)
  | none =>
      ({ key, limiter := .full lim.perClientBurst, lastSeen := now },
        if live.length = lim.maxClients then live.dropLast else live)

/-- The decision, how long to wait before another try, and the buckets after it. -/
def Limits.admitRead (s : Buckets) (r : Read) : Outcome × ℚ × Buckets :=
  if r.canceledBefore then (.rejectedCanceled, 0, s)
  else
    let (bucket, others) := lim.bucketLocked s.clients r.client r.now
    let cost : ℚ := lim.cost r
    let global := s.global.reserve lim.globalRate lim.globalBurst r.now cost
    let client := bucket.limiter.reserve lim.perClientRate lim.perClientBurst r.now cost
    let globalDelay := global.delay lim.globalRate
    let clientDelay := client.delay lim.perClientRate
    let back : Buckets :=
      { global := global.cancel lim.globalRate lim.globalBurst r.now cost
        clients := { bucket with
          limiter := client.cancel lim.perClientRate lim.perClientBurst r.now cost } :: others }
    if r.canceledAfter then (.rejectedCanceled, 0, back)
    else if globalDelay > 0 ∨ clientDelay > 0 then
      if clientDelay > globalDelay then (.rejectedClient, clientDelay, back)
      else (.rejectedGlobal, globalDelay, back)
    else (.admitted, 0, { global, clients := { bucket with limiter := client } :: others })

def Limits.Evicts (s : Buckets) (r : Read) (key : ClientKey) : Prop :=
  let live := lim.expireLocked s.clients r.now
  r.canceledBefore = false ∧ (∀ b ∈ live, b.key ≠ r.client) ∧ live.length = lim.maxClients ∧
    ∃ b, live.getLast? = some b ∧ b.key = key

def Limits.available (clients : List ClientBucket) (key : ClientKey) (t : ℚ) : ℚ :=
  match clients.find? fun b => b.key == key with
  | some b => b.limiter.level lim.perClientRate lim.perClientBurst t
  | none => lim.perClientBurst

/-- Requests in the order of the clock, each `allowed`, with the cost that each client was
admitted for. -/
inductive Limits.Run (allowed : Buckets → Read → Prop) (s : Buckets) (start : ℚ) :
    Buckets → ℚ → (ClientKey → ℚ) → Prop
  | refl : Limits.Run allowed s start s start fun _ => 0
  | step {s' : Buckets} {t : ℚ} {spent : ClientKey → ℚ}
      (before : Limits.Run allowed s start s' t spent) (r : Read) (met : allowed s' r)
      (later : t ≤ r.now) :
      Limits.Run allowed s start (lim.admitRead s' r).2.2 r.now fun key =>
        spent key +
          if (lim.admitRead s' r).1 = .admitted ∧ r.client = key then (lim.cost r : ℚ) else 0

/-! ### Finding a bucket -/

section Available

variable {lim} {clients : List ClientBucket} {key k : ClientKey} {b : ClientBucket} {t : ℚ}

theorem available_le_burst : lim.available clients k t ≤ lim.perClientBurst := by
  unfold Limits.available
  split
  · exact Bucket.level_le
  · exact le_rfl

theorem available_cons : lim.available (b :: clients) k t =
    if b.key = k then b.limiter.level lim.perClientRate lim.perClientBurst t
    else lim.available clients k t := by
  by_cases same : b.key = k <;> simp [Limits.available, same]

/-- Dropping the oldest buckets takes no tokens away, and gives none if they were full. -/
theorem available_append (lim : Limits) (xs ys : List ClientBucket) (k : ClientKey) (t : ℚ) :
    lim.available (xs ++ ys) k t ≤ lim.available xs k t ∧
      ((∀ b ∈ ys, b.key = k → b.limiter.level lim.perClientRate lim.perClientBurst t =
        lim.perClientBurst) → lim.available (xs ++ ys) k t = lim.available xs k t) := by
  cases found : xs.find? fun b => b.key == k with
  | some b => simp [Limits.available, found]
  | none =>
    have dropped : lim.available xs k t = lim.perClientBurst := by simp [Limits.available, found]
    rw [dropped]
    refine ⟨available_le_burst, fun full => ?_⟩
    cases last : ys.find? fun b => b.key == k with
    | none => simp [Limits.available, found, last]
    | some b =>
      have hit := List.find?_some last
      simp [Limits.available, found, last]
      exact full b (List.mem_of_find?_eq_some last) (beq_iff_eq.mp hit)

theorem available_filter (other : key ≠ k) :
    lim.available (clients.filter fun b => b.key != key) k t = lim.available clients k t := by
  induction clients with
  | nil => rfl
  | cons b rest ih =>
    by_cases dropped : b.key = key
    · simp [dropped, ih, available_cons, other]
    · simp [dropped, ih, available_cons]

theorem expireLocked_split (lim : Limits) (clients : List ClientBucket) (now : ℚ) :
    ∃ old, clients = lim.expireLocked clients now ++ old ∧
    ∀ b ∈ old, b.lastSeen + lim.clientTTL ≤ now := by
  refine ⟨(clients.reverse.takeWhile fun b => !decide (now < b.lastSeen + lim.clientTTL)).reverse,
    ?_, fun b mem => ?_⟩
  · rw [Limits.expireLocked, List.rdropWhile, ← List.reverse_append,
      List.takeWhile_append_dropWhile, List.reverse_reverse]
  · have expired := List.mem_takeWhile_imp (List.mem_reverse.mp mem)
    simpa using expired

end Available

/-! ### One request -/

structure Limits.Sound (s : Buckets) (t : ℚ) : Prop where
  started : 0 ≤ t
  global : s.global.last ≤ t
  solvent : ∀ b ∈ s.clients, 0 ≤ b.limiter.tokens
  settled : ∀ b ∈ s.clients, b.limiter.last = b.lastSeen
  seen : ∀ b ∈ s.clients, b.lastSeen ≤ t
  few : s.clients.length ≤ lim.maxClients

variable {lim} {s : Buckets} {t now : ℚ} {r : Read} {k : ClientKey} {bucket : ClientBucket}
  {others : List ClientBucket}

def Limits.Refills (lim : Limits) : Prop := lim.perClientBurst ≤ lim.perClientRate * lim.clientTTL

theorem Limits.cost_fits : lim.cost r ≤ lim.globalBurst ∧ lim.cost r ≤ lim.perClientBurst := by
  have global := lim.global_fits
  have client := lim.client_fits
  unfold Limits.cost publicReadCost
  split
  · omega
  · split <;> omega

section Touch

variable (touched : lim.bucketLocked s.clients r.client r.now = (bucket, others))
include touched

theorem bucketLocked_cases :
    (∃ b, (lim.expireLocked s.clients r.now).find? (fun b => b.key == r.client) = some b ∧
      bucket = { b with lastSeen := r.now } ∧
      others = (lim.expireLocked s.clients r.now).filter fun b => b.key != r.client) ∨
    (lim.expireLocked s.clients r.now).find? (fun b => b.key == r.client) = none ∧
      bucket = { key := r.client, limiter := .full lim.perClientBurst, lastSeen := r.now } ∧
      others = if (lim.expireLocked s.clients r.now).length = lim.maxClients then
        (lim.expireLocked s.clients r.now).dropLast else lim.expireLocked s.clients r.now := by
  unfold Limits.bucketLocked at touched
  dsimp only at touched
  split at touched
  · rename_i b found
    cases touched
    exact .inl ⟨b, found, rfl, rfl⟩
  · rename_i missing
    cases touched
    exact .inr ⟨missing, rfl, rfl⟩

theorem bucketLocked_key : bucket.key = r.client ∧ bucket.lastSeen = r.now := by
  rcases bucketLocked_cases touched with ⟨b, found, rfl, _⟩ | ⟨_, rfl, _⟩
  · exact ⟨beq_iff_eq.mp (List.find?_some found :), rfl⟩
  · exact ⟨rfl, rfl⟩

theorem bucketLocked_sound (sound : lim.Sound s t) (later : t ≤ r.now) :
    0 ≤ bucket.limiter.tokens ∧ bucket.limiter.last ≤ r.now ∧ others.length < lim.maxClients ∧
      ∀ b ∈ others, b ∈ s.clients := by
  obtain ⟨old, parts, _⟩ := expireLocked_split lim s.clients r.now
  have live : ∀ b ∈ lim.expireLocked s.clients r.now, b ∈ s.clients := fun b mem =>
    parts ▸ List.mem_append_left old mem
  have few : (lim.expireLocked s.clients r.now).length ≤ lim.maxClients := by
    have all := sound.few
    rw [parts, List.length_append] at all
    omega
  rcases bucketLocked_cases touched with ⟨b, found, rfl, rfl⟩ | ⟨_, rfl, rfl⟩
  · have mem := List.mem_of_find?_eq_some found
    have known := live b mem
    refine ⟨sound.solvent b known, ?_, ?_, fun b mem => live b (List.mem_of_mem_filter mem)⟩
    · exact (sound.settled b known).trans_le ((sound.seen b known).trans later)
    · refine (List.length_filter_lt_length_iff_exists.mpr ⟨b, mem, ?_⟩).trans_le few
      simpa using List.find?_some found
  · refine ⟨Nat.cast_nonneg _, sound.started.trans later, ?_, fun b mem => ?_⟩
    · have some := lim.some_clients
      split
      · rw [List.length_dropLast]
        omega
      · omega
    · split at mem
      · exact live b (List.mem_of_mem_dropLast mem)
      · exact live b mem

/-- A request takes no tokens by asking for its bucket, and brings none into being unless it
drops one that was not full. -/
theorem bucketLocked_available (heard : r.canceledBefore = false) (sound : lim.Sound s t)
    (later : r.now ≤ now) : lim.available s.clients k now ≤ lim.available (bucket :: others) k now ∧
      (lim.Refills → ¬ lim.Evicts s r k →
        lim.available s.clients k now = lim.available (bucket :: others) k now) := by
  obtain ⟨old, parts, expired⟩ := expireLocked_split lim s.clients r.now
  -- the expired buckets go first
  have dropped := available_append lim (lim.expireLocked s.clients r.now) old k now
  rw [← parts] at dropped
  have refilled (refills : lim.Refills) : ∀ b ∈ old, b.key = k →
      b.limiter.level lim.perClientRate lim.perClientBurst now = lim.perClientBurst := by
    intro b mem _
    have known : b ∈ s.clients := parts ▸ List.mem_append_right _ mem
    refine Bucket.level_idle lim.client_fills refills (sound.solvent b known) ?_
    rw [sound.settled b known]
    exact (expired b mem).trans later
  rcases bucketLocked_cases touched with ⟨b, found, rfl, rfl⟩ | ⟨missing, rfl, rfl⟩
  · have isClient : b.key = r.client := beq_iff_eq.mp (List.find?_some found :)
    have same : lim.available ({ b with lastSeen := r.now } ::
        (lim.expireLocked s.clients r.now).filter fun b => b.key != r.client) k now =
        lim.available (lim.expireLocked s.clients r.now) k now := by
      rw [available_cons]
      split
      · rename_i hit
        rw [← isClient.symm.trans hit]
        simp [Limits.available, found]
      · rename_i other
        exact available_filter (isClient ▸ other)
    rw [same]
    exact ⟨dropped.1, fun refills _ => dropped.2 (refilled refills)⟩
  · rw [available_cons]
    split
    · rename_i hit
      subst hit
      rw [Bucket.level_full lim.client_fills]
      refine ⟨available_le_burst, fun refills _ => (dropped.2 (refilled refills)).trans ?_⟩
      simp [Limits.available, missing]
    · split
      · rename_i other full
        have some : lim.expireLocked s.clients r.now ≠ [] := by
          intro none
          have positive := lim.some_clients
          rw [none, List.length_nil] at full
          omega
        have evicted := available_append lim (lim.expireLocked s.clients r.now).dropLast
          [(lim.expireLocked s.clients r.now).getLast some] k now
        rw [List.dropLast_append_getLast] at evicted
        refine ⟨dropped.1.trans evicted.1, fun refills kept =>
          (dropped.2 (refilled refills)).trans (evicted.2 fun b last hit => ?_)⟩
        rw [List.mem_singleton.mp last] at hit
        refine absurd ⟨heard, fun b mem same => ?_, full, _, List.getLast?_eq_some_getLast some,
          hit⟩ kept
        simpa [same] using List.find?_eq_none.mp missing b mem
      · exact ⟨dropped.1, fun refills _ => dropped.2 (refilled refills)⟩

end Touch

theorem admit_cases (lim : Limits) (s : Buckets) (r : Read) :
    (r.canceledBefore = true ∧ (lim.admitRead s r).1 ≠ .admitted ∧ (lim.admitRead s r).2.2 = s) ∨
    ∃ bucket others charge, r.canceledBefore = false ∧
      lim.bucketLocked s.clients r.client r.now = (bucket, others) ∧
      (lim.admitRead s r).2.2 =
        { global := ⟨s.global.level lim.globalRate lim.globalBurst r.now - charge, r.now⟩
          clients := { bucket with
            limiter := ⟨bucket.limiter.level lim.perClientRate lim.perClientBurst r.now - charge,
              r.now⟩ } :: others } ∧
      ((lim.admitRead s r).1 ≠ .admitted ∧ charge = 0 ∨
        (lim.admitRead s r).1 = .admitted ∧ charge = lim.cost r ∧
          charge ≤ bucket.limiter.level lim.perClientRate lim.perClientBurst r.now) := by
  have pays : (0 : ℚ) ≤ lim.cost r := Nat.cast_nonneg _
  have global : (lim.cost r : ℚ) ≤ lim.globalBurst := by exact_mod_cast Limits.cost_fits.1
  have client : (lim.cost r : ℚ) ≤ lim.perClientBurst := by exact_mod_cast Limits.cost_fits.2
  by_cases early : r.canceledBefore = true
  · exact .inl ⟨early, by simp [Limits.admitRead, early]⟩
  · right
    rw [Bool.not_eq_true] at early
    rcases touched : lim.bucketLocked s.clients r.client r.now with ⟨bucket, others⟩
    simp only [Limits.admitRead, early, touched, Bool.false_eq_true, if_false,
      Bucket.cancel_reserve pays global, Bucket.cancel_reserve pays client]
    split
    · exact ⟨bucket, others, 0, trivial, rfl, by simp⟩
    · split
      · refine ⟨bucket, others, 0, trivial, rfl, ?_⟩
        split <;> simp
      · rename_i free
        refine ⟨bucket, others, lim.cost r, trivial, rfl, ?_⟩
        rw [not_or, not_lt, not_lt] at free
        have there := (Bucket.delay_eq_zero lim.client_fills).mp
          (le_antisymm free.2 (le_max_left _ _))
        rw [Bucket.reserve_of_le client] at there ⊢
        rw [Bucket.reserve_of_le global]
        exact ⟨rfl, .inr ⟨rfl, rfl, sub_nonneg.mp there⟩⟩

theorem Limits.Sound.wait (sound : lim.Sound s t) (later : t ≤ now) : lim.Sound s now :=
  { sound with
    started := sound.started.trans later
    global := sound.global.trans later
    seen := fun b mem => (sound.seen b mem).trans later }

theorem Limits.Sound.admitRead (sound : lim.Sound s t) (later : t ≤ r.now) :
    lim.Sound (lim.admitRead s r).2.2 r.now := by
  rcases admit_cases lim s r with ⟨_, _, same⟩ |
    ⟨bucket, others, charge, _, touched, after, outcome⟩
  · rw [same]
    exact sound.wait later
  · obtain ⟨solvent, _, few, known⟩ := bucketLocked_sound touched sound later
    have level := Bucket.level_nonneg (t := r.now) lim.client_fills
      (Nat.cast_nonneg lim.perClientBurst) solvent
    have pays : 0 ≤ bucket.limiter.level lim.perClientRate lim.perClientBurst r.now - charge := by
      rcases outcome with ⟨_, rfl⟩ | ⟨_, _, enough⟩ <;> linarith
    rw [after]
    refine ⟨sound.started.trans later, le_rfl, ?_, ?_, ?_, few⟩ <;>
      refine List.forall_mem_cons.mpr ⟨?_, fun b mem => ?_⟩
    · exact pays
    · exact sound.solvent b (known b mem)
    · exact (bucketLocked_key touched).2.symm
    · exact sound.settled b (known b mem)
    · exact (bucketLocked_key touched).2.le
    · exact (sound.seen b (known b mem)).trans later

theorem Limits.sound_start : lim.Sound lim.start 0 :=
  ⟨le_rfl, le_rfl, nofun, nofun, nofun, Nat.zero_le _⟩

theorem Limits.Run.sound {allowed : Buckets → Read → Prop} {s' : Buckets} {t' : ℚ}
    {spent : ClientKey → ℚ} (run : lim.Run allowed s t s' t' spent) (sound : lim.Sound s t) :
    lim.Sound s' t' := by
  induction run with
  | refl => exact sound
  | step before r met later ih => exact ih.admitRead later

theorem admit_rejected (sound : lim.Sound s t) (later : t ≤ r.now)
    (rejected : (lim.admitRead s r).1 ≠ .admitted) (after : r.now ≤ now) :
    (lim.admitRead s r).2.2.global.level lim.globalRate lim.globalBurst now =
        s.global.level lim.globalRate lim.globalBurst now ∧
      ∀ k, lim.available s.clients k now ≤ lim.available (lim.admitRead s r).2.2.clients k now := by
  rcases admit_cases lim s r with ⟨_, _, same⟩ |
    ⟨bucket, others, charge, heard, touched, left, outcome⟩
  · rw [same]
    exact ⟨rfl, fun _ => le_rfl⟩
  · obtain ⟨_, rfl⟩ := outcome.resolve_right fun admitted => rejected admitted.1
    rw [left]
    simp only [sub_zero]
    refine ⟨Bucket.level_settle lim.global_fills (sound.global.trans later) after, fun k => ?_⟩
    refine (bucketLocked_available touched heard sound after).1.trans_eq ?_
    rw [available_cons, available_cons, Bucket.level_settle lim.client_fills
      (bucketLocked_sound touched sound later).2.1 after]

/-- What a client has and was admitted for grows no faster than its rate. -/
theorem Limits.Run.spends {s' : Buckets} {t' : ℚ} {spent : ClientKey → ℚ}
    (run : lim.Run (fun s r => ¬ lim.Evicts s r k) s t s' t' spent) (sound : lim.Sound s t)
    (refills : lim.Refills) : spent k + lim.available s'.clients k t' ≤
      lim.perClientBurst + lim.perClientRate * (t' - t) := by
  induction run with
  | refl =>
    rw [sub_self, mul_zero, zero_add, add_zero]
    exact available_le_burst
  | @step s' t' spent before r met later ih =>
    have sound' := before.sound sound
    have waited : lim.available s'.clients k r.now ≤
        lim.available s'.clients k t' + lim.perClientRate * (r.now - t') := by
      have gain : 0 ≤ lim.perClientRate * (r.now - t') :=
        mul_nonneg lim.client_fills.le (sub_nonneg.mpr later)
      unfold Limits.available
      split
      · exact Bucket.level_gain lim.client_fills later
      · linarith
    suffices charged : (if (lim.admitRead s' r).1 = .admitted ∧ r.client = k then (lim.cost r : ℚ)
        else 0) + lim.available (lim.admitRead s' r).2.2.clients k r.now =
        lim.available s'.clients k r.now by linarith
    rcases admit_cases lim s' r with ⟨_, rejected, same⟩ |
      ⟨bucket, others, charge, heard, touched, left, outcome⟩
    · rw [same, if_neg fun admitted => rejected admitted.1, zero_add]
    · rw [left, (bucketLocked_available touched heard sound' le_rfl).2 refills met, available_cons,
        available_cons]
      dsimp only
      rw [(bucketLocked_key touched).1]
      have full : bucket.limiter.level lim.perClientRate lim.perClientBurst r.now ≤ _ :=
        Bucket.level_le
      have pays : (0 : ℚ) ≤ lim.cost r := Nat.cast_nonneg _
      by_cases hit : r.client = k
      · rcases outcome with ⟨rejected, rfl⟩ | ⟨admitted, rfl, _⟩
        · rw [if_pos hit, if_pos hit, if_neg fun admitted => rejected admitted.1,
            Bucket.level_now (by linarith), zero_add, sub_zero]
        · rw [if_pos hit, if_pos hit, if_pos ⟨admitted, hit⟩, Bucket.level_now (by linarith)]
          ring
      · rw [if_neg hit, if_neg hit, if_neg fun admitted => hit admitted.2, zero_add]

/-- In every state that requests lead to there are no more buckets than configured and the next
request, if it is not admitted, takes tokens from no one. Where an idle bucket refills before
it expires, a client that is not evicted for capacity is admitted for at most its burst and its
rate over any interval from there on. -/
theorem reads_accounted (lim : Limits) (s : Buckets) (t : ℚ) (earlier : ClientKey → ℚ)
    (reached : lim.Run (fun _ _ => True) lim.start 0 s t earlier) :
    s.clients.length ≤ lim.maxClients ∧
    (∀ r, t ≤ r.now → (lim.admitRead s r).1 ≠ .admitted → ∀ now, r.now ≤ now →
      (lim.admitRead s r).2.2.global.level lim.globalRate lim.globalBurst now =
          s.global.level lim.globalRate lim.globalBurst now ∧
        ∀ k, lim.available s.clients k now ≤
          lim.available (lim.admitRead s r).2.2.clients k now) ∧
    (lim.Refills → ∀ k start s' stop spent, t ≤ start →
      lim.Run (fun s r => ¬ lim.Evicts s r k) s start s' stop spent →
      spent k ≤ lim.perClientBurst + lim.perClientRate * (stop - start)) := by
  have sound := reached.sound Limits.sound_start
  refine ⟨sound.few, fun r later rejected now after => admit_rejected sound later rejected after,
    fun refills k start s' stop spent later run => ?_⟩
  have there : 0 ≤ lim.available s'.clients k stop := by
    have solvent := (run.sound (sound.wait later)).solvent
    unfold Limits.available
    split
    · rename_i b found
      exact Bucket.level_nonneg lim.client_fills (Nat.cast_nonneg _)
        (solvent b (List.mem_of_find?_eq_some found))
    · exact Nat.cast_nonneg _
  have bound := run.spends (sound.wait later) refills
  linarith

/-! ### A bucket that expires too early -/

def sampleLimits (clientTTL : ℚ) (lives : 0 < clientTTL) : Limits :=
  { maxQueryHashes := 1, globalRate := 100, globalBurst := 100, perClientRate := 1
    perClientBurst := 2, maxClients := 1, clientTTL
    global_fills := by norm_num, client_fills := by norm_num, global_fits := by norm_num
    client_fits := by norm_num, some_clients := by norm_num, lives }

def sampleRead (now : ℚ) : Read :=
  { client := .unknown, kind := .blobs 1, now, canceledBefore := false, canceledAfter := false }

theorem reads_accounted_sample : ∃ s spent, (sampleLimits 2 two_pos).Run
    (fun s r => ¬ (sampleLimits 2 two_pos).Evicts s r .unknown) (sampleLimits 2 two_pos).start 0
      s 0 spent ∧ spent .unknown = 2 ∧ spent .unknown ≤ 2 + 1 * (0 - 0) := by
  have run : (sampleLimits 2 two_pos).Run
      (fun s r => ¬ (sampleLimits 2 two_pos).Evicts s r .unknown) (sampleLimits 2 two_pos).start 0
      _ 0 _ := .step .refl (sampleRead 0) (fun evicts => by cases evicts.2.2.1) le_rfl
  exact ⟨_, _, run, by decide +kernel, (reads_accounted _ _ _ _ .refl).2.2
    (by norm_num [Limits.Refills, sampleLimits]) .unknown 0 _ 0 _ le_rfl run⟩

/-- A client takes its whole burst twice within a second, once its bucket is forgotten. -/
theorem reads_unaccounted : ∃ s spent, (sampleLimits 1 one_pos).Run
    (fun s r => ¬ (sampleLimits 1 one_pos).Evicts s r .unknown) (sampleLimits 1 one_pos).start 0
      s 1 spent ∧ spent .unknown > (sampleLimits 1 one_pos).perClientBurst +
        (sampleLimits 1 one_pos).perClientRate * (1 - 0) :=
  ⟨_, _, .step (.step .refl (sampleRead 0) (fun evicts => by cases evicts.2.2.1) le_rfl)
    (sampleRead 1) (fun evicts => absurd evicts.2.2.1 (by decide +kernel)) zero_le_one,
    by decide +kernel⟩

end Bloar.PublicRead
