import Bloar.Fixed
import Bloar.HeadLog

/-!
What a root says to those who read it. A reader's store may hold anything under a
CID, but a read is checked against the CID it asked for. A lookup at a root that
some head published then fails or answers with that head's rows, and so two heads
with one root are one archive.
-/

namespace Bloar.Archive
open Ipld Schema Fallible Indexing

variable {σ τ : Type} {ipld : Codec}

/-- `Validating`: bytes that do not hash to the CID of the read are refused. -/
def validating (ipld : Codec) (base : Config σ) : Config σ :=
  { base with
    get := fun c s =>
      match base.get c s with
      | (.error e, after) => (.error e, after)
      | (.ok data, after) =>
        match verifyBlockCID ipld c data with
        | .ok () => (.ok data, after)
        | .error _ => (.error (.other "store: block failed validation"), after) }

/-- A store that never returns the wrong block, if it returns any. -/
theorem durable_of_honest {cfg : Config σ} (honest : ∀ {block found s s'},
      cfg.get (ipld.nodeCID block) s = (.ok found, s') → found = block) :
    Durable ipld cfg fun _ _ => True :=
  ⟨fun _ => trivial, fun _ => trivial, fun _ _ => trivial, fun _ => trivial, honest⟩

theorem verifyBlockCID_digest {c : Cid} {block : Block} (verified : verifyBlockCID ipld c block = .ok ()) :
    ipld.sha256 block = c.hash.digest := by
  simp only [verifyBlockCID] at verified
  split at verified
  · next named => exact congrArg (fun d : Cid => d.hash.digest) named
  · cases verified

theorem validating_verifies {base : Config σ} {c : Cid} {data : Block} {s s' : σ}
    (read : (validating ipld base).get c s = (.ok data, s')) :
    verifyBlockCID ipld c data = .ok () := by
  simp only [validating] at read
  split at read
  · cases read
  · split at read
    · next verified =>
      cases read
      exact verified
    · cases read

theorem validating_durable (ipld : Codec) (base : Config σ) :
    Durable ipld (validating ipld base) fun _ _ => True := by
  apply durable_of_honest
  intro block found s s' read
  exact ipld.sha256_injective (verifyBlockCID_digest (validating_verifies read))

section Roots
variable {cfg : Config σ} {present : σ → Cid → Prop} {params : Params} {w : World σ} {f : Flat}

/-- Whatever a reader's store returns, a lookup at the root of a run is not answered
otherwise than by the run's flat map. -/
theorem validated_lookup_eq_flat (durable : Durable ipld cfg present)
    (run : Run ipld cfg present params w f) (base : Config τ) {before opened now : World τ}
    (loaded : load ipld (validating ipld base) w.cur.root before = (.ok (), opened))
    (reading : now.cur = opened.cur) (slot : Nat) (vhs : List VersionedHash) :
    opened.cur = w.cur ∧
      (∀ r after, lookup ipld (validating ipld base) slot now = (.ok r, after) →
        r = f.lookup params.originSlot slot) ∧
      ∀ r after, lookupVHs ipld (validating ipld base) slot vhs now = (.ok r, after) →
        r = f.lookupVHs params.originSlot slot vhs := by
  obtain ⟨m, represents, agrees⟩ := run.represents durable
  have up := (validating_durable ipld base).upholds
  have same : opened.cur = w.cur := by
    rw [load, bind_ok_iff] at loaded
    obtain ⟨st, middle, read, ⟨⟩⟩ := loaded
    rw [represents.root] at read
    rw [represents.state_eq]
    exact post_ok (up.loadState_spec represents.usable represents.valid
      ⟨trivial, represents.rootStored.fits⟩) read
  have there : Represents ipld params (Present fun _ _ => True) now m :=
    represents.transport (reading.trans same) fun _ _ => trivial
  refine ⟨same, fun r after ran => ?_, fun r after ran => ?_⟩
  · exact post_ok (up.lookup_spec there agrees slot) ran
  · exact post_ok (up.lookupVHs_spec there agrees slot vhs) ran

theorem validated_lookup_eq_flat_sample : ∃ opened,
    load DagCbor.codec (validating DagCbor.codec sampleConfig) sampleApplied.cur.root
        (newHead sampleApplied.shared sampleParams) = (.ok (), opened) ∧
      ∀ r after, lookup DagCbor.codec (validating DagCbor.codec sampleConfig) 7 opened =
        (.ok r, after) → r = sampleFlat.lookup 5 7 := by
  have loaded : load DagCbor.codec (validating DagCbor.codec sampleConfig)
      sampleApplied.cur.root (newHead sampleApplied.shared sampleParams) = (.ok (), _) :=
    returned (by decide +kernel)
  exact ⟨_, loaded, (validated_lookup_eq_flat (memory_reliable DagCbor.codec sampleBlob).toDurable
    sampleApplied_run sampleConfig loaded rfl 7 []).2.1⟩

variable {w' : World τ} {m m' : Contents} {f' : Flat}
variable {holds : World σ → Cid → Prop} {holds' : World τ → Cid → Prop}

theorem Represents.synced_eq (represents : Represents ipld params holds w m)
    (agrees : Agrees m f) : f.synced = if w.cur.covered then some w.cur.syncedTo else none := by
  rw [agrees.synced, represents.covered_eq]
  cases coverage : m.coverage with
  | none => rfl
  | some s => simp [represents.syncedTo_eq coverage]

/-- One state is one archive to a reader who has every block there can be. -/
theorem Represents.lookup_eq (left : Represents ipld params holds w m)
    (right : Represents ipld params holds' w' m') (agreesL : Agrees m f) (agreesR : Agrees m' f')
    (cur : w.cur = w'.cur) (slot : Nat) :
    f.lookup params.originSlot slot = f'.lookup params.originSlot slot := by
  let reader : Config Unit := fixed (fun c => .ok (Function.invFun ipld.nodeCID c)) none
  have everything : Durable ipld reader fun _ _ => True := by
    apply durable_of_honest
    rintro block _ _ _ ⟨⟩
    exact Function.leftInverse_invFun (fun _ _ => ipld.nodeCID_injective) block
  have up : Upholds ipld reader _ False True := everything.upholds_of fun _ => .inr ⟨_, _, rfl⟩
  have lookupL := up.lookup_spec (w := { newHead () params with cur := w.cur })
    (left.transport rfl fun _ _ => trivial) agreesL slot
  have lookupR := up.lookup_spec (w := { newHead () params with cur := w.cur })
    (right.transport cur fun _ _ => trivial) agreesR slot
  obtain ⟨r, after, ran, rfl⟩ := post_returns lookupL fun _ impossible => impossible
  exact post_ok lookupR ran

/-- A root names its archive: two heads, over any two stores and after any two
histories, publish one root exactly when they have the same parameters, cover the
same slots and hold the same entries for each. -/
theorem run_root_eq_iff {cfg' : Config τ} {present' : τ → Cid → Prop} {params' : Params}
    (durable : Durable ipld cfg present) (durable' : Durable ipld cfg' present')
    (run : Run ipld cfg present params w f) (run' : Run ipld cfg' present' params' w' f') :
    w.cur.root = w'.cur.root ↔ params = params' ∧ f = f' := by
  constructor
  · intro root
    obtain ⟨m, left, agreesL⟩ := run.represents durable
    obtain ⟨m', right, agreesR⟩ := run'.represents durable'
    have cids := root
    rw [left.root, right.root, Option.some.injEq] at cids
    have head : w.cur.headObject = w'.cur.headObject := by
      rw [left.state_eq, right.state_eq]
      exact (cids ▸ left.isHead).unique right.isHead
    -- The Head block has all of the state but its own root.
    have ofL : State.ofHead w.cur.headObject w.cur.root = w.cur := by
      rw [left.state_eq, ofHead_canonicalState]
    have ofR : State.ofHead w'.cur.headObject w'.cur.root = w'.cur := by
      rw [right.state_eq, ofHead_canonicalState]
    have cur : w.cur = w'.cur := by rw [← ofL, head, root, ofR]
    obtain rfl : params = params' := by rw [← left.params_eq, cur, right.params_eq]
    have synced : f.synced = f'.synced := by
      rw [left.synced_eq agreesL, right.synced_eq agreesR, cur]
    refine ⟨rfl, Flat.ext synced (funext fun slot => ?_)⟩
    by_cases covers : (logOf f).Covers params.originSlot slot
    · obtain ⟨origin, s, covered, le⟩ := covers
      change f.synced = some s at covered
      have answers := left.lookup_eq right agreesL agreesR cur slot
      simpa [Flat.lookup, Flat.answer, ← synced, covered, origin.not_gt, le.not_gt] using answers
    · have covers' : ¬ (logOf f').Covers params.originSlot slot := by
        simpa only [Log.Covers, logOf, synced] using covers
      rw [Run.entries_outside run durable covers, Run.entries_outside run' durable' covers']
  · rintro ⟨rfl, rfl⟩
    rw [run.cur_eq durable run' durable']

theorem run_root_eq_iff_sample : sampleNew.cur.root ≠ sampleApplied.cur.root := by
  have durable := (memory_reliable DagCbor.codec sampleBlob).toDurable
  intro root
  have same := (run_root_eq_iff durable durable sampleNew_run sampleApplied_run).mp root
  exact absurd (congrArg Flat.synced same.2) (by decide)

end Roots

end Bloar.Archive
