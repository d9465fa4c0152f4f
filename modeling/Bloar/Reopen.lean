import Bloar.Cached
import Bloar.Refinement

/-!
Opening a root and enumerating it. `reopen` is what a process does with a root it
did not write itself: `Load`, then `Enumerate`. It is accepted exactly for the
Head blocks with usable parameters that are admissible and fit the byte budget.
-/

namespace Bloar.Archive
open Ipld Schema Fallible
variable {σ : Type}

/-- `Load` at a root, then `Enumerate`, with a structure cache. -/
def reopen (ipld : Codec) (cfg : Config σ) (root : Link) :
    Engine (σ × StructureCache) Enumeration := do
  load ipld (withCache cfg) root
  enumerate ipld (withCache cfg)

structure UsableHead (h : Schema.Head) : Prop where
  fanout_pos : 0 < h.fanoutBits
  fanout_le : h.fanoutBits ≤ 32
  seg_le : h.segBits ≤ 63

section Load
variable {ipld : Codec} {cfg : Config σ} {root : Cid} {w : World σ}

theorem loadState_post :
    Post (loadState ipld cfg (some root)) w
      (fun st w' => ∃ h, IsHead ipld root h ∧ st = State.ofHead h (some root) ∧ Loadable st ∧
        w' = { w with shared := (cfg.get root w.shared).2 })
      (fun _ => ∀ h, IsHead ipld root h → Loadable (State.ofHead h (some root)) →
        ∀ block, root = ipld.nodeCID block → (cfg.get root w.shared).1 ≠ .ok block) := by
  refine post_ofExcept_bind ?_ fun _ valid => ?_
  · rintro e refused h ⟨block, named, -, -⟩
    rw [(validateIndexCID_ok_iff (u := ())).mpr ⟨root, rfl, named ▸ nodeCID_hasPrefix ipld block⟩]
      at refused
    cases refused
  obtain ⟨_, ⟨⟩, cbor⟩ := validateIndexCID_ok_iff.mp valid
  have fetched : Post (getBlock cfg root) w (fun data w' => (cfg.get root w.shared).1 = .ok data ∧
      w' = { w with shared := (cfg.get root w.shared).2 })
      (fun _ => ∀ block, (cfg.get root w.shared).1 ≠ .ok block) := by
    unfold Post getBlock
    rcases read : cfg.get root w.shared with ⟨outcome, shared⟩
    cases outcome with
    | ok data => exact ⟨rfl, rfl⟩
    | error e => simp
  refine post_then (post_raised (post_within fetched)
    fun _ missing h _ _ block _ => missing block) ?_
  rintro data _ ⟨read, rfl⟩
  -- The block read is the one the root names, or the store is at fault.
  have same : ∀ {block}, root = ipld.nodeCID block → (cfg.get root w.shared).1 = .ok block →
      data = block := by
    intro block _ other
    rw [read] at other
    exact Except.ok.inj other
  refine post_guard_bind ?_ fun small => ?_
  · rintro large h ⟨block, named, small, -⟩ - other named' found
    have small' : size data ≤ maxEnumerationNodeBytes := by
      rw [same named' found, ipld.nodeCID_injective (named'.symm.trans named)]
      exact small
    exact of_decide_eq_false large small'
  refine post_then (P := fun _ w' => w' = { w with shared := (cfg.get root w.shared).2 } ∧
    root = ipld.nodeCID data) (post_within (post_ofExcept ?_ ?_)) ?_
  · intro _ verified
    exact ⟨rfl, (verifyBlockCID_ok_iff cbor).mp verified⟩
  · intro e refused h _ _ block named found
    rw [(verifyBlockCID_ok_iff (u := ()) cbor).mpr (same named found ▸ named)] at refused
    cases refused
  rintro _ _ ⟨rfl, named⟩
  cases decoded : decodeHead ipld data with
  | error text =>
    refine post_fail (E := fun _ => ∀ h, IsHead ipld root h →
      Loadable (State.ofHead h (some root)) → ∀ block, root = ipld.nodeCID block →
        (cfg.get root w.shared).1 ≠ .ok block) ?_
    rintro h ⟨other, named', -, described⟩
    rw [← ipld.nodeCID_injective (named.symm.trans named'), decoded] at described
    cases described
  | ok obj =>
    have isHead : IsHead ipld root obj := ⟨data, named, of_decide_eq_true small, decoded⟩
    refine post_pure_bind (post_ofExcept_bind ?_ fun _ checked =>
      post_pure ⟨obj, isHead, rfl, checkLoaded_ok_iff.mp checked, rfl⟩)
    rintro e refused h ⟨other, named', -, described⟩ loadable
    rw [← ipld.nodeCID_injective (named.symm.trans named'), decoded] at described
    cases described
    rw [(checkLoaded_ok_iff (u := ())).mpr loadable] at refused
    cases refused

end Load

section Reopen
variable {ipld : Codec} {cfg : Config σ} {root : Cid} {inv : σ → Prop} {seen : σ → Cid → Prop}
variable {fault : Prop} {generation : Option Nat} {cache : StructureCache}
variable {w : World (σ × StructureCache)}

theorem PageAt.cbor {radix level : Nat} {c : Cid} {es : List Link}
    (page : PageAt ipld radix level c es) : HasPrefix dagCBOR c := by
  obtain ⟨_, isPage⟩ := page.isPage
  exact isPage.cbor

theorem Admissible.loadable {h : Schema.Head} {es : List Link} (admissible : Admissible ipld h es)
    (isHead : IsHead ipld root h) (usable : UsableHead h) :
    Loadable (State.ofHead h (some root)) := by
  have pos : 0 < (State.ofHead h (some root)).params.fanoutBits := usable.fanout_pos
  cases admissible with
  | uncovered bare depth dir openCid =>
    refine ⟨by simp [State.ofHead, bare, openCid], pos, usable.fanout_le, usable.seg_le,
      ⟨(0, 0), ?_⟩, ?_, ?_⟩
    · exact (validateDirectoryGeometry_uncovered_iff (by simp [State.ofHead, bare])).mpr
        ⟨depth, dir, openCid, rfl⟩
    · simp [State.ofHead, dir]
    · simp [State.ofHead, openCid]
  | covered covered few depth formed =>
    obtain ⟨sg, placed⟩ := formed.segment
    refine ⟨?_, pos, usable.fanout_le, usable.seg_le,
      ⟨_, (validateDirectoryGeometry_covered_iff covered pos).mpr
        (formed.spans isHead few depth)⟩, ?_, ?_⟩
    · rw [State.ofHead, formed.openCid, covered]
      rfl
    · intro c dir
      change h.dir = some c at dir
      obtain ⟨block, -, -, decoded⟩ := isHead
      have dir_iff := (decodeHead_encodable decoded).dir_iff
      cases deep : h.dirDepth with
      | zero =>
        rw [dir_iff.mp deep] at dir
        cases dir
      | succ level =>
        obtain ⟨d, dir', page⟩ := formed.dir level deep
        rw [dir'] at dir
        cases dir
        exact page.cbor
    · intro c openCid
      change h.openCid = some c at openCid
      rw [formed.openCid] at openCid
      cases openCid
      exact placed.segment.cbor

theorem Shelf.load_spec (shelf : Shelf ipld cfg root inv seen fault generation)
    (holds : inv w.shared.1) :
    Post (load ipld (withCache cfg) (some root)) w
      (fun _ w' => ∃ h, IsHead ipld root h ∧ UsableHead h ∧
        w'.cur = State.ofHead h (some root) ∧ inv w'.shared.1 ∧ w'.shared.2 = w.shared.2)
      (fun _ => ∀ h, IsHead ipld root h → Loadable (State.ofHead h (some root)) → fault) := by
  refine post_then (post_raised loadState_post ?_) ?_
  · intro e raised h isHead loadable
    obtain ⟨block, named, -, -⟩ := id isHead
    have start : Reaches ipld root .head (ipld.nodeCID block) := named ▸ .root
    refine (shelf.get_index holds start).resolve_right fun found => ?_
    exact raised h isHead loadable block named (named ▸ found)
  · rintro st _ ⟨h, isHead, rfl, loadable, rfl⟩
    exact post_modify ⟨h, isHead, ⟨loadable.fanout_pos, loadable.fanout_le, loadable.seg_le⟩, rfl,
      shelf.get_inv holds, rfl⟩

theorem Shelf.reopen_spec (shelf : Shelf ipld cfg root inv seen fault generation)
    (proved : Proved ipld cache) (shown : ∀ s, inv s → ∀ c, Fresh generation cache c → seen s c)
    (holds : inv w.shared.1) (same : w.shared.2 = cache) :
    Post (reopen ipld cfg (some root)) w
      (fun found w' => ∃ h es, IsHead ipld root h ∧ UsableHead h ∧
        Accepted ipld root h inv seen generation cache es found w')
      (fun _ => ∀ h es, IsHead ipld root h → UsableHead h → Admissible ipld h es →
        BytesWithin ipld (Unread ipld root generation cache) maxEnumerationDecodedBytes → fault) := by
  refine post_then (post_raised (shelf.load_spec holds) ?_) ?_
  · intro e raised h es isHead usable admissible _
    exact raised h isHead (admissible.loadable isHead usable)
  · rintro _ w₁ ⟨h, isHead, usable, cur, inv₁, same₁⟩
    have opened : Opened ipld root h w₁ := ⟨isHead, cur, usable.fanout_pos, usable.fanout_le⟩
    refine post_mono (shelf.enumerate_spec proved shown opened inv₁ (same₁.trans same)) ?_ ?_
    · rintro found w' ⟨es, accepted⟩
      exact ⟨h, es, isHead, usable, accepted⟩
    · intro e raised other es isHead' _ admissible bytes
      obtain rfl := isHead.unique isHead'
      exact raised es admissible bytes

end Reopen

end Bloar.Archive
