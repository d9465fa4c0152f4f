import Bloar.Fixed

/-!
Retention (`pinning/policy.go`, `pinning/reconcile.go`). A policy asks for a set of
pins over an enumerated head, and a reconciliation pass turns the rows of the pin
ledger into that set: rows whose recursive flag changes are rewritten, missing rows
are added, and rows nobody asks for are removed, in that order.
-/

namespace Bloar.Ipld

mutual

/-- `appendLinks`. -/
def Node.links : Node → List Cid
  | .link c => [c]
  | .list items => linksOfItems items
  | .map fields => linksOfFields fields
  | _ => []

def linksOfItems : List Node → List Cid
  | [] => []
  | item :: rest => item.links ++ linksOfItems rest

def linksOfFields : List (String × Node) → List Cid
  | [] => []
  | (_, value) :: rest => value.links ++ linksOfFields rest

end

def Codec.Verifies (ipld : Codec) (c : Cid) (data : Block) : Prop :=
  c.hash = (ipld.sum c.codec data).hash

instance (ipld : Codec) (c : Cid) (data : Block) : Decidable (ipld.Verifies c data) :=
  inferInstanceAs (Decidable (_ = _))

theorem Codec.Verifies.unique {ipld : Codec} {c : Cid} {a b : Block} (first : ipld.Verifies c a)
    (second : ipld.Verifies c b) : a = b := by
  apply ipld.sha256_injective
  have same := first.symm.trans second
  simpa [Codec.sum] using same

def Codec.LinksTo (ipld : Codec) (c d : Cid) : Prop :=
  c.codec = dagCBOR ∧ ∃ data node, ipld.Verifies c data ∧ ipld.decode data = some node ∧
    d ∈ node.links

def Codec.Dag (ipld : Codec) : Cid → Cid → Prop := Relation.ReflTransGen ipld.LinksTo

end Bloar.Ipld

namespace Bloar.Pinning
open Ipld Archive

/-! ### Policies -/

inductive Mode where
  | full
  | window
  | none
  | other (value : Int)
  deriving DecidableEq, Repr

/-- `Policy`; the duration is in nanoseconds. -/
structure Policy where
  mode : Mode
  duration : Int
  secondsPerSlot : Nat
  deriving DecidableEq, Repr

inductive PinError where
  | duration (value : Int)
  | noSecondsPerSlot
  | unknownMode (value : Int)
  | noRoot
  deriving DecidableEq, Repr

def Policy.validate (p : Policy) : Except PinError Unit :=
  match p.mode with
  | .full | .none => .ok ()
  | .window =>
    if p.duration ≤ 0 then .error (.duration p.duration)
    else if p.secondsPerSlot = 0 then .error .noSecondsPerSlot
    else .ok ()
  | .other value => .error (.unknownMode value)

def Policy.windowSlots (p : Policy) : Nat :=
  if p.mode ≠ .window ∨ p.secondsPerSlot = 0 then 0
  else (p.duration.tdiv 1000000000 % 2 ^ 64).toNat / p.secondsPerSlot

def Policy.windowLow (p : Policy) (syncedTo : Nat) : Nat :=
  if p.windowSlots < syncedTo then syncedTo - p.windowSlots else 0

inductive Purpose where
  | root
  | index
  | window
  | openWindow
  | manifest
  | other (name : String)
  deriving DecidableEq, Repr

/-- `Pin`, and the part of a `PinEntry` that a reconciliation reads. -/
structure Pin where
  purpose : Purpose
  cid : Cid
  recursive : Bool
  deriving DecidableEq, Repr

abbrev PinKey := Purpose × Cid

def Pin.key (p : Pin) : PinKey := (p.purpose, p.cid)

def sealedPin (p : Policy) (low : Nat) (s : SealedSegment) : Pin :=
  if p.mode = .window ∧ low ≤ s.lastSlot then ⟨.window, s.cid, true⟩ else ⟨.index, s.cid, false⟩

def desired (p : Policy) (e : Enumeration) : Except PinError (List Pin) := do
  p.validate
  match e.root with
  | none => .error .noRoot
  | some root =>
    if p.mode = .full then return [⟨.root, root, true⟩]
    return ⟨.root, root, false⟩ :: e.dirPages.map (fun page => ⟨.index, page, false⟩) ++
      e.sealed.map (sealedPin p (p.windowLow e.syncedTo)) ++
      e.openCid.toList.map fun c => ⟨.openWindow, c, p.mode = .window⟩

/-- What a pass wants for a head: the policy's pins and the manifest tip, if there is
one. -/
def wanted (p : Policy) (e : Enumeration) (tip : Link) : Except PinError (List Pin) := do
  let pins ← desired p e
  return pins ++ tip.toList.map fun c => ⟨.manifest, c, true⟩

/-! ### The diff -/

def want (desired : List Pin) (key : PinKey) : Option Pin :=
  desired.reverse.find? fun p => p.key = key

def rewrites (desired held : List Pin) : List Pin :=
  held.filterMap fun e => (want desired e.key).filter fun p => p.recursive ≠ e.recursive

def plan (desired held : List Pin) : List Pin × List Pin :=
  (rewrites desired held ++ desired.filter fun p => p.key ∉ held.map Pin.key,
    held.filter fun e => (want desired e.key).isNone)

abbrev Rows := PinKey → Option Bool

inductive Write where
  | add (pin : Pin)
  | remove (key : PinKey)
  deriving DecidableEq, Repr

def Rows.write (rows : Rows) : Write → Rows
  | .add pin => Function.update rows pin.key (some pin.recursive)
  | .remove key => Function.update rows key none

def Rows.run (rows : Rows) (ws : List Write) : Rows := ws.foldl Rows.write rows

def writes (desired held : List Pin) : List Write :=
  (plan desired held).1.map .add ++ (plan desired held).2.map fun p => .remove p.key

structure Lists (rows : Rows) (held : List Pin) : Prop where
  mem : ∀ p, p ∈ held ↔ rows p.key = some p.recursive
  nodup : (held.map Pin.key).Nodup

/-! ### What rows retain -/

section Closure
variable (ipld : Codec)

def Pin.Covers (p : Pin) (c : Cid) : Prop :=
  if p.recursive then ipld.Dag p.cid c else c = p.cid

def Retained (pins : List Pin) (c : Cid) : Prop := ∃ p ∈ pins, p.Covers ipld c

def Rows.Retains (rows : Rows) (c : Cid) : Prop :=
  ∃ p : Pin, rows p.key = some p.recursive ∧ p.Covers ipld c

end Closure

section Facts
variable {ipld : Codec} {rows : Rows} {held front back pins : List Pin} {p row : Pin} {c : Cid}

theorem Lists.retains_iff (lists : Lists rows held) : rows.Retains ipld c ↔ Retained ipld held c := by
  constructor
  · rintro ⟨p, present, covers⟩
    exact ⟨p, (lists.mem p).mpr present, covers⟩
  · rintro ⟨p, member, covers⟩
    exact ⟨p, (lists.mem p).mp member, covers⟩

theorem Pin.Covers.widen (covers : row.Covers ipld c) (same : p.cid = row.cid)
    (flags : row.recursive = true → p.recursive = true) : p.Covers ipld c := by
  unfold Pin.Covers at *
  by_cases deep : row.recursive = true
  · rw [if_pos deep] at covers
    rw [if_pos (flags deep), same]
    exact covers
  · rw [if_neg deep] at covers
    subst covers
    split
    · rw [same]
      exact .refl
    · exact same.symm

theorem Pin.key_eq (same : p.key = row.key) (flags : p.recursive = row.recursive) : p = row := by
  cases p
  cases row
  simp_all [Pin.key]

theorem Lists.rewrite (lists : Lists rows (front ++ row :: back)) (same : p.key = row.key) :
    Lists (rows.write (.add p)) (front ++ p :: back) := by
  have keys : (front ++ p :: back).map Pin.key = (front ++ row :: back).map Pin.key := by
    simp [same]
  refine ⟨fun q => ?_, keys ▸ lists.nodup⟩
  have nodup := lists.nodup
  rw [List.map_append, List.map_cons, List.nodup_append, List.nodup_cons] at nodup
  obtain ⟨-, ⟨outBack, -⟩, outFront⟩ := nodup
  by_cases this : q.key = p.key
  · -- The other rows have other keys.
    have inFront : q ∉ front := fun inside => outFront q.key (List.mem_map_of_mem inside)
      row.key (List.mem_cons_self ..) (this.trans same)
    have inBack : q ∉ back := fun inside => outBack (same ▸ this ▸ List.mem_map_of_mem inside)
    simp only [List.mem_append, List.mem_cons, inFront, inBack, false_or, or_false, Rows.write, this,
      Function.update_self, Option.some.injEq]
    constructor
    · rintro rfl
      rfl
    · intro flags
      exact Pin.key_eq this flags.symm
  · have other : q ≠ p := fun eq => this (eq ▸ rfl)
    have other' : q ≠ row := fun eq => this (eq ▸ same.symm)
    have listed := lists.mem q
    simp only [List.mem_append, List.mem_cons, other, other', false_or] at listed ⊢
    rw [listed, Rows.write, Function.update_of_ne this]

end Facts

/-! ### Wanted pins -/

def Consistent (pins : List Pin) : Prop :=
  ∀ p ∈ pins, ∀ q ∈ pins, p.key = q.key → p = q

section Wants
variable {pins held : List Pin} {p : Pin} {key : PinKey}

theorem want_some (found : want pins key = some p) : p ∈ pins ∧ p.key = key := by
  have member := List.mem_of_find?_eq_some found
  have named := List.find?_some found
  exact ⟨List.mem_reverse.mp member, by simpa using named⟩

theorem want_none_iff : want pins key = none ↔ ∀ p ∈ pins, p.key ≠ key := by
  simp [want]

theorem Consistent.want (consistent : Consistent pins) (member : p ∈ pins) :
    want pins p.key = some p := by
  cases found : Pinning.want pins p.key with
  | none => exact absurd rfl (want_none_iff.mp found p member)
  | some q =>
    obtain ⟨inside, same⟩ := want_some found
    rw [consistent q inside p member same]

/-- The pins of a policy and a tip are consistent: only the purpose decides the flag. -/
theorem wanted_consistent {policy : Policy} {e : Enumeration} {tip : Link}
    (made : wanted policy e tip = .ok pins) : Consistent pins := by
  have flags : ∃ flag : Purpose → Bool, ∀ p ∈ pins, p.recursive = flag p.purpose := by
    unfold wanted desired at made
    cases valid : policy.validate with
    | error => simp [valid, bind, Except.bind] at made
    | ok =>
    cases at_root : e.root with
    | none => simp [valid, at_root, bind, Except.bind] at made
    | some root =>
    by_cases full : policy.mode = .full
    · simp only [valid, at_root, full, if_true, bind, Except.bind, pure, Except.pure,
        Except.ok.injEq] at made
      refine ⟨fun _ => true, fun p member => ?_⟩
      subst made
      simp only [List.cons_append, List.nil_append, List.mem_cons, List.mem_map] at member
      rcases member with rfl | ⟨_, -, rfl⟩ <;> rfl
    · simp only [valid, at_root, full, if_false, bind, Except.bind, pure, Except.pure,
        Except.ok.injEq] at made
      refine ⟨fun
        | .window | .manifest => true
        | .openWindow => policy.mode = .window
        | _ => false, fun p member => ?_⟩
      subst made
      simp only [List.cons_append, List.mem_append, List.mem_cons, List.mem_map] at member
      rcases member with rfl | ((⟨_, -, rfl⟩ | ⟨s, -, rfl⟩) | ⟨_, -, rfl⟩) | ⟨_, -, rfl⟩
      · rfl
      · rfl
      · unfold sealedPin
        split <;> rfl
      · rfl
      · rfl
  obtain ⟨flag, each⟩ := flags
  intro p inP q inQ same
  have purposes : p.purpose = q.purpose := congrArg Prod.fst same
  exact Pin.key_eq same (by rw [each p inP, each q inQ, purposes])

end Wants

/-! ### The writes of a pass -/

def settle (desired : List Pin) (row : Pin) : Pin := (want desired row.key).getD row

section Prefixes
variable {α β : Type}

theorem prefix_append_cases {ws xs ys : List α} (front : ws <+: xs ++ ys) :
    ws <+: xs ∨ ∃ zs, zs <+: ys ∧ ws = xs ++ zs := by
  rcases List.prefix_or_prefix_of_prefix front (List.prefix_append xs ys) with short | long
  · exact .inl short
  · obtain ⟨zs, rfl⟩ := long
    exact .inr ⟨zs, (List.prefix_append_right_inj xs).mp front, rfl⟩

theorem prefix_filterMap {f : α → Option β} {ws : List β} {xs : List α}
    (front : ws <+: xs.filterMap f) : ∃ first rest, xs = first ++ rest ∧ ws = first.filterMap f := by
  induction xs generalizing ws with
  | nil => exact ⟨[], [], rfl, by simpa using front⟩
  | cons x xs ih =>
    cases made : f x with
    | none =>
      rw [List.filterMap_cons_none made] at front
      obtain ⟨first, rest, rfl, rfl⟩ := ih front
      exact ⟨x :: first, rest, rfl, by rw [List.filterMap_cons_none made]⟩
    | some y =>
      rw [List.filterMap_cons_some made] at front
      cases ws with
      | nil => exact ⟨[], x :: xs, rfl, rfl⟩
      | cons w ws =>
        obtain ⟨rfl, later⟩ := List.cons_prefix_cons.mp front
        obtain ⟨first, rest, rfl, rfl⟩ := ih later
        exact ⟨x :: first, rest, rfl, by rw [List.filterMap_cons_some made]⟩

end Prefixes

section Pass
variable {ipld : Codec} {rows : Rows} {held front back done pins : List Pin} {p row : Pin} {c : Cid}

theorem Rows.run_append (first second : List Write) :
    rows.run (first ++ second) = (rows.run first).run second := List.foldl_append

theorem rewrites_append (first second : List Pin) :
    rewrites pins (first ++ second) = rewrites pins first ++ rewrites pins second :=
  List.filterMap_append

theorem settle_or_rewrite (pins : List Pin) (row : Pin) :
    rewrites pins [row] = [] ∧ settle pins row = row ∨
      (settle pins row).key = row.key ∧ rewrites pins [row] = [settle pins row] := by
  cases found : want pins row.key with
  | none => exact .inl (by simp [rewrites, settle, found])
  | some p =>
    have same := (want_some found).2
    by_cases flags : p.recursive = row.recursive
    · exact .inl (by simp [rewrites, settle, found, Pin.key_eq same flags])
    · exact .inr (by simp [rewrites, settle, found, Option.filter, flags, same])

theorem Lists.rewrites (pins : List Pin) (lists : Lists rows (done ++ front ++ back)) :
    Lists (rows.run ((rewrites pins front).map .add)) (done ++ front.map (settle pins) ++ back) := by
  induction front generalizing rows done with
  | nil => exact lists
  | cons row front ih =>
    have shifted : (done ++ [settle pins row]) ++ front ++ back =
        done ++ settle pins row :: (front ++ back) := by simp
    have whole : done ++ (row :: front).map (settle pins) ++ back =
        (done ++ [settle pins row]) ++ front.map (settle pins) ++ back := by simp
    have parted : done ++ row :: front ++ back = done ++ row :: (front ++ back) := by simp
    rw [← List.singleton_append, rewrites_append, List.map_append, Rows.run_append,
      List.singleton_append, whole]
    rw [parted] at lists
    rcases settle_or_rewrite pins row with ⟨none, same⟩ | ⟨same, one⟩
    · rw [none]
      refine ih ?_
      rw [shifted, same]
      exact lists
    · rw [one]
      refine ih ?_
      rw [shifted]
      exact lists.rewrite same

def Rows.Agrees (rows : Rows) (pins : List Pin) : Prop :=
  ∀ p ∈ pins, ∀ flag, rows p.key = some flag → flag = p.recursive

theorem Rows.Agrees.add (agrees : rows.Agrees pins) (consistent : Consistent pins)
    (member : p ∈ pins) : (rows.write (.add p)).Agrees pins := by
  intro q inside flag found
  by_cases same : q.key = p.key
  · rw [Rows.write, same, Function.update_self, Option.some.injEq] at found
    rw [consistent q inside p member same, found]
  · rw [Rows.write, Function.update_of_ne same] at found
    exact agrees q inside flag found

theorem Rows.Agrees.retains (agrees : rows.Agrees pins) (member : p ∈ pins)
    (retains : rows.Retains ipld c) : (rows.write (.add p)).Retains ipld c := by
  obtain ⟨q, present, covers⟩ := retains
  refine ⟨q, ?_, covers⟩
  by_cases same : q.key = p.key
  · rw [same] at present ⊢
    rw [Rows.write, Function.update_self, agrees p member _ present]
  · rw [Rows.write, Function.update_of_ne same]
    exact present

variable {news : List Pin}

theorem Rows.Agrees.run_retains (agrees : rows.Agrees pins) (consistent : Consistent pins)
    (sub : ∀ p ∈ news, p ∈ pins) (retains : rows.Retains ipld c) :
    (rows.run (news.map .add)).Retains ipld c := by
  induction news generalizing rows with
  | nil => exact retains
  | cons q news ih =>
    rw [List.forall_mem_cons] at sub
    exact ih (agrees.add consistent sub.1) sub.2 (agrees.retains sub.1 retains)

theorem run_adds (consistent : Consistent pins) (sub : ∀ p ∈ news, p ∈ pins) (inside : p ∈ pins)
    (given : rows p.key = some p.recursive ∨ p ∈ news) :
    rows.run (news.map .add) p.key = some p.recursive := by
  induction news generalizing rows with
  | nil => simpa [Rows.run] using given
  | cons q news ih =>
    rw [List.forall_mem_cons] at sub
    refine ih sub.2 ?_
    by_cases same : p.key = q.key
    · left
      rw [Rows.write, same, Function.update_self, consistent p inside q sub.1 same]
    · rcases given with old | new
      · left
        rw [Rows.write, Function.update_of_ne same]
        exact old
      · rcases List.mem_cons.mp new with rfl | later
        · exact absurd rfl same
        · exact .inr later

theorem run_removes {gone : List Pin} (unwanted : ∀ q ∈ gone, want pins q.key = none)
    (present : ∀ p ∈ pins, rows p.key = some p.recursive) :
    ∀ p ∈ pins, rows.run (gone.map fun q => .remove q.key) p.key = some p.recursive := by
  induction gone generalizing rows with
  | nil => exact present
  | cons q gone ih =>
    rw [List.forall_mem_cons] at unwanted
    refine ih unwanted.2 fun p inside => ?_
    rw [Rows.write, Function.update_of_ne (want_none_iff.mp unwanted.1 p inside)]
    exact present p inside

theorem Lists.agrees (lists : Lists rows (held.map (settle pins))) (consistent : Consistent pins) :
    rows.Agrees pins := by
  intro p member flag found
  have listed := (lists.mem ⟨p.purpose, p.cid, flag⟩).mpr found
  obtain ⟨row, -, settled⟩ := List.mem_map.mp listed
  have keys : row.key = p.key := by
    rcases settle_or_rewrite pins row with ⟨-, same⟩ | ⟨same, -⟩
    · rw [← same, settled]
      rfl
    · rw [← same, settled]
      rfl
  rw [settle, keys, consistent.want member, Option.getD_some] at settled
  rw [settled]

theorem Lists.rewritten (pins : List Pin) (lists : Lists rows held) :
    Lists (rows.run ((Pinning.rewrites pins held).map .add)) (held.map (settle pins)) := by
  have spread : Lists rows ([] ++ held ++ []) := by simpa using lists
  simpa using spread.rewrites pins

theorem Lists.adds (lists : Lists rows held) (consistent : Consistent pins) :
    ∀ p ∈ pins, rows.run ((plan pins held).1.map .add) p.key = some p.recursive := by
  have rewritten := lists.rewritten pins
  have sub : ∀ p ∈ pins.filter fun p => p.key ∉ held.map Pin.key, p ∈ pins :=
    fun p member => List.mem_of_mem_filter member
  intro q inside
  rw [plan, List.map_append, Rows.run_append]
  refine run_adds consistent sub inside ?_
  by_cases old : q.key ∈ held.map Pin.key
  · left
    obtain ⟨row, listed, same⟩ := List.mem_map.mp old
    have settled : settle pins row = q := by
      rw [settle, same, consistent.want inside, Option.getD_some]
    exact (rewritten.mem q).mp (settled ▸ List.mem_map_of_mem listed)
  · exact .inr (List.mem_filter.mpr ⟨inside, by simpa using old⟩)

theorem Lists.pass (lists : Lists rows held) (consistent : Consistent pins) :
    ∀ p ∈ pins, rows.run (writes pins held) p.key = some p.recursive := by
  rw [writes, Rows.run_append]
  refine run_removes (fun q inside => ?_) (lists.adds consistent)
  simpa using List.of_mem_filter inside

theorem of_run_adds {key : PinKey} {flag : Bool} (found : rows.run (news.map .add) key = some flag) :
    rows key = some flag ∨ ∃ p ∈ news, p.key = key ∧ p.recursive = flag := by
  induction news generalizing rows with
  | nil => exact .inl found
  | cons q news ih =>
    rcases ih found with before | ⟨p, later, fits⟩
    · by_cases same : key = q.key
      · rw [Rows.write, same, Function.update_self, Option.some.injEq] at before
        exact .inr ⟨q, List.mem_cons_self .., same.symm, before⟩
      · rw [Rows.write, Function.update_of_ne same] at before
        exact .inl before
    · exact .inr ⟨p, List.mem_cons_of_mem _ later, fits⟩

theorem first_pass_lists (consistent : Consistent pins) :
    Lists (Rows.run (fun _ => none) (writes pins [])) pins.dedup := by
  have lists : Lists (fun _ => none) [] := ⟨by simp, List.nodup_nil⟩
  have adds : writes pins [] = pins.map .add := by simp [writes, plan, Pinning.rewrites]
  refine ⟨fun p => ?_, ?_⟩
  · rw [List.mem_dedup]
    refine ⟨lists.pass consistent p, fun found => ?_⟩
    rw [adds] at found
    rcases of_run_adds found with never | ⟨q, member, key, flag⟩
    · cases never
    · exact Pin.key_eq key flag ▸ member
  · refine pins.nodup_dedup.map_on fun p inside q inside' same => ?_
    rw [List.mem_dedup] at inside inside'
    exact consistent p inside q inside' same

/-- Every prefix of the writes: some rewrites, or all of them and then only what
keeps the wanted pins. -/
theorem pass_prefix (ipld : Codec) {ws : List Write} (lists : Lists rows held) (consistent : Consistent pins)
    (front : ws <+: writes pins held) :
    (∃ first rest, held = first ++ rest ∧ ws = (rewrites pins first).map .add) ∨
      ∀ c, (Retained ipld pins c → Retained ipld (held.map (settle pins)) c) →
        Retained ipld pins c → (rows.run ws).Retains ipld c := by
  have rewritten := lists.rewritten pins
  have agrees := rewritten.agrees consistent
  simp only [writes, plan, List.map_append, List.append_assoc] at front
  rcases prefix_append_cases front with early | ⟨later, inside, rfl⟩
  · rw [rewrites, List.map_filterMap] at early
    obtain ⟨first, rest, split, rfl⟩ := prefix_filterMap early
    exact .inl ⟨first, rest, split, by rw [rewrites, List.map_filterMap]⟩
  right
  intro c covered wantedBlock
  rw [Rows.run_append]
  rcases prefix_append_cases inside with adding | ⟨gone, removing, rfl⟩
  · obtain ⟨news, among, rfl⟩ := List.prefix_map_iff.mp adding
    have sub : ∀ p ∈ news, p ∈ pins := fun p member => List.mem_of_mem_filter (among.subset member)
    exact agrees.run_retains consistent sub (rewritten.retains_iff.mpr (covered wantedBlock))
  · -- All rows are there, and stay.
    obtain ⟨gone, among, rfl⟩ := List.prefix_map_iff.mp removing
    obtain ⟨p, member, covers⟩ := wantedBlock
    have added := lists.adds consistent
    rw [plan, List.map_append, Rows.run_append] at added
    rw [Rows.run_append]
    have unwanted : ∀ q ∈ gone, want pins q.key = none := fun q inside => by
      simpa using List.of_mem_filter (among.subset inside)
    exact ⟨p, run_removes unwanted added p member, covers⟩

/-- Every wanted block under a row that is to become direct is that row's own, or it
also lies under a row listed earlier, as wanted, or under one listed later, as it is. -/
def Backed (ipld : Codec) (pins held : List Pin) : Prop :=
  ∀ front row back, held = front ++ row :: back → row.recursive = true →
    (settle pins row).recursive = false → ∀ c, Retained ipld pins c → ipld.Dag row.cid c →
    c = row.cid ∨ Retained ipld (front.map (settle pins)) c ∨ Retained ipld back c

theorem settle_cid (pins : List Pin) (row : Pin) : (settle pins row).cid = row.cid := by
  rcases settle_or_rewrite pins row with ⟨-, same⟩ | ⟨same, -⟩
  · rw [same]
  · exact congrArg Prod.snd same

theorem retained_append : Retained ipld (front ++ back) c ↔
    Retained ipld front c ∨ Retained ipld back c := by
  simp [Retained, or_and_right, exists_or]

theorem retained_cons : Retained ipld (p :: back) c ↔ p.Covers ipld c ∨ Retained ipld back c := by
  simp [Retained]

/-- One rewrite: the wanted blocks stay retained where the row is backed. -/
theorem Backed.stage (backed : Backed ipld pins held)
    (retained : ∀ c, Retained ipld pins c → Retained ipld held c) (split : held = front ++ back)
    (wantedBlock : Retained ipld pins c) : Retained ipld (front.map (settle pins) ++ back) c := by
  induction front using List.reverseRecOn generalizing back c with
  | nil =>
    subst split
    exact retained c wantedBlock
  | append_singleton front row ih =>
    have split' : held = front ++ row :: back := by rw [split]; simp
    have before := ih split' wantedBlock
    rw [retained_append, retained_cons] at before
    rw [List.map_append, List.map_singleton, retained_append, retained_append]
    rcases before with early | covers | late
    · exact .inl (.inl early)
    · by_cases lost : row.recursive = true ∧ (settle pins row).recursive = false
      · obtain ⟨deep, shallow⟩ := lost
        have under : ipld.Dag row.cid c := by simpa [Pin.Covers, deep] using covers
        have cases := backed front row back split' deep shallow c wantedBlock under
        rcases cases with rfl | early | late
        · refine .inl (.inr ⟨_, List.mem_singleton_self _, ?_⟩)
          simp [Pin.Covers, shallow, settle_cid]
        · exact .inl (.inl early)
        · exact .inr late
      · refine .inl (.inr ⟨_, List.mem_singleton_self _, covers.widen (settle_cid pins row) ?_⟩)
        intro deep
        by_contra shallow
        exact lost ⟨deep, by simpa using shallow⟩
    · exact .inr late

end Pass

/-! ### The DAG of an index -/

section Index
variable {ipld : Codec}

variable {fields : List (String × Node)} {d : Cid} {block : Block}

theorem mem_linksOfFields {field : String × Node} (member : field ∈ fields)
    (inside : d ∈ field.2.links) : d ∈ linksOfFields fields := by
  induction fields with
  | nil => cases member
  | cons first rest ih =>
    rw [linksOfFields, List.mem_append]
    rcases List.mem_cons.mp member with rfl | later
    · exact .inl inside
    · exact .inr (ih later)

theorem links_of_fieldOf (key : String) (inside : d ∈ (Schema.fieldOf fields key).links) :
    d ∈ (Node.map fields).links := by
  unfold Schema.fieldOf at inside
  cases found : fields.reverse.find? fun field => field.1 == key with
  | none => simp [found, Node.links] at inside
  | some field =>
    rw [found] at inside
    exact mem_linksOfFields (List.mem_reverse.mp (List.mem_of_find?_eq_some found)) inside

variable {obj : String} {n : Node} {h : Schema.Head} {root : Cid} {kind : Kind}

theorem links_of_nullableLink {key : String}
    (read : Schema.fieldNullableLink obj key n = .ok (some d)) : d ∈ n.links := by
  cases n with
  | link c =>
    simp only [Schema.fieldNullableLink, Schema.fieldLink, Schema.asLink, Except.ok.injEq,
      Option.some.injEq] at read
    simp [Node.links, read]
  | _ => simp [Schema.fieldNullableLink, Schema.fieldLink, Schema.asLink] at read

theorem mapFields_ok {keys : List String} (read : Schema.mapFields obj n keys = .ok fields) :
    n = .map fields := by
  cases n with
  | map found =>
    simp only [Schema.mapFields, Schema.checked_bind_ok_iff, Schema.checked_pure_ok_iff] at read
    obtain ⟨_, -, _, -, rfl⟩ := read
    rfl
  | _ => simp [Schema.mapFields] at read

theorem linksTo_of_node {node : Node} (decoded : Schema.decodeNode ipld block = .ok node)
    (inside : d ∈ node.links) : ipld.LinksTo (ipld.nodeCID block) d := by
  unfold Schema.decodeNode at decoded
  split at decoded
  · cases decoded
  · rename_i found
    cases decoded
    exact ⟨rfl, block, _, rfl, found, inside⟩

theorem linksTo_of_head (decoded : Schema.decodeHead ipld block = .ok h)
    (link : h.dir = some d ∨ h.openCid = some d) : ipld.LinksTo (ipld.nodeCID block) d := by
  simp only [Schema.decodeHead, Schema.checked_bind_ok_iff] at decoded
  obtain ⟨node, read, decoded⟩ := decoded
  simp only [Schema.headOfNode, Schema.checked_bind_ok_iff, Schema.checked_pure_ok_iff] at decoded
  obtain ⟨fields, isMap, _, -, _, -, _, -, _, -, _, -, _, -, _, -, _, -, dir, readDir, openCid, readOpen,
    _, -, rfl⟩ := decoded
  refine linksTo_of_node read ?_
  rw [mapFields_ok isMap]
  rcases link with rfl | rfl
  · exact links_of_fieldOf "dir" (links_of_nullableLink readDir)
  · exact links_of_fieldOf "open" (links_of_nullableLink readOpen)

theorem links_of_decodeKids {idx : Nat} {items : List Node} {kids : List Link}
    (read : Schema.decodeKids idx items = .ok kids) (member : some d ∈ kids) :
    d ∈ linksOfItems items := by
  induction items generalizing idx kids with
  | nil =>
    cases read
    cases member
  | cons item rest ih =>
    simp only [Schema.decodeKids, Schema.checked_bind_ok_iff, Schema.checked_pure_ok_iff] at read
    obtain ⟨kid, first, others, later, rfl⟩ := read
    rw [linksOfItems, List.mem_append]
    rcases List.mem_cons.mp member with rfl | inside
    · exact .inl (links_of_nullableLink first)
    · exact .inr (ih later inside)

theorem linksTo_of_page {page : Schema.DirNode}
    (decoded : Schema.decodeDirNode ipld block = .ok page) (kid : some d ∈ page.kids) :
    ipld.LinksTo (ipld.nodeCID block) d := by
  simp only [Schema.decodeDirNode, Schema.checked_bind_ok_iff] at decoded
  obtain ⟨node, read, decoded⟩ := decoded
  simp only [Schema.dirNodeOfNode, Schema.checked_bind_ok_iff] at decoded
  obtain ⟨fields, isMap, _, -, decoded⟩ := decoded
  refine linksTo_of_node read ?_
  rw [mapFields_ok isMap]
  refine links_of_fieldOf "kids" ?_
  split at decoded
  · rename_i items found
    simp only [Schema.checked_bind_ok_iff, Schema.checked_pure_ok_iff] at decoded
    obtain ⟨kids, readKids, rfl⟩ := decoded
    rw [found]
    exact links_of_decodeKids readKids (trimTrailingNulls_mem.mp kid)
  · cases decoded

theorem reaches_dag {c : Cid} (reached : Reaches ipld root kind c) : ipld.Dag root c := by
  induction reached with
  | root => exact .refl
  | step _ links ih =>
    refine ih.tail ?_
    cases links with
    | opened decoded link => exact linksTo_of_head decoded (.inr link)
    | dir decoded link => exact linksTo_of_head decoded (.inl link)
    | child decoded kid => exact linksTo_of_page decoded kid
    | leaf decoded kid => exact linksTo_of_page decoded kid

theorem decode_of_checked {α : Type} {f : Node → Schema.Checked α} {a : α}
    (read : (Schema.decodeNode ipld block >>= f) = .ok a) :
    ∃ node, ipld.decode block = some node := by
  rw [Schema.checked_bind_ok_iff] at read
  obtain ⟨node, decoded, -⟩ := read
  unfold Schema.decodeNode at decoded
  split at decoded
  · cases decoded
  · rename_i found
    exact ⟨_, found⟩

theorem segment_decodes {c : Cid} {s : Schema.Segment} (isSegment : IsSegment ipld c s) :
    ∃ block node, c = ipld.nodeCID block ∧ ipld.decode block = some node := by
  obtain ⟨block, named, -, decoded, -⟩ := isSegment
  obtain ⟨node, found⟩ := decode_of_checked decoded
  exact ⟨block, node, named, found⟩

theorem index_decodes {c : Cid} {es : List Link} (isHead : IsHead ipld root h)
    (admissible : Admissible ipld h es) (reached : Reaches ipld root kind c) :
    ∃ block node, c = ipld.nodeCID block ∧ ipld.decode block = some node := by
  have top : ∃ block node, root = ipld.nodeCID block ∧ ipld.decode block = some node := by
    obtain ⟨block, named, -, decoded⟩ := isHead
    obtain ⟨node, found⟩ := decode_of_checked decoded
    exact ⟨block, node, named, found⟩
  cases admissible with
  | uncovered bare depth dir openCid =>
    obtain ⟨-, rfl⟩ := reaches_bare isHead dir openCid reached
    exact top
  | covered covered few depth formed =>
    have stands := formed.stands isHead reached
    cases stands with
    | head => exact top
    | opened =>
      obtain ⟨_, placed⟩ := formed.segment
      exact segment_decodes placed.segment
    | sealed member =>
      obtain ⟨_, isSegment⟩ := formed.sealed.segments _ member
      exact segment_decodes isSegment
    | page page =>
      obtain ⟨_, block, named, -, decoded⟩ := page.isPage
      obtain ⟨node, found⟩ := decode_of_checked decoded
      exact ⟨block, node, named, found⟩

end Index

section Crash
variable {ipld : Codec} {rows : Rows} {held pins : List Pin}

def oneRow (p : Pin) : Rows := Function.update (fun _ => none) p.key (some p.recursive)

theorem oneRow_lists (p : Pin) : Lists (oneRow p) [p] := by
  refine ⟨fun q => ?_, by simp⟩
  rw [List.mem_singleton, oneRow]
  constructor
  · rintro rfl
    rw [Function.update_self]
  · intro found
    by_cases same : q.key = p.key
    · rw [same, Function.update_self, Option.some.injEq] at found
      exact Pin.key_eq same found.symm
    · rw [Function.update_of_ne same] at found
      cases found

def fullPolicy : Policy := ⟨.full, 0, 0⟩

def nonePolicy : Policy := ⟨.none, 0, 0⟩

def openedRoot : Cid := madeRoot smallParams 6 smallRows

def openedSegment : Cid := segCid 1 DagCbor.codec (blobRows DagCbor.codec sampleBlob smallRows) 3

theorem opened_wanted : ∃ h es, IsHead DagCbor.codec openedRoot h ∧ Admissible DagCbor.codec h es ∧
    wanted fullPolicy (enumerationOf DagCbor.codec openedRoot h es) none =
      .ok [⟨.root, openedRoot, true⟩] ∧
    wanted nonePolicy (enumerationOf DagCbor.codec openedRoot h es) none =
      .ok [⟨.root, openedRoot, false⟩, ⟨.openWindow, openedSegment, false⟩] := by
  obtain ⟨_, h, es, -, isHead, admissible, rfl, parts⟩ := @openIn_admissible
    (made smallParams 6 smallRows) openedRoot _ (fun e => ((wanted fullPolicy e none).toOption, (wanted nonePolicy e none).toOption))
    (some [⟨.root, openedRoot, true⟩],
      some [⟨.root, openedRoot, false⟩, ⟨.openWindow, openedSegment, false⟩]) (by decide +kernel)
  rw [Prod.mk.injEq] at parts
  exact ⟨h, es, isHead, admissible, ok_of_toOption parts.1, ok_of_toOption parts.2⟩

end Crash

end Bloar.Pinning
