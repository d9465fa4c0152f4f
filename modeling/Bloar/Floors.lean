import Bloar.ByteStore
import Bloar.Loops

/-!
The sequence floors of IPNS names that a follower keeps: a table of the single-writer state,
and one for each source of a source set. An observation rewrites its table as a whole, with
the observed name in front. Nothing of it is kept in memory, so that a restart finds what
the last batch left.
-/

namespace Bloar.Floors
open ByteStore Loops

abbrev Seq := Fin (2 ^ 64)

/-- What is used of `ipns.Name`. The library promises that a name's text parses to it. -/
structure Names (Name : Type) where
  text : Name → Bytes
  parse : Bytes → Option Name
  defined : Name → Bool
  parse_text : ∀ name, parse (text name) = some name

structure Floor (Name : Type) where
  name : Name
  seq : Seq

abbrev Table (Name : Type) := List (Floor Name)

inductive Refusal where
  | unsupported
  | tooMany (count : Nat)
  | truncated (i : Nat)
  | badLength (i n : Nat)
  | badName (i : Nat)
  | trailing (n : Nat)
  | unencodableName
  | emptyName
  | nonCanonicalName
  | unbound
  | otherSigner
  | repeatedSource

def maxIPNSFloorNames : Nat := 32

variable {Name : Type}

/-! ### The stored table -/

def Names.Encodable (lib : Names Name) (name : Name) : Prop :=
  0 < (lib.text name).length ∧ (lib.text name).length ≤ 65535

instance (lib : Names Name) (name : Name) : Decidable (lib.Encodable name) := by
  unfold Names.Encodable; infer_instance

def encodeEach (lib : Names Name) : Table Name → Except Refusal Bytes
  | [] => .ok []
  | floor :: rest =>
    if lib.Encodable floor.name then
      (encodeEach lib rest).map fun more =>
        bigEndianBytes 2 (lib.text floor.name).length ++
          (lib.text floor.name ++ (bigEndianBytes 8 floor.seq ++ more))
    else .error .unencodableName

def encodeIPNSFloors (lib : Names Name) (floors : Table Name) : Except Refusal Bytes :=
  if maxIPNSFloorNames < floors.length then .error (.tooMany floors.length)
  else (encodeEach lib floors).map fun each => 1 :: Fin.ofNat 256 floors.length :: each

/-- The loop over the entries from entry `i` on, and the check for bytes after them. -/
def decodeEach (lib : Names Name) : Nat → Nat → Bytes → Except Refusal (Table Name)
  | 0, _, rest => if rest = [] then .ok [] else .error (.trailing rest.length)
  | count + 1, i, rest =>
    if rest.length < 2 then .error (.truncated i)
    else
      let n := bigEndianValue (rest.take 2)
      let rest := rest.drop 2
      if n = 0 ∨ rest.length < n + 8 then .error (.badLength i n)
      else match lib.parse (rest.take n) with
        | none => .error (.badName i)
        | some name => (decodeEach lib count (i + 1) (rest.drop (n + 8))).map fun more =>
            ⟨name, Fin.ofNat _ (bigEndianValue ((rest.drop n).take 8))⟩ :: more

def decodeIPNSFloors (lib : Names Name) : Bytes → Except Refusal (Table Name)
  | version :: count :: rest =>
    if version ≠ 1 then .error .unsupported
    else if maxIPNSFloorNames < count.val then .error (.tooMany count.val)
    else decodeEach lib count.val 0 rest
  | _ => .error .unsupported

variable {b : Bytes}

theorem decodeEach_encode (lib : Names Name) {floors : Table Name} (i : Nat)
    (encoded : encodeEach lib floors = .ok b) : decodeEach lib floors.length i b = .ok floors := by
  induction floors generalizing i b with
  | nil =>
    cases encoded
    rfl
  | cons floor rest ih =>
    unfold encodeEach at encoded
    split at encoded
    · rename_i fits
      obtain ⟨more, tail, rfl⟩ := map_ok_iff.mp encoded
      have length : bigEndianValue (bigEndianBytes 2 (lib.text floor.name).length) =
          (lib.text floor.name).length := by
        rw [bigEndianValue_bytes]
        exact Nat.mod_eq_of_lt (Nat.lt_succ_of_le fits.2)
      have number : Fin.ofNat (2 ^ 64) (bigEndianValue (bigEndianBytes 8 floor.seq)) =
          floor.seq := by
        rw [bigEndianValue_bytes, Nat.mod_eq_of_lt (by have := floor.seq.isLt; omega)]
        exact Fin.ofNat_val_eq_self _
      have filled : ¬ (lib.text floor.name).length = 0 := Nat.ne_of_gt fits.1
      have long (n k : Nat) : ¬ n + k < n := by omega
      simp [-Fin.ofNat_eq_cast, decodeEach, length, filled, long, lib.parse_text, ih (i + 1) tail,
        Except.map]
      exact congrArg (Floor.mk floor.name) number
    · cases encoded

theorem decodeIPNSFloors_encode (lib : Names Name) {floors : Table Name}
    (encoded : encodeIPNSFloors lib floors = .ok b) : decodeIPNSFloors lib b = .ok floors := by
  unfold encodeIPNSFloors at encoded
  split at encoded
  · cases encoded
  · rename_i few
    obtain ⟨each, tail, rfl⟩ := map_ok_iff.mp encoded
    have count : floors.length % 256 = floors.length :=
      Nat.mod_eq_of_lt (by unfold maxIPNSFloorNames at few; omega)
    simp [decodeIPNSFloors, count, few, decodeEach_encode lib 0 tail]

/-! ### The rewritten table -/

/-- What an observation of the names leaves of a table. -/
structure Kept (old new : Table Name) (observed : List Name) (delegated : Option Name) :
    Prop where
  rises : ∀ f ∈ old, ∀ g ∈ new, f.name = g.name → f.seq ≤ g.seq
  others : ∀ g ∈ new, g.name ∉ observed → g ∈ old
  bounded : new.length ≤ maxIPNSFloorNames
  distinct : (new.map Floor.name).Nodup
  delegated : ∀ name ∈ delegated, name ∈ old.map Floor.name → name ∈ new.map Floor.name

section Table
variable {old : Table Name} {observed : List Name} {delegated : Option Name}

theorem kept_refl (bounded : old.length ≤ maxIPNSFloorNames)
    (distinct : (old.map Floor.name).Nodup) : Kept old old observed delegated where
  rises _ inF _ inG same :=
    le_of_eq (congrArg Floor.seq (List.inj_on_of_nodup_map distinct inF inG same))
  others _ inside _ := inside
  bounded := bounded
  distinct := distinct
  delegated _ _ inside := inside

theorem Kept.more {new : Table Name} {names : List Name} (kept : Kept old new names delegated)
    (among : ∀ name ∈ names, name ∈ observed) :
    Kept old new observed delegated :=
  { kept with others := fun g inG other => kept.others g inG fun inside => other (among _ inside) }

variable [DecidableEq Name]

def remember (floors : Table Name) (updated : Floor Name) : Table Name :=
  updated :: floors.filter (·.name ≠ updated.name)

/-- The last entry goes, or the one before it where the last is delegated to. -/
def dropOldest (delegated : Option Name) (out : Table Name) : Table Name :=
  let drop := out.length - 1
  out.eraseIdx (if delegated.isSome ∧ out[drop]?.map Floor.name = delegated then drop - 1 else drop)

def shorten (delegated : Option Name) (out : Table Name) : Table Name :=
  if maxIPNSFloorNames < out.length then dropOldest delegated out else out

theorem remember_distinct (updated : Floor Name) (distinct : (old.map Floor.name).Nodup) :
    ((remember old updated).map Floor.name).Nodup := by
  refine List.nodup_cons.mpr ⟨?_, distinct.sublist (List.filter_sublist.map _)⟩
  simp

theorem mem_dropOldest {out : Table Name} (distinct : (out.map Floor.name).Nodup)
    (long : 1 < out.length) {name : Name} (isDelegated : delegated = some name)
    (inside : name ∈ out.map Floor.name) : name ∈ (dropOldest delegated out).map Floor.name := by
  obtain ⟨f, member, rfl⟩ := List.mem_map.mp inside
  obtain ⟨j, at_j⟩ := List.getElem?_of_mem member
  refine List.mem_map_of_mem (List.mem_eraseIdx_iff_getElem?.mpr ⟨j, ?_, at_j⟩)
  subst isDelegated
  simp only [Option.isSome_some, true_and]
  split
  · -- The delegated name stands last, so nowhere else.
    rename_i last
    rintro rfl
    have at_j' : (out.map Floor.name)[out.length - 1 - 1]? = some f.name := by simp [at_j]
    have at_last : (out.map Floor.name)[out.length - 1]? = some f.name := by simpa using last
    have same := (List.getElem?_inj (by simp; omega) distinct).mp (at_j'.trans at_last.symm)
    omega
  · rename_i other
    rintro rfl
    exact other (by rw [at_j]; rfl)

/-- An observation that does not lower its own floor keeps the table in order. -/
theorem kept_remember (updated : Floor Name) (bounded : old.length ≤ maxIPNSFloorNames)
    (distinct : (old.map Floor.name).Nodup)
    (above : ∀ f ∈ old, f.name = updated.name → f.seq ≤ updated.seq) :
    Kept old (shorten delegated (remember old updated)) [updated.name] delegated := by
  have named := remember_distinct updated distinct
  have part : (shorten delegated (remember old updated)).Sublist (remember old updated) := by
    unfold shorten
    split
    · exact List.eraseIdx_sublist _ _
    · exact List.Sublist.refl _
  have others (g : Floor Name) (member : g ∈ shorten delegated (remember old updated))
      (other : g.name ≠ updated.name) : g ∈ old := by
    rcases List.mem_cons.mp (part.subset member) with rfl | rest
    · exact absurd rfl other
    · exact (List.mem_filter.mp rest).1
  have length : (remember old updated).length ≤ maxIPNSFloorNames + 1 :=
    Nat.succ_le_succ ((List.length_filter_le _ _).trans bounded)
  refine ⟨fun f inF g inG same => ?_, fun g inG other => others g inG (by simpa using other), ?_,
    named.sublist (part.map _), fun name isDelegated inside => ?_⟩
  · by_cases here : g.name = updated.name
    · obtain rfl : g = updated :=
        List.inj_on_of_nodup_map named (part.subset inG) List.mem_cons_self here
      exact above f inF same
    · have equal := List.inj_on_of_nodup_map distinct inF (others g inG here) same
      exact le_of_eq (congrArg Floor.seq equal)
  · unfold shorten
    split
    · rename_i long
      unfold dropOldest
      rw [List.length_eraseIdx_of_lt (by split <;> omega)]
      omega
    · omega
  · have still : name ∈ (remember old updated).map Floor.name := by
      obtain ⟨f, member, rfl⟩ := List.mem_map.mp inside
      by_cases here : f.name = updated.name
      · exact here ▸ List.mem_cons_self
      · exact List.mem_cons_of_mem _ (List.mem_map_of_mem (List.mem_filter.mpr
          ⟨member, by simpa using here⟩))
    unfold shorten
    split
    · rename_i long
      exact mem_dropOldest named (by unfold maxIPNSFloorNames at long; omega) isDelegated still
    · exact still

end Table

/-! ### The two writers -/

structure Delegation (Name Key : Type) where
  name : Name
  pubkey : Key

structure Slot (Name Key : Type) where
  floors : Option Bytes
  delegation : Option (Delegation Name Key)

variable {Ref Key : Type}

/-- The table of the single-writer state is that of `none`. `Ref` has the refs that
`validateSourceRef` accepts: any other is refused before anything is read for it. -/
structure State (Ref Name Key : Type) where
  slot : Option Ref → Slot Name Key
  legacy : Option Seq
  binding : Ref → Option Key

def State.floorsOf (lib : Names Name) (s : State Ref Name Key) (owner : Option Ref) :
    Except Refusal (Table Name) :=
  match (s.slot owner).floors with
  | none => .ok []
  | some v => decodeIPNSFloors lib v

section Holds
/-- The store has this table for the owner, as it was encoded. -/
structure State.Holds (lib : Names Name) (s : State Ref Name Key) (owner : Option Ref)
    (floors : Table Name) : Prop where
  stored : (s.slot owner).floors = none ∧ floors = [] ∨
    ∃ b, (s.slot owner).floors = some b ∧ encodeIPNSFloors lib floors = .ok b
  distinct : (floors.map Floor.name).Nodup

variable {lib : Names Name} {s s' : State Ref Name Key} {owner : Option Ref}
  {old : Table Name} {observed : List Name} {delegated : Option Name}

theorem State.Holds.reads (holds : s.Holds lib owner old) : s.floorsOf lib owner = .ok old := by
  unfold State.floorsOf
  rcases holds.stored with ⟨absent, rfl⟩ | ⟨b, found, encoded⟩
  · rw [absent]
  · rw [found]
    exact decodeIPNSFloors_encode lib encoded

theorem State.Holds.bounded (holds : s.Holds lib owner old) : old.length ≤ maxIPNSFloorNames := by
  rcases holds.stored with ⟨-, rfl⟩ | ⟨b, -, encoded⟩
  · exact Nat.zero_le _
  · unfold encodeIPNSFloors at encoded
    split at encoded
    · cases encoded
    · rename_i few
      exact Nat.not_lt.mp few

theorem State.Holds.written {new : Table Name} (encoded : encodeIPNSFloors lib new = .ok b)
    (found : (s.slot owner).floors = some b) (kept : Kept old new observed delegated) :
    ∃ new, s.Holds lib owner new ∧ Kept old new observed delegated :=
  ⟨new, ⟨.inr ⟨b, found, encoded⟩, kept.distinct⟩, kept⟩

theorem State.Holds.same (holds : s.Holds lib owner old)
    (same : (s'.slot owner).floors = (s.slot owner).floors) :
    ∃ new, s'.Holds lib owner new ∧ Kept old new observed delegated :=
  ⟨old, ⟨same ▸ holds.stored, holds.distinct⟩, kept_refl holds.bounded holds.distinct⟩

end Holds

def State.delegated (s : State Ref Name Key) (owner : Option Ref) : Option Name :=
  (s.slot owner).delegation.map Delegation.name

def State.sourceDelegation [DecidableEq Key] (s : State Ref Name Key) (ref : Ref) :
    Except Refusal (Option (Delegation Name Key)) :=
  match (s.slot (some ref)).delegation, s.binding ref with
  | none, _ => .ok none
  | some _, none => .error .unbound
  | some d, some key => if d.pubkey = key then .ok (some d) else .error .otherSigner

theorem State.sourceDelegation_ok [DecidableEq Key] {s : State Ref Name Key} {ref : Ref}
    {kept : Option (Delegation Name Key)} (read : s.sourceDelegation ref = .ok kept) :
    kept.map Delegation.name = s.delegated (some ref) := by
  unfold State.sourceDelegation at read
  unfold State.delegated
  split at read
  · rename_i absent
    cases read
    rw [absent]
  · cases read
  · rename_i found _
    split at read
    · cases read
      rw [found]
    · cases read

variable [DecidableEq Name] [DecidableEq Ref]

namespace State
variable (lib : Names Name) (s : State Ref Name Key)

def ipnsFloors : Except Refusal (Table Name) := s.floorsOf lib none

def setIPNSSeq (name : Name) (seq : Seq) (allowLegacy : Bool) :
    Except Refusal (State Ref Name Key) :=
  match s.ipnsFloors lib with
  | .error e => .error e
  | .ok floors =>
    let found := (floors.find? (·.name = name)).map Floor.seq
    let migrated := s.legacy.filter fun _ => found.isNone && allowLegacy
    let cur := found.or migrated
    if cur.any (seq < ·) then .ok s
    else
      let out := remember floors ⟨name, max seq (cur.getD 0)⟩
      (encodeIPNSFloors lib (shorten (s.delegated none) out)).map fun encoded =>
        { s with
          slot := Function.update s.slot none { s.slot none with floors := some encoded }
          legacy := if migrated.isSome then none else s.legacy }

end State

variable {lib : Names Name} {s s' : State Ref Name Key} {old : Table Name} {name : Name}
  {seq : Seq}

theorem le_found (distinct : (old.map Floor.name).Nodup) (migrated : Option Seq) (f : Floor Name)
    (inF : f ∈ old) (named : f.name = name) :
    f.seq ≤ max seq ((((old.find? (·.name = name)).map Floor.seq).or migrated).getD 0) := by
  rcases found : old.find? (·.name = name) with _ | g
  · exact absurd named (by simpa using List.find?_eq_none.mp found f inF)
  · have isName : g.name = name := by simpa using List.find?_some found
    obtain rfl := List.inj_on_of_nodup_map distinct inF (List.mem_of_find?_eq_some found)
      (named.trans isName.symm)
    rw [found]
    exact le_max_right seq f.seq

theorem State.Holds.setIPNSSeq {allowLegacy : Bool} (holds : s.Holds lib none old)
    (ran : s.setIPNSSeq lib name seq allowLegacy = .ok s') :
    ∃ new, s'.Holds lib none new ∧ Kept old new [name] (s.delegated none) := by
  have read : s.ipnsFloors lib = .ok old := holds.reads
  simp only [State.setIPNSSeq, read] at ran
  split at ran
  · cases ran
    exact holds.same rfl
  · obtain ⟨b, encoded, rfl⟩ := map_ok_iff.mp ran
    exact State.Holds.written encoded (by simp)
      (kept_remember _ holds.bounded holds.distinct (le_found holds.distinct _))

theorem State.setIPNSSeq_other {allowLegacy : Bool}
    (ran : s.setIPNSSeq lib name seq allowLegacy = .ok s') (ref : Ref) :
    s'.slot (some ref) = s.slot (some ref) := by
  unfold State.setIPNSSeq at ran
  split at ran
  · cases ran
  · dsimp only at ran
    split at ran
    · cases ran
      rfl
    · obtain ⟨b, -, rfl⟩ := map_ok_iff.mp ran
      simp

/-! ### The sources -/

variable [DecidableEq Key]

structure Observation (Ref Name : Type) where
  ref : Ref
  ipnsName : Name
  ipnsSeq : Seq
  hasIPNSSeq : Bool

namespace State
variable (lib s)

def sourceIPNSFloors (ref : Ref) : Except Refusal (Table Name) := s.floorsOf lib (some ref)

def checkedIPNSName (name : Name) : Except Refusal Bytes :=
  if !lib.defined name then .error .emptyName
  else if lib.parse (lib.text name) = some name then .ok (lib.text name)
  else .error .nonCanonicalName

def stageSourceIPNSSeq (ref : Ref) (name : Name) (seq : Seq) : Except Refusal Bytes := do
  let _ ← checkedIPNSName lib name
  if (s.binding ref).isNone then throw .unbound
  let floors ← s.sourceIPNSFloors lib ref
  let raised := floors.foldl (fun seq f => if f.name = name then max seq f.seq else seq) seq
  let out := remember floors ⟨name, raised⟩
  let kept ← if maxIPNSFloorNames < out.length then s.sourceDelegation ref else pure none
  encodeIPNSFloors lib (shorten (kept.map Delegation.name) out)

/-- The writes of the batch; each is made from the state before it. -/
def stageSourceObservations :
    List Ref → List (Observation Ref Name) → Except Refusal (List (Ref × Bytes))
  | _, [] => .ok []
  | seen, obs :: rest =>
    if !obs.hasIPNSSeq then stageSourceObservations seen rest
    else if obs.ref ∈ seen then .error .repeatedSource
    else do
      let encoded ← s.stageSourceIPNSSeq lib obs.ref obs.ipnsName obs.ipnsSeq
      let more ← stageSourceObservations (obs.ref :: seen) rest
      pure ((obs.ref, encoded) :: more)

/-- A batch has one write for a ref at most. -/
def commit (writes : List (Ref × Bytes)) : State Ref Name Key :=
  { s with slot := fun owner => match owner.bind fun ref => writes.lookup ref with
      | some encoded => { s.slot owner with floors := some encoded }
      | none => s.slot owner }

def delegate (owner : Option Ref) (d : Delegation Name Key) : State Ref Name Key :=
  { s with slot := Function.update s.slot owner { s.slot owner with delegation := some d } }

/-- The delegation of `stageAdmission`. -/
def stageDelegation (d : Delegation Name Key) : Except Refusal (State Ref Name Key) :=
  if lib.Encodable d.name then .ok (s.delegate none d) else .error .unencodableName

def stageSourceDelegation (ref : Ref) (d : Delegation Name Key) :
    Except Refusal (State Ref Name Key) :=
  if s.binding ref = none then .error .unbound
  else if s.binding ref ≠ some d.pubkey then .error .otherSigner
  else if lib.Encodable d.name then .ok (s.delegate (some ref) d)
  else .error .unencodableName

end State

theorem le_raised (name : Name) (floors : Table Name) (seq : Seq) :
    seq ≤ floors.foldl (fun seq f => if f.name = name then max seq f.seq else seq) seq ∧
      ∀ f ∈ floors, f.name = name →
        f.seq ≤ floors.foldl (fun seq f => if f.name = name then max seq f.seq else seq) seq := by
  induction floors generalizing seq with
  | nil => simp
  | cons g rest ih =>
    obtain ⟨first, others⟩ := ih (if g.name = name then max seq g.seq else seq)
    refine ⟨le_trans ?_ first, fun f member named => ?_⟩
    · split <;> simp
    · rcases List.mem_cons.mp member with rfl | later
      · exact le_trans (by simp [named]) first
      · exact others f later named

omit [DecidableEq Ref] in
theorem State.Holds.stageSourceIPNSSeq {ref : Ref} (holds : s.Holds lib (some ref) old)
    (staged : s.stageSourceIPNSSeq lib ref name seq = .ok b) :
    ∃ new, encodeIPNSFloors lib new = .ok b ∧ Kept old new [name] (s.delegated (some ref)) := by
  have read : s.sourceIPNSFloors lib ref = .ok old := holds.reads
  have kept (d : Option Name) : Kept old (shorten d (remember old ⟨name, _⟩)) [name] d :=
    kept_remember _ holds.bounded holds.distinct (le_raised name old seq).2
  simp only [State.stageSourceIPNSSeq, read, bind, Except.bind] at staged
  split at staged
  · cases staged
  · split at staged
    · cases staged
    · split at staged
      · split at staged
        · cases staged
        · rename_i isDelegated
          refine ⟨_, staged, ?_⟩
          rw [State.sourceDelegation_ok isDelegated]
          exact kept _
      · rename_i short
        have whole := kept (s.delegated (some ref))
        rw [shorten, if_neg short] at whole
        refine ⟨_, staged, ?_⟩
        rw [shorten, if_neg short]
        exact whole

variable {observations : List (Observation Ref Name)}

theorem State.staged_lookup {seen : List Ref} {writes : List (Ref × Bytes)} {ref : Ref}
    (staged : s.stageSourceObservations lib seen observations = .ok writes)
    (found : writes.lookup ref = some b) :
    ∃ obs ∈ observations, obs.ref = ref ∧
      s.stageSourceIPNSSeq lib ref obs.ipnsName obs.ipnsSeq = .ok b := by
  induction observations generalizing seen writes with
  | nil =>
    cases staged
    cases found
  | cons obs rest ih =>
    unfold State.stageSourceObservations at staged
    split at staged
    · obtain ⟨other, member, same⟩ := ih staged found
      exact ⟨other, List.mem_cons_of_mem _ member, same⟩
    · split at staged
      · cases staged
      · obtain ⟨encoded, here, staged⟩ := bind_ok_iff.mp staged
        obtain ⟨more, others, done⟩ := bind_ok_iff.mp staged
        cases done
        rw [List.lookup_cons] at found
        split at found
        · rename_i same
          cases found
          obtain rfl : ref = obs.ref := by simpa using same
          exact ⟨obs, List.mem_cons_self, rfl, here⟩
        · obtain ⟨other, member, same⟩ := ih others found
          exact ⟨other, List.mem_cons_of_mem _ member, same⟩

/-! ### Every run -/

inductive Event (Ref Name Key : Type) where
  | setIPNSSeq (name : Name) (seq : Seq) (allowLegacy : Bool)
  | stageSourceObservations (observations : List (Observation Ref Name))
  | stageDelegation (d : Delegation Name Key)
  | stageSourceDelegation (ref : Ref) (d : Delegation Name Key)
  | bind (ref : Ref) (key : Key)
  | restart

/-- The names that the event observes for the owner of a table. -/
def Event.observed (owner : Option Ref) : Event Ref Name Key → List Name
  | .setIPNSSeq name _ _ => if owner = none then [name] else []
  | .stageSourceObservations observations =>
    (observations.filter fun obs => some obs.ref = owner).map Observation.ipnsName
  | _ => []

/-- What is refused changes nothing. -/
def State.step (lib : Names Name) (s : State Ref Name Key) :
    Event Ref Name Key → State Ref Name Key
  | .setIPNSSeq name seq allowLegacy => (s.setIPNSSeq lib name seq allowLegacy).toOption.getD s
  | .stageSourceObservations observations =>
    ((s.stageSourceObservations lib [] observations).map s.commit).toOption.getD s
  | .stageDelegation d => (s.stageDelegation lib d).toOption.getD s
  | .stageSourceDelegation ref d => (s.stageSourceDelegation lib ref d).toOption.getD s
  | .bind ref key => { s with binding := Function.update s.binding ref (some key) }
  | .restart => s

def State.run (lib : Names Name) (s : State Ref Name Key) (events : List (Event Ref Name Key)) :
    State Ref Name Key := events.foldl (State.step lib) s

variable {owner : Option Ref}

theorem State.Holds.commit {writes : List (Ref × Bytes)} (holds : s.Holds lib owner old)
    (staged : s.stageSourceObservations lib [] observations = .ok writes) :
    ∃ new, (s.commit writes).Holds lib owner new ∧
      Kept old new ((Event.stageSourceObservations observations :
        Event Ref Name Key).observed owner) (s.delegated owner) := by
  rcases found : owner.bind fun ref => writes.lookup ref with _ | b
  · exact holds.same (by simp [State.commit, found])
  · obtain ⟨ref, rfl, written⟩ := Option.bind_eq_some_iff.mp found
    obtain ⟨obs, member, rfl, here⟩ := State.staged_lookup staged written
    obtain ⟨new, encoded, kept⟩ := holds.stageSourceIPNSSeq here
    refine State.Holds.written encoded (by simp [State.commit, written])
      (kept.more fun name isName => ?_)
    obtain rfl := List.mem_singleton.mp isName
    exact List.mem_map_of_mem (List.mem_filter.mpr ⟨member, by simp⟩)

theorem State.Holds.step (holds : s.Holds lib owner old) (event : Event Ref Name Key) :
    ∃ new, (s.step lib event).Holds lib owner new ∧
      Kept old new (event.observed owner) (s.delegated owner) := by
  have delegates (at_owner : Option Ref) (d : Delegation Name Key) :
      ((s.delegate at_owner d).slot owner).floors = (s.slot owner).floors := by
    by_cases same : owner = at_owner
    · subst same
      simp [State.delegate]
    · simp [State.delegate, same]
  cases event with
  | setIPNSSeq name seq allowLegacy =>
    dsimp only [State.step]
    rcases ran : s.setIPNSSeq lib name seq allowLegacy with e | s'
    · exact holds.same rfl
    · cases owner with
      | none => exact holds.setIPNSSeq ran
      | some ref => exact holds.same (congrArg Slot.floors (State.setIPNSSeq_other ran ref))
  | stageSourceObservations observations =>
    dsimp only [State.step]
    rcases staged : s.stageSourceObservations lib [] observations with e | writes
    · exact holds.same rfl
    · exact holds.commit staged
  | stageDelegation d =>
    dsimp only [State.step, State.stageDelegation]
    split
    · exact holds.same (delegates none d)
    · exact holds.same rfl
  | stageSourceDelegation ref d =>
    dsimp only [State.step, State.stageSourceDelegation]
    split
    · exact holds.same rfl
    · split
      · exact holds.same rfl
      · split
        · exact holds.same (delegates (some ref) d)
        · exact holds.same rfl
  | bind ref key => exact holds.same rfl
  | restart => exact holds.same rfl

theorem State.Holds.run (holds : s.Holds lib owner old) (events : List (Event Ref Name Key)) :
    ∃ new, (s.run lib events).Holds lib owner new := by
  induction events generalizing s old with
  | nil => exact ⟨old, holds⟩
  | cons event rest ih =>
    obtain ⟨new, after, -⟩ := holds.step event
    exact ih after

/-- In every run from a store whose tables were encoded, each event leaves every table within
its bound and with its delegated name, lowers no floor and changes none but those of the names
it observes; the table that is read is the one that was encoded. -/
theorem floors_kept (lib : Names Name) (start : State Ref Name Key)
    (encoded : ∀ owner, ∃ floors, start.Holds lib owner floors)
    (events : List (Event Ref Name Key)) (event : Event Ref Name Key) (owner : Option Ref) :
    (∃ old new, (start.run lib events).floorsOf lib owner = .ok old ∧
      ((start.run lib events).step lib event).floorsOf lib owner = .ok new ∧
      Kept old new (event.observed owner) ((start.run lib events).delegated owner) ∧
      ∀ b, (((start.run lib events).step lib event).slot owner).floors = some b →
        encodeIPNSFloors lib new = .ok b) ∧
      ∀ floors b, encodeIPNSFloors lib floors = .ok b → decodeIPNSFloors lib b = .ok floors := by
  obtain ⟨floors, holds⟩ := encoded owner
  obtain ⟨old, before⟩ := holds.run events
  obtain ⟨new, after, kept⟩ := before.step event
  refine ⟨⟨old, new, before.reads, after.reads, kept, fun b found => ?_⟩,
    fun _ _ => decodeIPNSFloors_encode lib⟩
  rcases after.stored with ⟨absent, -⟩ | ⟨b', found', encodes⟩
  · cases found.symm.trans absent
  · cases found.symm.trans found'
    exact encodes

def plainNames : Names Bytes := ⟨id, some, fun _ => true, fun _ => rfl⟩

def freshState : State Bytes Bytes Bytes := ⟨fun _ => ⟨none, none⟩, none, fun _ => none⟩

/-- A second name is observed after a first one. -/
theorem floors_kept_fresh : ∃ old new,
    (freshState.run plainNames [.setIPNSSeq [1] 5 false]).floorsOf plainNames none = .ok old ∧
    ((freshState.run plainNames [.setIPNSSeq [1] 5 false]).step plainNames
      (.setIPNSSeq [2] 3 false)).floorsOf plainNames none = .ok new ∧
    Kept old new [[2]] none := by
  obtain ⟨⟨old, new, before, after, kept, -⟩, -⟩ := floors_kept plainNames freshState
    (fun _ => ⟨[], .inl ⟨rfl, rfl⟩, List.nodup_nil⟩) [.setIPNSSeq [1] 5 false]
    (.setIPNSSeq [2] 3 false) none
  exact ⟨old, new, before, after, kept⟩

end Bloar.Floors
