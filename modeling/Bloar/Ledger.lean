import Bloar.ByteStore

/-!
The pin ledger of package catalog: rows in a store that other parts of the node write to as
well, under keys that start with another byte. Heads and purposes end in a NUL byte, which
neither may contain, so that a row's key says whose it is.
-/

namespace Bloar.Catalog
open ByteStore

/-- What the ledger uses of the CID library. -/
structure CidBytes (Cid : Type) where
  bytes : Cid → Bytes
  cast : Bytes → Option Cid
  cast_bytes : ∀ c, cast (bytes c) = some c

/-- A `time.Time`: its Unix second, an `int64`, and the nanoseconds after it. -/
structure Time where
  unix : BitVec 64
  nanos : Nat
deriving DecidableEq

def Time.zero : Time := ⟨-62135596800, 0⟩

def Time.truncate (t : Time) : Time := { t with nanos := 0 }

/-- An undefined CID is `none`. -/
structure PinEntry (Cid : Type) where
  purpose : Bytes
  cid : Option Cid
  recursive : Bool
  expiry : Time

inductive NameKind where
  | head
  | purpose

inductive Refusal where
  | emptyName (kind : NameKind)
  | nulInName (kind : NameKind) (name : Bytes)
  | pinsUndefined (head purpose : Bytes)
  | unpinsUndefined (head purpose : Bytes)
  | noTerminator (key : Bytes)
  | undecodableCID (key : Bytes)
  | shortValue (key : Bytes) (length : Nat)

/-! ### Rows -/

def flagRecursive : Byte := 1
def flagExpires : Byte := 2
def expirySize : Nat := 8

def encodePinValue (recursive : Bool) (expiry : Time) : Bytes :=
  let flags : Byte := if recursive then flagRecursive else 0
  if expiry = .zero then [flags]
  else (flags ||| flagExpires) :: bigEndianBytes expirySize expiry.unix.toNat

/-- The error is the length of a value that is too short for its expiry. -/
def decodePinValue : Bytes → Except Nat (Bool × Time)
  | [] => .ok (false, .zero)
  | flags :: rest =>
    let recursive := flags &&& flagRecursive ≠ 0
    if flags &&& flagExpires = 0 then .ok (recursive, .zero)
    else if rest.length < expirySize then .error (rest.length + 1)
    else .ok (recursive, ⟨BitVec.ofNat 64 (bigEndianValue (rest.take expirySize)), 0⟩)

theorem decodePinValue_encode (recursive : Bool) (expiry : Time) :
    decodePinValue (encodePinValue recursive expiry) = .ok (recursive, expiry.truncate) := by
  unfold encodePinValue
  by_cases never : expiry = .zero
  · subst never
    cases recursive <;> decide
  · have second : BitVec.ofNat 64 (bigEndianValue (bigEndianBytes expirySize expiry.unix.toNat)) =
        expiry.unix := by
      rw [bigEndianValue_bytes, Nat.mod_eq_of_lt (by exact expiry.unix.isLt)]
      exact BitVec.ofNat_toNat 64 expiry.unix
    have whole : (bigEndianBytes expirySize expiry.unix.toNat).take expirySize =
        bigEndianBytes expirySize expiry.unix.toNat := List.take_of_length_le (by simp)
    have expires (flags : Byte) (set : flags &&& flagExpires ≠ 0) :
        decodePinValue (flags :: bigEndianBytes expirySize expiry.unix.toNat) =
          .ok (flags &&& flagRecursive ≠ 0, expiry.truncate) := by
      simp [decodePinValue, set, whole, second, Time.truncate]
    dsimp only
    rw [if_neg never]
    cases recursive with
    | true | false => exact expires _ (by decide)

def nameSep : Byte := 0

def Named (name : Bytes) : Prop := name ≠ [] ∧ nameSep ∉ name

instance (name : Bytes) : Decidable (Named name) := by unfold Named; infer_instance

abbrev Name := { name : Bytes // Named name }

def checkName (kind : NameKind) (name : Bytes) : Except Refusal Unit :=
  if name = [] then .error (.emptyName kind)
  else if nameSep ∈ name then .error (.nulInName kind name)
  else .ok ()

theorem checkName_named {kind : NameKind} {name : Bytes} (named : Named name) :
    checkName kind name = .ok () := by
  simp [checkName, named.1, named.2]

theorem checkName_cases (kind : NameKind) (name : Bytes) :
    checkName kind name = .ok () ∧ Named name ∨
      (∃ e, checkName kind name = .error e) ∧ ¬ Named name := by
  by_cases named : Named name
  · exact .inl ⟨checkName_named named, named⟩
  · refine .inr ⟨?_, named⟩
    unfold checkName
    split
    · exact ⟨_, rfl⟩
    · rename_i filled
      split
      · exact ⟨_, rfl⟩
      · rename_i plain
        exact absurd ⟨filled, plain⟩ named

def prefixLedger : Byte := 112

def headPrefix (head : Bytes) : Bytes := prefixLedger :: (head ++ [nameSep])

def purposePrefix (head purpose : Bytes) : Bytes :=
  headPrefix head ++ (purpose ++ [nameSep])

section
variable {Cid : Type} (lib : CidBytes Cid)

def ledgerKey (head purpose : Bytes) (c : Cid) : Bytes :=
  purposePrefix head purpose ++ lib.bytes c

def decodePin (key val : Bytes) (purposeAt : Nat) : Except Refusal (PinEntry Cid) :=
  let rest := key.drop purposeAt
  match rest.findIdx? (· = nameSep) with
  | none => .error (.noTerminator key)
  | some sep =>
    match lib.cast (rest.drop (sep + 1)) with
    | none => .error (.undecodableCID key)
    | some c =>
      match decodePinValue val with
      | .error length => .error (.shortValue key length)
      | .ok (recursive, expiry) => .ok ⟨rest.take sep, some c, recursive, expiry⟩

/-! ### Calls -/

abbrev KV := OrderedStore Bytes Bytes

/-- The loop over the pins of a batch; `value` is what is written, nothing for a removal. -/
def stage (undefined : Bytes → Bytes → Refusal)
    (value : PinEntry Cid → Option (Bool × Time)) (head : Bytes) :
    List (PinEntry Cid) → Except Refusal (List (Bytes × Option Bytes))
  | [] => .ok []
  | p :: rest =>
    match checkName .purpose p.purpose, p.cid with
    | .error e, _ => .error e
    | .ok (), none => .error (undefined head p.purpose)
    | .ok (), some c =>
      (stage undefined value head rest).map fun staged =>
        (ledgerKey lib head p.purpose c, (value p).map fun v => encodePinValue v.1 v.2) :: staged

def writeAll (undefined : Bytes → Bytes → Refusal)
    (value : PinEntry Cid → Option (Bool × Time)) (kv : KV) (head : Bytes)
    (pins : List (PinEntry Cid)) : Except Refusal KV :=
  match checkName .head head with
  | .error e => .error e
  | .ok () => (stage lib undefined value head pins).map kv.commit

def written (p : PinEntry Cid) : Option (Bool × Time) := some (p.recursive, p.expiry)

def addExpiring (kv : KV) (head purpose : Bytes) (c : Option Cid) (recursive : Bool)
    (expiry : Time) : Except Refusal KV :=
  writeAll lib .pinsUndefined written kv head [⟨purpose, c, recursive, expiry⟩]

def add (kv : KV) (head purpose : Bytes) (c : Option Cid) (recursive : Bool) :
    Except Refusal KV := addExpiring lib kv head purpose c recursive .zero

def addBatch (kv : KV) (head : Bytes) (pins : List (PinEntry Cid)) : Except Refusal KV :=
  if pins.isEmpty then .ok kv else writeAll lib .pinsUndefined written kv head pins

def remove (kv : KV) (head purpose : Bytes) (c : Option Cid) : Except Refusal KV :=
  writeAll lib .unpinsUndefined (fun _ => none) kv head [⟨purpose, c, false, .zero⟩]

def removeBatch (kv : KV) (head : Bytes) (pins : List (PinEntry Cid)) : Except Refusal KV :=
  if pins.isEmpty then .ok kv else writeAll lib .unpinsUndefined (fun _ => none) kv head pins

def decodeRows (purposeAt : Nat) : List (Bytes × Bytes) → Except Refusal (List (PinEntry Cid))
  | [] => .ok []
  | row :: rest =>
    match decodePin lib row.1 row.2 purposeAt with
    | .error e => .error e
    | .ok e => (decodeRows purposeAt rest).map (e :: ·)

def scan (kv : KV) (start : Bytes) (purposeAt : Nat) : Except Refusal (List (PinEntry Cid)) :=
  decodeRows lib purposeAt (kv.scan start (upperBound start))

def list (kv : KV) (head purpose : Bytes) : Except Refusal (List (PinEntry Cid)) :=
  match checkName .head head with
  | .error e => .error e
  | .ok () =>
    match checkName .purpose purpose with
    | .error e => .error e
    | .ok () => scan lib kv (purposePrefix head purpose) (headPrefix head).length

def listAll (kv : KV) (head : Bytes) : Except Refusal (List (PinEntry Cid)) :=
  match checkName .head head with
  | .error e => .error e
  | .ok () => scan lib kv (headPrefix head) (headPrefix head).length

end

/-- A call, or a write of another part of the node, whose keys start with another byte. -/
inductive Call (Cid : Type) where
  | add (head purpose : Bytes) (c : Option Cid) (recursive : Bool)
  | addExpiring (head purpose : Bytes) (c : Option Cid) (recursive : Bool) (expiry : Time)
  | addBatch (head : Bytes) (pins : List (PinEntry Cid))
  | remove (head purpose : Bytes) (c : Option Cid)
  | removeBatch (head : Bytes) (pins : List (PinEntry Cid))
  | outside (family : Byte) (other : family ≠ prefixLedger) (key : Bytes)
      (value : Option Bytes)

def Call.run {Cid : Type} (lib : CidBytes Cid) (kv : KV) : Call Cid → Except Refusal KV
  | .add head purpose c recursive => Catalog.add lib kv head purpose c recursive
  | .addExpiring head purpose c recursive expiry =>
    Catalog.addExpiring lib kv head purpose c recursive expiry
  | .addBatch head pins => Catalog.addBatch lib kv head pins
  | .remove head purpose c => Catalog.remove lib kv head purpose c
  | .removeBatch head pins => Catalog.removeBatch lib kv head pins
  | .outside family _ key value => .ok (kv.write (family :: key, value))

def runAll {Cid : Type} (lib : CidBytes Cid) (calls : List (Call Cid)) : KV :=
  calls.foldl (fun kv call => (call.run lib kv).toOption.getD kv) ⟨[], .nil⟩

/-! ### The map -/

section
variable {Cid : Type} [DecidableEq Cid]

/-- What each head has last recorded for a CID under a purpose. -/
abbrev Pins (Cid : Type) := Bytes → Bytes → Cid → Option (Bool × Time)

def Pins.put (head : Bytes) (value : PinEntry Cid → Option (Bool × Time)) (m : Pins Cid)
    (p : PinEntry Cid) : Pins Cid :=
  fun h q c => if h = head ∧ q = p.purpose ∧ some c = p.cid then value p else m h q c

def PinEntry.Storable (p : PinEntry Cid) : Prop := Named p.purpose ∧ p.cid.isSome

instance (p : PinEntry Cid) : Decidable p.Storable := by
  unfold PinEntry.Storable; infer_instance

def Pins.putAll (m : Pins Cid) (head : Bytes) (value : PinEntry Cid → Option (Bool × Time))
    (pins : List (PinEntry Cid)) : Pins Cid :=
  if Named head ∧ ∀ p ∈ pins, p.Storable then pins.foldl (Pins.put head value) m else m

def Pins.after (m : Pins Cid) : Call Cid → Pins Cid
  | .add head purpose c recursive => m.putAll head written [⟨purpose, c, recursive, .zero⟩]
  | .addExpiring head purpose c recursive expiry =>
    m.putAll head written [⟨purpose, c, recursive, expiry⟩]
  | .addBatch head pins => m.putAll head written pins
  | .remove head purpose c => m.putAll head (fun _ => none) [⟨purpose, c, false, .zero⟩]
  | .removeBatch head pins => m.putAll head (fun _ => none) pins
  | .outside _ _ _ _ => m

end

section
variable {Cid : Type} (lib : CidBytes Cid) (head q : Name) (c : Cid) (pin : Bool × Time)

def rowOf : Bytes × Bytes := (ledgerKey lib head q c, encodePinValue pin.1 pin.2)

def entryOf : PinEntry Cid := ⟨q, some c, pin.1, pin.2.truncate⟩

/-- These are the pins of the head with such a purpose, in the order of their keys. -/
structure Lists (m : Pins Cid) (chosen : Name → Prop) (entries : List (PinEntry Cid)) : Prop where
  exact : ∀ e, e ∈ entries ↔ ∃ q c pin, chosen q ∧ m head q c = some pin ∧ e = entryOf q c pin
  ordered : entries.Pairwise fun a b => ∀ c ∈ a.cid, ∀ d ∈ b.cid,
    ledgerKey lib head a.purpose c < ledgerKey lib head b.purpose d

end

/-! ### Keys -/

section
variable {Cid : Type} {lib : CidBytes Cid} {kv : KV} {m : Pins Cid}

theorem ledgerKey_eq (head purpose : Bytes) (c : Cid) :
    ledgerKey lib head purpose c =
      prefixLedger :: (head ++ nameSep :: (purpose ++ nameSep :: lib.bytes c)) := by
  simp [ledgerKey, purposePrefix, headPrefix]

theorem ledgerKey_injective :
    Function.Injective fun key : Name × Name × Cid => ledgerKey lib key.1 key.2.1 key.2.2 := by
  rintro ⟨h, q, c⟩ ⟨h', q', c'⟩ same
  simp only [ledgerKey_eq, List.cons.injEq, true_and] at same
  obtain ⟨heads, rest⟩ := append_separator_inj h.2.2 h'.2.2 same
  obtain ⟨purposes, bytes⟩ := append_separator_inj q.2.2 q'.2.2 rest
  have cids := congrArg lib.cast bytes
  rw [lib.cast_bytes, lib.cast_bytes] at cids
  rw [Subtype.ext heads, Subtype.ext purposes, Option.some.inj cids]

theorem headPrefix_selects {head h q : Name} {c : Cid} :
    headPrefix head <+: ledgerKey lib h q c ↔ h = head ∧ True := by
  constructor
  · rintro ⟨tail, same⟩
    simp only [ledgerKey_eq, headPrefix, List.cons_append, List.append_assoc, List.nil_append,
      List.cons.injEq, true_and] at same
    exact ⟨Subtype.ext (append_separator_inj head.2.2 h.2.2 same).1.symm, trivial⟩
  · rintro ⟨rfl, -⟩
    rw [ledgerKey, purposePrefix, List.append_assoc]
    exact List.prefix_append ..

theorem purposePrefix_selects {head purpose h q : Name} {c : Cid} :
    purposePrefix head purpose <+: ledgerKey lib h q c ↔ h = head ∧ q = purpose := by
  constructor
  · rintro ⟨tail, same⟩
    simp only [ledgerKey_eq, purposePrefix, headPrefix, List.cons_append, List.append_assoc,
      List.nil_append, List.cons.injEq, true_and] at same
    obtain ⟨heads, rest⟩ := append_separator_inj head.2.2 h.2.2 same
    exact ⟨Subtype.ext heads.symm, Subtype.ext (append_separator_inj purpose.2.2 q.2.2 rest).1.symm⟩
  · rintro ⟨rfl, rfl⟩
    exact List.prefix_append ..

theorem decodePin_rowOf (head q : Name) (c : Cid) (pin : Bool × Time) :
    decodePin lib (rowOf lib head q c pin).1 (rowOf lib head q c pin).2 (headPrefix head).length =
      .ok (entryOf q c pin) := by
  have rest : (ledgerKey lib head q c).drop (headPrefix head).length =
      q.val ++ nameSep :: lib.bytes c := by
    rw [ledgerKey, purposePrefix, List.append_assoc, List.drop_left]
    simp
  have sep : (q.val ++ nameSep :: lib.bytes c).findIdx? (· = nameSep) = some q.val.length := by
    have plain : q.val.findIdx? (· = nameSep) = none := by
      rw [List.findIdx?_eq_none_iff]
      intro b member
      have other : b ≠ nameSep := fun isSep => q.2.2 (isSep ▸ member)
      simpa using other
    simp [List.findIdx?_append, plain, List.findIdx?_cons]
  have after : (q.val ++ nameSep :: lib.bytes c).drop (q.val.length + 1) = lib.bytes c := by
    rw [List.drop_length_add_append]
    rfl
  simp [decodePin, rowOf, entryOf, rest, sep, after, lib.cast_bytes, decodePinValue_encode]

/-- A row says what it is the row of, up to the part of a second. -/
theorem rowOf_inj {h h' q q' : Name} {c c' : Cid} {pin pin' : Bool × Time}
    (same : rowOf lib h q c pin = rowOf lib h' q' c' pin') :
    h = h' ∧ q = q' ∧ c = c' ∧ entryOf q c pin = entryOf q' c' pin' := by
  have keys := @ledgerKey_injective Cid lib (h, q, c) (h', q', c') (congrArg Prod.fst same)
  simp only [Prod.mk.injEq] at keys
  obtain ⟨rfl, rfl, rfl⟩ := keys
  have decoded := @decodePin_rowOf Cid lib h q c pin
  rw [same, decodePin_rowOf] at decoded
  exact ⟨rfl, rfl, rfl, (Except.ok.inj decoded).symm⟩

/-! ### The store holds the map -/

/-- The ledger's part of the store is the map, row by row. -/
def Holds (lib : CidBytes Cid) (kv : KV) (m : Pins Cid) : Prop :=
  ∀ row, row.1.head? = some prefixLedger →
    (row ∈ kv.rows ↔ ∃ h q c pin, m (Subtype.val h) (Subtype.val q) c = some pin ∧
      row = rowOf lib h q c pin)

theorem Holds.outside (holds : Holds lib kv m) {family : Byte} (other : family ≠ prefixLedger)
    (key : Bytes) (value : Option Bytes) :
    Holds lib (kv.write (family :: key, value)) m := by
  intro row ledger
  have apart : row.1 ≠ family :: key := by
    intro same
    rw [same] at ledger
    exact other (Option.some.inj ledger)
  rw [OrderedStore.mem_write, if_neg apart]
  exact holds row ledger

theorem decodeRows_ok (head : Name) {rows : List (Bytes × Bytes)}
    (ascending : rows.Pairwise fun a b => a.1 < b.1)
    (shaped : ∀ row ∈ rows, ∃ q c pin, row = rowOf lib head q c pin) :
    ∃ entries, decodeRows lib (headPrefix head).length rows = .ok entries ∧
      (∀ e, e ∈ entries ↔ ∃ q c pin, rowOf lib head q c pin ∈ rows ∧ e = entryOf q c pin) ∧
      entries.Pairwise fun a b => ∀ c ∈ a.cid, ∀ d ∈ b.cid,
        ledgerKey lib head a.purpose c < ledgerKey lib head b.purpose d := by
  induction rows with
  | nil => exact ⟨[], rfl, by simp, .nil⟩
  | cons row rest ih =>
    rw [List.pairwise_cons] at ascending
    rw [List.forall_mem_cons] at shaped
    obtain ⟨⟨q, c, pin, rfl⟩, others⟩ := shaped
    obtain ⟨entries, decoded, exact, ordered⟩ := ih ascending.2 others
    refine ⟨entryOf q c pin :: entries, ?_, fun e => ?_, ?_⟩
    · rw [decodeRows, decodePin_rowOf, decoded]
      rfl
    · rw [List.mem_cons, exact]
      constructor
      · rintro (rfl | ⟨q', c', pin', member, rfl⟩)
        · exact ⟨q, c, pin, List.mem_cons_self, rfl⟩
        · exact ⟨q', c', pin', List.mem_cons_of_mem _ member, rfl⟩
      · rintro ⟨q', c', pin', member, rfl⟩
        rcases List.mem_cons.mp member with same | later
        · exact .inl (rowOf_inj same).2.2.2
        · exact .inr ⟨q', c', pin', later, rfl⟩
    · refine List.pairwise_cons.mpr ⟨fun e member => ?_, ordered⟩
      obtain ⟨q', c', pin', later, rfl⟩ := (exact e).mp member
      rintro _ ⟨⟩ _ ⟨⟩
      exact ascending.1 _ later

theorem Holds.scan (holds : Holds lib kv m) {head : Name} {start : Bytes} {chosen : Name → Prop}
    (ledger : start.head? = some prefixLedger)
    (selects : ∀ {h q : Name} {c : Cid}, start <+: ledgerKey lib h q c ↔ h = head ∧ chosen q) :
    ∃ entries, Catalog.scan lib kv start (headPrefix head).length = .ok entries ∧
      Lists lib head m chosen entries := by
  have rows (row : Bytes × Bytes) : row ∈ kv.scan start (upperBound start) ↔
      ∃ q c pin, chosen q ∧ m head q c = some pin ∧ row = rowOf lib head q c pin := by
    rw [OrderedStore.mem_scan, between_upperBound_iff]
    constructor
    · rintro ⟨member, within⟩
      have ours : row.1.head? = some prefixLedger := by
        obtain ⟨tail, split⟩ := within
        rw [← split, List.head?_append, ledger]
        rfl
      obtain ⟨h, q, c, pin, known, rfl⟩ := (holds row ours).mp member
      obtain ⟨rfl, picked⟩ := selects.mp within
      exact ⟨q, c, pin, picked, known, rfl⟩
    · rintro ⟨q, c, pin, picked, known, rfl⟩
      refine ⟨(holds _ ?_).mpr ⟨head, q, c, pin, known, rfl⟩, selects.mpr ⟨rfl, picked⟩⟩
      simp [rowOf, ledgerKey_eq]
  obtain ⟨entries, decoded, exact, ordered⟩ := decodeRows_ok head
    (kv.ascending.filter fun row => Between start (upperBound start) row.1) fun row member => by
      obtain ⟨q, c, pin, -, -, shape⟩ := (rows row).mp member
      exact ⟨q, c, pin, shape⟩
  refine ⟨entries, decoded, fun e => ?_, ordered⟩
  rw [exact]
  constructor
  · rintro ⟨q, c, pin, member, rfl⟩
    obtain ⟨q', c', pin', picked, known, same⟩ := (rows _).mp member
    exact ⟨q', c', pin', picked, known, (rowOf_inj same).2.2.2⟩
  · rintro ⟨q, c, pin, picked, known, rfl⟩
    exact ⟨q, c, pin, (rows _).mpr ⟨q, c, pin, picked, known, rfl⟩, rfl⟩

end

/-! ### Runs -/

section
variable {Cid : Type} [DecidableEq Cid] {lib : CidBytes Cid} {kv : KV} {m : Pins Cid}
  {undefined : Bytes → Bytes → Refusal} {value : PinEntry Cid → Option (Bool × Time)}

theorem Holds.put (holds : Holds lib kv m) (head : Name) {p : PinEntry Cid} {c : Cid}
    (named : Named p.purpose) (defined : p.cid = some c) :
    Holds lib (kv.write (ledgerKey lib head p.purpose c,
      (value p).map fun v => encodePinValue v.1 v.2)) (Pins.put head value m p) := by
  intro row ledger
  rw [OrderedStore.mem_write]
  let purpose : Name := ⟨p.purpose, named⟩
  have here : Pins.put head value m p head purpose c = value p := by simp [Pins.put, purpose, defined]
  have there {h q : Name} {d : Cid} (other : ledgerKey lib h q d ≠ ledgerKey lib head purpose c) :
      Pins.put head value m p h q d = m h q d := by
    refine if_neg fun ⟨heads, purposes, cids⟩ => other ?_
    rw [heads, purposes, Option.some.inj (cids.trans defined)]
  split
  · rename_i at_key
    rw [Option.map_eq_some_iff]
    constructor
    · rintro ⟨pin, stored, written⟩
      exact ⟨head, purpose, c, pin, here.trans stored, Prod.ext at_key written.symm⟩
    · rintro ⟨h, q, d, pin, known, rfl⟩
      have same := @ledgerKey_injective Cid lib (h, q, d) (head, purpose, c) at_key
      simp only [Prod.mk.injEq] at same
      obtain ⟨rfl, rfl, rfl⟩ := same
      exact ⟨pin, here.symm.trans known, rfl⟩
  · rename_i elsewhere
    rw [holds row ledger]
    constructor
    · rintro ⟨h, q, d, pin, known, rfl⟩
      exact ⟨h, q, d, pin, (there elsewhere).trans known, rfl⟩
    · rintro ⟨h, q, d, pin, known, rfl⟩
      exact ⟨h, q, d, pin, (there elsewhere).symm.trans known, rfl⟩

theorem stage_spec (head : Name) (pins : List (PinEntry Cid)) :
    (∃ e, stage lib undefined value head pins = .error e) ∧ ¬ (∀ p ∈ pins, p.Storable) ∨
    ∃ staged, stage lib undefined value head pins = .ok staged ∧ (∀ p ∈ pins, p.Storable) ∧
      ∀ kv m, Holds lib kv m → Holds lib (kv.commit staged) (pins.foldl (Pins.put head value) m) := by
  induction pins with
  | nil => exact .inr ⟨[], rfl, by simp, fun _ _ holds => holds⟩
  | cons p rest ih =>
    simp only [List.forall_mem_cons]
    rcases checkName_cases .purpose p.purpose with ⟨passes, named⟩ | ⟨⟨e, fails⟩, unnamed⟩
    · cases defined : p.cid with
      | none =>
        refine .inl ⟨⟨_, by simp only [stage, passes, defined]; rfl⟩, fun storable => ?_⟩
        simpa [defined] using storable.1.2
      | some c =>
        rcases ih with ⟨⟨e, fails⟩, bad⟩ | ⟨staged, passed, storable, commits⟩
        · exact .inl ⟨⟨e, by simp [stage, passes, defined, fails, Except.map]⟩,
            fun storable => bad storable.2⟩
        · refine .inr ⟨_, by simp only [stage, passes, defined, passed, Except.map]; rfl,
            ⟨⟨named, by simp [defined]⟩, storable⟩, fun kv m holds => ?_⟩
          exact commits _ _ (holds.put head named defined)
    · exact .inl ⟨⟨e, by simp [stage, fails]⟩, fun storable => unnamed storable.1.1⟩

theorem Holds.writeAll (holds : Holds lib kv m) (head : Bytes) (pins : List (PinEntry Cid)) :
    Holds lib ((Catalog.writeAll lib undefined value kv head pins).toOption.getD kv)
      (m.putAll head value pins) := by
  unfold Catalog.writeAll Pins.putAll
  rcases checkName_cases .head head with ⟨passes, named⟩ | ⟨⟨e, fails⟩, unnamed⟩
  · rw [passes]
    rcases @stage_spec Cid _ lib undefined value ⟨head, named⟩ pins with
      ⟨⟨e, refused⟩, bad⟩ | ⟨staged, accepted, storable, commits⟩
    · dsimp only at refused ⊢
      rw [refused, if_neg fun good => bad good.2]
      exact holds
    · dsimp only at accepted ⊢
      rw [accepted, if_pos ⟨named, storable⟩]
      exact commits kv m holds
  · rw [fails, if_neg fun good => unnamed good.1]
    exact holds

theorem Holds.call (holds : Holds lib kv m) (call : Call Cid) :
    Holds lib ((call.run lib kv).toOption.getD kv) (m.after call) := by
  have batch (undefined : Bytes → Bytes → Refusal)
      (value : PinEntry Cid → Option (Bool × Time)) (head : Bytes) (pins : List (PinEntry Cid)) :
      Holds lib ((if pins.isEmpty then .ok kv
        else Catalog.writeAll lib undefined value kv head pins : Except Refusal KV).toOption.getD kv)
        (m.putAll head value pins) := by
    split
    · rename_i none
      rw [List.isEmpty_iff.mp none, Pins.putAll, List.foldl_nil, ite_self]
      exact holds
    · exact holds.writeAll head pins
  cases call with
  | add | addExpiring | remove => exact holds.writeAll _ _
  | addBatch | removeBatch => exact batch _ _ _ _
  | outside family other key value => exact holds.outside other key value

theorem runAll_holds (calls : List (Call Cid)) :
    Holds lib (runAll lib calls) (calls.foldl Pins.after fun _ _ _ => none) := by
  have go {kv : KV} {m : Pins Cid} (holds : Holds lib kv m) :
      Holds lib (calls.foldl (fun kv call => (call.run lib kv).toOption.getD kv) kv)
        (calls.foldl Pins.after m) := by
    induction calls generalizing kv m with
    | nil => exact holds
    | cons call rest ih => exact ih (holds.call call)
  exact go fun row _ => by simp

end

end Bloar.Catalog
