import Bloar.Ipld

/-!
DAG-CBOR: an instance of the abstract codec with the byte counts of the real one.
Integers, lengths and tags have the shortest head, a link is tag 42 over the
binary CID, a map keeps the order it is given in. The reader takes fuel, and the
number of octets of a block is enough for it.
-/

namespace Bloar.DagCbor
open Ipld

def byte (n : Nat) : Octet := .byte (UInt8.ofNat n)

def bigEndian : Nat → Nat → Block
  | 0, _ => []
  | count + 1, value => byte (value / 256 ^ count % 256) :: bigEndian count value

def head (major argument : Nat) : Block :=
  if argument < 24 then [byte (major * 32 + argument)]
  else if argument < 2 ^ 8 then byte (major * 32 + 24) :: bigEndian 1 argument
  else if argument < 2 ^ 16 then byte (major * 32 + 25) :: bigEndian 2 argument
  else if argument < 2 ^ 32 then byte (major * 32 + 26) :: bigEndian 4 argument
  else byte (major * 32 + 27) :: bigEndian 8 argument

/-- An unsigned varint: seven bits a byte, least significant first. A number is
its own bound on how many are needed. -/
def uvarint (n : Nat) : Block := go n n
where
  go : Nat → Nat → Block
    | 0, n => [byte n]
    | bound + 1, n => if n < 128 then [byte n] else byte (n % 128 + 128) :: go bound (n / 128)

def cidBytes (c : Cid) : Block :=
  byte 0 :: (uvarint c.version ++ uvarint c.codec ++ uvarint c.hash.code ++ uvarint c.hash.length ++
    [.digest c.hash.length c.hash.digest])

def text (s : String) : Block :=
  head 3 s.toByteArray.size ++ s.toByteArray.data.toList.map .byte

def encode : Node → Block
  | .null => head 7 22
  | .bool false => head 7 20
  | .bool true => head 7 21
  | .int (.ofNat n) => head 0 n
  | .int (.negSucc n) => head 1 n
  | .float bits => byte 0xfb :: bigEndian 8 bits.toNat
  | .string s => text s
  | .bytes bs => head 2 bs.length ++ bs.map .byte
  | .list items => head 4 items.length ++ encodeItems items
  | .map fields => head 5 fields.length ++ encodeFields fields
  | .link c => head 6 42 ++ head 2 (size (cidBytes c)) ++ cidBytes c
where
  encodeItems : List Node → Block
    | [] => []
    | item :: rest => encode item ++ encodeItems rest
  encodeFields : List (String × Node) → Block
    | [] => []
    | field :: rest => encodeField field ++ encodeFields rest
  encodeField : String × Node → Block
    | (key, value) => text key ++ encode value

/-! ### Reading -/

def readBig : Nat → Nat → Block → Option (Nat × Block)
  | 0, read, rest => some (read, rest)
  | count + 1, read, .byte b :: rest => readBig count (read * 256 + b.toNat) rest
  | _ + 1, _, _ => none

def readHead : Block → Option (Nat × Nat × Block)
  | .byte b :: rest =>
    let major := b.toNat / 32
    let info := b.toNat % 32
    let wide := fun count => (readBig count 0 rest).map fun read => (major, read)
    if info < 24 then some (major, info, rest)
    else if info = 24 then wide 1
    else if info = 25 then wide 2
    else if info = 26 then wide 4
    else if info = 27 then wide 8
    else none
  | _ => none

def readVarint : Block → Option (Nat × Block)
  | .byte b :: rest =>
    if b.toNat < 128 then some (b.toNat, rest)
    else (readVarint rest).map fun (high, rest) => (b.toNat - 128 + 128 * high, rest)
  | _ => none

def readBytes : Nat → Block → Option (Bytes × Block)
  | 0, rest => some ([], rest)
  | count + 1, .byte b :: rest => (readBytes count rest).map fun (bs, rest) => (b :: bs, rest)
  | _ + 1, _ => none

def readCid (block : Block) : Option (Cid × Block) := do
  let (_, block) ← readBytes 1 block
  let (version, block) ← readVarint block
  let (codec, block) ← readVarint block
  let (code, block) ← readVarint block
  let (length, block) ← readVarint block
  match block with
  | .digest _ digest :: rest => some ({ version, codec, hash := { code, length, digest } }, rest)
  | _ => none

def readUtf8 (count : Nat) (block : Block) : Option (String × Block) := do
  let (bs, rest) ← readBytes count block
  let s ← String.fromUTF8? ⟨bs.toArray⟩
  some (s, rest)

def readText (block : Block) : Option (String × Block) := do
  let (major, count, block) ← readHead block
  if major = 3 then readUtf8 count block else none

variable {α : Type} {n : Nat} {x y : List Nat}

def readMany (read : Block → Option (α × Block)) : Nat → Block → Option (List α × Block)
  | 0, rest => some ([], rest)
  | count + 1, block => do
      let (item, block) ← read block
      let (items, rest) ← readMany read count block
      some (item :: items, rest)

def simpleValue : Nat → Option Node
  | 20 => some (.bool false)
  | 21 => some (.bool true)
  | 22 => some .null
  | _ => none

def readField (read : Block → Option (Node × Block)) (block : Block) :
    Option ((String × Node) × Block) := do
  let (key, block) ← readText block
  let (value, rest) ← read block
  some ((key, value), rest)

def readNode : Nat → Block → Option (Node × Block)
  | 0, _ => none
  | fuel + 1, block => do
      let (major, argument, rest) ← readHead block
      match major with
      | 0 => some (.int argument, rest)
      | 1 => some (.int (.negSucc argument), rest)
      | 2 => do
          let (bs, rest) ← readBytes argument rest
          some (.bytes bs, rest)
      | 3 => do
          let (s, rest) ← readUtf8 argument rest
          some (.string s, rest)
      | 4 => do
          let (items, rest) ← readMany (readNode fuel) argument rest
          some (.list items, rest)
      | 5 => do
          let (fields, rest) ← readMany (readField (readNode fuel)) argument rest
          -- A repeated key is refused.
          if (fields.map Prod.fst).Nodup then some (.map fields, rest) else none
      | 6 => do
          let (_, _, rest) ← readHead rest
          let (c, rest) ← if argument = 42 then readCid rest else none
          some (.link c, rest)
      | _ =>
        -- A double has the widest argument; the simple values have none.
        if block.head? = some (byte 0xfb) then some (.float (.ofNat argument), rest)
        else (simpleValue argument).map fun value => (value, rest)

def decode (block : Block) : Option Node :=
  match readNode (block.length + 1) block with
  | some (n, []) => some n
  | _ => none

/-! ### What was written reads back -/

theorem byte_toNat (small : n < 256) : (UInt8.ofNat n).toNat = n := by
  rw [UInt8.toNat_ofNat', Nat.mod_eq_of_lt small]

theorem readBig_bigEndian (count value read : Nat) (rest : Block) :
    readBig count read (bigEndian count value ++ rest) =
      some (read * 256 ^ count + value % 256 ^ count, rest) := by
  induction count generalizing read with
  | zero => simp [readBig, bigEndian, Nat.mod_one]
  | succ count ih =>
    have digit : value / 256 ^ count % 256 < 256 := Nat.mod_lt _ (by omega)
    simp only [bigEndian, byte, List.cons_append, readBig]
    rw [ih, byte_toNat digit, Nat.mod_pow_succ, Nat.add_mul, Nat.pow_succ, Nat.mul_assoc,
      Nat.mul_comm 256]
    congr 2
    rw [Nat.mul_comm (value / 256 ^ count % 256)]
    omega

variable {major argument : Nat} {items : List α} {item : α} {fuel : Nat} {rest : Block}

theorem readHead_byte {info : Nat} (type : major < 8) (narrow : info < 32) (rest : Block) :
    readHead (byte (major * 32 + info) :: rest) =
      if info < 24 then some (major, info, rest)
      else if info = 24 then (readBig 1 0 rest).map fun read => (major, read)
      else if info = 25 then (readBig 2 0 rest).map fun read => (major, read)
      else if info = 26 then (readBig 4 0 rest).map fun read => (major, read)
      else if info = 27 then (readBig 8 0 rest).map fun read => (major, read)
      else none := by
  have value := byte_toNat (show major * 32 + info < 256 by omega)
  have high : (major * 32 + info) / 32 = major := by omega
  have low : (major * 32 + info) % 32 = info := by omega
  simp only [readHead, byte, value, high, low]

theorem readHead_head (type : major < 8) (small : argument < 2 ^ 64) (rest : Block) :
    readHead (head major argument ++ rest) = some (major, argument, rest) := by
  have wide : ∀ count, argument < 256 ^ count → readBig count 0 (bigEndian count argument ++ rest) =
      some (argument, rest) := by
    intro count fits
    rw [readBig_bigEndian, Nat.mod_eq_of_lt fits, Nat.zero_mul, Nat.zero_add]
  unfold head
  repeat' split
  · rename_i short
    rw [List.singleton_append, readHead_byte type (by omega), if_pos short]
  all_goals
    rw [List.cons_append, readHead_byte type (by omega), wide _ (by omega)]
    rfl

theorem readVarint_go {bound : Nat} (enough : n ≤ bound) (rest : Block) :
    readVarint (uvarint.go bound n ++ rest) = some (n, rest) := by
  have short : ∀ {n : Nat}, n < 128 → readVarint ([byte n] ++ rest) = some (n, rest) := by
    intro n small
    simp [readVarint, byte, Nat.mod_eq_of_lt (show n < 256 by omega), small]
  induction bound generalizing n with
  | zero => exact short (by omega)
  | succ bound ih =>
    rw [uvarint.go]
    split
    · rename_i small
      exact short small
    · have digit : (UInt8.ofNat (n % 128 + 128)).toNat = n % 128 + 128 := byte_toNat (by omega)
      have high := ih (show n / 128 ≤ bound by omega)
      simp only [List.cons_append, readVarint, byte, digit, high]
      rw [if_neg (by omega)]
      simp only [Option.map_some, Option.some.injEq, Prod.mk.injEq, and_true]
      omega

theorem readVarint_uvarint (n : Nat) (rest : Block) :
    readVarint (uvarint n ++ rest) = some (n, rest) :=
  readVarint_go (Nat.le_refl n) rest

theorem readBytes_map (bs : Bytes) (rest : Block) :
    readBytes bs.length (bs.map .byte ++ rest) = some (bs, rest) := by
  induction bs with
  | nil => rfl
  | cons b bs ih => simp [readBytes, ih]

theorem readCid_cidBytes (c : Cid) (rest : Block) : readCid (cidBytes c ++ rest) = some (c, rest) := by
  simp [readCid, cidBytes, readBytes, byte, List.append_assoc, readVarint_uvarint]

theorem readUtf8_toByteArray (s : String) (rest : Block) :
    readUtf8 s.toByteArray.size (s.toByteArray.data.toList.map .byte ++ rest) = some (s, rest) := by
  have bytes := readBytes_map s.toByteArray.data.toList rest
  rw [Array.length_toList] at bytes
  have valid : s.toByteArray.IsValidUTF8 := s.isValidUTF8
  simp only [readUtf8, ByteArray.size]
  rw [bytes]
  simp [String.fromUTF8?, String.fromUTF8, valid]

theorem readMany_flatMap {read : Block → Option (α × Block)} {write : α → Block} (items : List α)
    (each : ∀ item ∈ items, ∀ rest, read (write item ++ rest) = some (item, rest)) (rest : Block) :
    readMany read items.length (items.flatMap write ++ rest) = some (items, rest) := by
  induction items with
  | nil => rfl
  | cons item items ih =>
    rw [List.forall_mem_cons] at each
    simp only [List.length_cons, readMany, List.flatMap_cons, List.append_assoc, each.1,
      Option.bind_eq_bind, Option.bind_some, ih each.2]

theorem encodeItems_eq (items : List Node) : encode.encodeItems items = items.flatMap encode := by
  induction items with
  | nil => rfl
  | cons item items ih => rw [encode.encodeItems, ih, List.flatMap_cons]

theorem encodeFields_eq (fields : List (String × Node)) :
    encode.encodeFields fields = fields.flatMap fun field => text field.1 ++ encode field.2 := by
  induction fields with
  | nil => rfl
  | cons field fields ih =>
    obtain ⟨key, value⟩ := field
    rw [encode.encodeFields, ih, List.flatMap_cons]
    rfl

/-! ### Sizes -/

theorem size_bigEndian (count value : Nat) : size (bigEndian count value) = count := by
  induction count with
  | zero => rfl
  | succ count ih => simp [bigEndian, byte, ih, Octet.width]; omega

theorem head_ne_nil (major argument : Nat) : head major argument ≠ [] := by
  unfold head
  repeat' split
  all_goals simp

theorem size_head (major argument : Nat) :
    size (head major argument) =
      if argument < 24 then 1
      else if argument < 2 ^ 8 then 2
      else if argument < 2 ^ 16 then 3
      else if argument < 2 ^ 32 then 5
      else 9 := by
  unfold head
  repeat' split
  all_goals simp [byte, Octet.width, size_bigEndian]

theorem size_head_pos (major argument : Nat) : 1 ≤ size (head major argument) := by
  rw [size_head]
  repeat' split
  all_goals omega

theorem size_bytes (bs : Bytes) : size (bs.map .byte) = bs.length := by
  induction bs with
  | nil => rfl
  | cons b bs ih => simp [ih, Octet.width]; omega

theorem size_encode_pos (n : Node) : 1 ≤ size (encode n) := by
  have pos := size_head_pos
  cases n with
  | null => exact pos 7 22
  | bool value => cases value <;> exact pos 7 _
  | int value => cases value <;> exact pos _ _
  | float bits => simp [encode, byte, Octet.width]
  | string | bytes | list | map =>
    simp only [encode, text, size_append]
    exact Nat.le_add_right_of_le (pos _ _)
  | link c =>
    have := pos 6 42
    simp only [encode, size_append]
    omega

variable (write : α → Block)

theorem size_flatMap_le (member : item ∈ items) :
    size (write item) ≤ size (items.flatMap write) := by
  induction items with
  | nil => cases member
  | cons first rest ih =>
    rw [List.flatMap_cons, size_append]
    rcases List.mem_cons.mp member with rfl | later
    · omega
    · have := ih later
      omega

theorem length_flatMap_le (member : item ∈ items) :
    (write item).length ≤ (items.flatMap write).length := by
  induction items with
  | nil => cases member
  | cons first rest ih =>
    rw [List.flatMap_cons, List.length_append]
    rcases List.mem_cons.mp member with rfl | later
    · omega
    · have := ih later
      omega

theorem length_le_size_flatMap (items : List α) (each : ∀ item, 1 ≤ size (write item)) :
    items.length ≤ size (items.flatMap write) := by
  induction items with
  | nil => simp
  | cons item rest ih =>
    have := each item
    rw [List.flatMap_cons, size_append, List.length_cons]
    omega

/-! ### The codec -/

theorem readText_text {s : String} (small : s.toByteArray.size < 2 ^ 64) (rest : Block) :
    readText (text s ++ rest) = some (s, rest) := by
  simp only [readText, text, List.append_assoc, readHead_head (show 3 < 8 by omega) small,
    Option.bind_eq_bind, Option.bind_some, if_true, readUtf8_toByteArray]

theorem readField_encode {key : String} {value : Node} (small : key.toByteArray.size < 2 ^ 64)
    (reads : readNode fuel (encode value ++ rest) = some (value, rest)) :
    readField (readNode fuel) ((text key ++ encode value) ++ rest) = some ((key, value), rest) := by
  simp only [readField, List.append_assoc, readText_text small, Option.bind_eq_bind,
    Option.bind_some, reads]

theorem size_text (s : String) :
    size (text s) = size (head 3 s.toByteArray.size) + s.toByteArray.size := by
  rw [text, size_append, size_bytes, Array.length_toList]
  rfl

theorem length_head_pos (major argument : Nat) : 0 < (head major argument).length :=
  List.length_pos_iff.mpr (head_ne_nil major argument)

theorem readNode_simple (short : argument < 24) (fuel : Nat) (rest : Block) :
    readNode (fuel + 1) (head 7 argument ++ rest) =
      (simpleValue argument).map fun value => (value, rest) := by
  have first : ¬ (head 7 argument ++ rest).head? = some (byte 0xfb) := by
    rw [head, if_pos short, List.singleton_append, List.head?_cons, byte, byte]
    intro same
    have value := congrArg UInt8.toNat (Octet.byte.inj (Option.some.inj same))
    rw [byte_toNat (by omega), byte_toNat (by omega)] at value
    omega
  simp only [readNode, readHead_head (show 7 < 8 by omega) (show argument < 2 ^ 64 by omega),
    Option.bind_eq_bind, Option.bind_some]
  rw [if_neg first]

/-- The reader needs no more fuel than the block has octets. -/
theorem readNode_encode {n : Node} (plain : n.Plain) (small : size (encode n) < 2 ^ 64) (fuel : Nat)
    (enough : (encode n).length ≤ fuel) (rest : Block) :
    readNode (fuel + 1) (encode n ++ rest) = some (n, rest) := by
  induction plain generalizing fuel rest with
  | null => exact readNode_simple (by omega) fuel rest
  | bool value => cases value <;> exact readNode_simple (by omega) fuel rest
  | @int value range =>
    obtain ⟨low, high⟩ := range
    cases value with
    | ofNat n =>
      have fits : n < 2 ^ 64 := by
        have : (n : Int) < 0x8000000000000000 := high
        omega
      simp only [encode, readNode, readHead_head (show 0 < 8 by omega) fits,
        Option.bind_eq_bind, Option.bind_some]
      rfl
    | negSucc n =>
      have fits : n < 2 ^ 64 := by omega
      simp only [encode, readNode, readHead_head (show 1 < 8 by omega) fits,
        Option.bind_eq_bind, Option.bind_some]
  | string s =>
    rw [encode, size_text] at small
    simp only [encode, text, readNode, List.append_assoc,
      readHead_head (show 3 < 8 by omega) (show s.toByteArray.size < 2 ^ 64 by omega),
      Option.bind_eq_bind, Option.bind_some, readUtf8_toByteArray]
  | bytes bs =>
    rw [encode, size_append, size_bytes] at small
    simp only [encode, readNode, List.append_assoc,
      readHead_head (show 2 < 8 by omega) (show bs.length < 2 ^ 64 by omega),
      Option.bind_eq_bind, Option.bind_some, readBytes_map]
  | @list items each ih =>
    simp only [encode, encodeItems_eq] at small enough ⊢
    rw [size_append] at small
    rw [List.length_append] at enough
    have first := length_head_pos 4 items.length
    have count := length_le_size_flatMap encode items size_encode_pos
    have read : ∀ rest, readMany (readNode fuel) items.length (items.flatMap encode ++ rest) =
        some (items, rest) := by
      rw [show fuel = fuel - 1 + 1 by omega]
      refine readMany_flatMap items fun item member => ih item member ?_ (fuel - 1) ?_
      · have := size_flatMap_le encode member
        omega
      · have := length_flatMap_le encode member
        omega
    simp only [readNode, List.append_assoc, readHead_head (show 4 < 8 by omega)
      (show items.length < 2 ^ 64 by omega), Option.bind_eq_bind, Option.bind_some, read]
  | @map fields distinct each ih =>
    simp only [encode, encodeFields_eq] at small enough ⊢
    rw [size_append] at small
    rw [List.length_append] at enough
    have first := length_head_pos 5 fields.length
    have count := length_le_size_flatMap (fun field : String × Node =>
      text field.1 ++ encode field.2) fields fun field => by
        rw [size_append]
        have := size_encode_pos field.2
        omega
    have read : ∀ rest, readMany (readField (readNode fuel)) fields.length
        (fields.flatMap (fun field => text field.1 ++ encode field.2) ++ rest) =
          some (fields, rest) := by
      rw [show fuel = fuel - 1 + 1 by omega]
      refine readMany_flatMap fields fun field member rest => ?_
      have sizes := size_flatMap_le (fun field : String × Node =>
        text field.1 ++ encode field.2) member
      have lengths := length_flatMap_le (fun field : String × Node =>
        text field.1 ++ encode field.2) member
      simp only [size_append, List.length_append, size_text] at sizes lengths
      exact readField_encode (by omega) (ih field member (by omega) (fuel - 1) (by omega) rest)
    simp only [readNode, List.append_assoc, readHead_head (show 5 < 8 by omega)
      (show fields.length < 2 ^ 64 by omega), Option.bind_eq_bind, Option.bind_some, read,
      if_pos distinct]
  | link c =>
    simp only [encode, size_append] at small
    simp only [encode, readNode, List.append_assoc, readHead_head (show 6 < 8 by omega)
      (show 42 < 2 ^ 64 by omega), readHead_head (show 2 < 8 by omega)
      (show size (cidBytes c) < 2 ^ 64 by omega), Option.bind_eq_bind, Option.bind_some, if_true,
      readCid_cidBytes]

theorem decode_encode {n : Node} (plain : n.Plain) (small : size (encode n) ≤ decodable) :
    decode (encode n) = some n := by
  have limit : decodable < 2 ^ 64 := by decide
  have read := readNode_encode plain (by omega) _ (Nat.le_refl _) []
  rw [List.append_nil] at read
  rw [decode, read]

theorem readNode_distinct {block : Block} {fields : List (String × Node)}
    (read : readNode fuel block = some (.map fields, rest)) : (fields.map Prod.fst).Nodup := by
  cases fuel with
  | zero => simp [readNode] at read
  | succ fuel =>
    simp only [readNode, Option.bind_eq_bind, Option.bind_eq_some_iff] at read
    obtain ⟨⟨major, argument, tail⟩, -, read⟩ := read
    -- Only the branch of maps returns one.
    split at read <;> simp [Option.bind_eq_some_iff, ite_eq_iff] at read
    · exact read.2
    · obtain ⟨-, simple, -⟩ := read
      unfold simpleValue at simple
      split at simple <;> cases simple

/-! ### An ideal hash -/

def numeral (n : Nat) : List Nat := (Nat.digits 256 n).map (· + 1) ++ [258]

def symbols : Octet → List Nat
  | .byte value => [value.toNat + 1]
  | .digest length value => 257 :: (numeral length ++ numeral value.name)

def number (block : Block) : Digest := ⟨Nat.ofDigits 259 (block.flatMap symbols)⟩

theorem marked_injective : ∀ {a b : List Nat}, (∀ d ∈ a, d < 256) →
    (∀ d ∈ b, d < 256) → a.map (· + 1) ++ 258 :: x = b.map (· + 1) ++ 258 :: y → a = b ∧ x = y
  | [], [], _, _, same => by simpa using same
  | [], d :: _, _, small, same => by
    have digit := small d List.mem_cons_self
    simp at same
    omega
  | c :: _, [], small, _, same => by
    have digit := small c List.mem_cons_self
    simp at same
    omega
  | c :: a, d :: b, smallA, smallB, same => by
    obtain ⟨first, rest⟩ := List.cons.inj same
    obtain ⟨rfl, tails⟩ := marked_injective (fun e member => smallA e (List.mem_cons_of_mem c member))
      (fun e member => smallB e (List.mem_cons_of_mem d member)) rest
    exact ⟨by rw [Nat.succ.inj first], tails⟩

theorem numeral_injective {m : Nat} (same : numeral m ++ x = numeral n ++ y) : m = n ∧ x = y := by
  have small : ∀ n, ∀ d ∈ Nat.digits 256 n, d < 256 := fun n _ => Nat.digits_lt_base (by norm_num)
  obtain ⟨digits, tails⟩ := marked_injective (small m) (small n) (by simpa [numeral] using same)
  exact ⟨Nat.digits_inj_iff.mp digits, tails⟩

theorem symbols_injective {a b : Octet} (same : symbols a ++ x = symbols b ++ y) :
    a = b ∧ x = y := by
  cases a with
  | byte a =>
    have small := a.toNat_lt
    cases b with
    | byte b =>
      obtain ⟨heads, tails⟩ := List.cons.inj same
      exact ⟨congrArg Octet.byte (UInt8.toNat_inj.mp (Nat.succ.inj heads)), tails⟩
    | digest =>
      simp [symbols] at same
      omega
  | digest length a =>
    cases b with
    | byte b =>
      have small := b.toNat_lt
      simp [symbols] at same
      omega
    | digest length' b =>
      simp only [symbols, List.cons_append, List.append_assoc, List.cons.injEq, true_and] at same
      obtain ⟨rfl, rest⟩ := numeral_injective same
      obtain ⟨names, tails⟩ := numeral_injective rest
      exact ⟨congrArg (Octet.digest length) (congrArg Digest.mk names), tails⟩

theorem symbols_range {octet : Octet} (member : n ∈ symbols octet) : 0 < n ∧ n < 259 := by
  have digits : ∀ {m}, n ∈ numeral m → 0 < n ∧ n < 259 := by
    intro m member
    rcases List.mem_append.mp member with digit | last
    · obtain ⟨d, isDigit, rfl⟩ := List.mem_map.mp digit
      have small := Nat.digits_lt_base (by norm_num) isDigit
      omega
    · rw [List.mem_singleton.mp last]
      omega
  cases octet with
  | byte value =>
    have small := value.toNat_lt
    rw [List.mem_singleton.mp member]
    omega
  | digest length value =>
    rcases List.mem_cons.mp member with rfl | rest
    · omega
    · exact (List.mem_append.mp rest).elim digits digits

theorem digits_number (block : Block) :
    Nat.digits 259 (number block).name = block.flatMap symbols := by
  have each : ∀ n ∈ block.flatMap symbols, 0 < n ∧ n < 259 := by
    intro n member
    obtain ⟨octet, _, inside⟩ := List.mem_flatMap.mp member
    exact symbols_range inside
  exact Nat.digits_ofDigits 259 (by norm_num) _ (fun n member => (each n member).2)
    fun nonempty => Nat.ne_of_gt (each _ (List.getLast_mem nonempty)).1

theorem number_injective : Function.Injective number := by
  intro a b same
  have coded : a.flatMap symbols = b.flatMap symbols := by
    rw [← digits_number a, same, digits_number b]
  clear same
  induction a generalizing b with
  | nil =>
    cases b with
    | nil => rfl
    | cons octet rest => cases octet <;> simp [symbols] at coded
  | cons octet rest ih =>
    cases b with
    | nil => cases octet <;> simp [symbols] at coded
    | cons other rest' =>
      obtain ⟨rfl, tails⟩ := symbols_injective coded
      rw [ih tails]

/-- DAG-CBOR with an ideal hash. -/
def codec : Codec where
  encode := encode
  decode := decode
  sha256 := number
  sha256_injective := number_injective
  decode_encode := fun _ plain small => decode_encode plain small

theorem codec_distinct : codec.Distinct := by
  intro block fields decoded
  change decode block = _ at decoded
  unfold decode at decoded
  split at decoded
  · rename_i n read
    cases decoded
    exact readNode_distinct read
  · cases decoded

end Bloar.DagCbor
