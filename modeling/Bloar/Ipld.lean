import Mathlib

/-!
The part of IPLD the archive is written against: CIDs, the data model, and an
abstract codec with a hash. Hashing is idealised as an injection. An injection
of all blocks has no 32-byte range, so a digest is an abstract name, and a block
is a string of octets in which an embedded digest stands as one symbol that
counts for its declared length. Sizes are therefore those of the real bytes.
-/

namespace Bloar.Ipld

abbrev Bytes := List UInt8

structure Digest where
  name : Nat
  deriving DecidableEq, Repr

structure Multihash where
  code : Nat
  length : Nat
  digest : Digest
  deriving DecidableEq, Repr

structure Cid where
  version : Nat
  codec : Nat
  hash : Multihash
  deriving DecidableEq, Repr

/-- A `cid.Cid` of the source, whose zero value `cid.Undef` is `none`. -/
abbrev Link := Option Cid

/-- One byte of a block, or the `length` bytes of an embedded digest. -/
inductive Octet where
  | byte (value : UInt8)
  | digest (length : Nat) (value : Digest)
  deriving DecidableEq, Repr

abbrev Block := List Octet

def Octet.width : Octet → Nat
  | .byte _ => 1
  | .digest length _ => length

def size (block : Block) : Nat := (block.map Octet.width).sum

@[simp] theorem size_nil : size [] = 0 := rfl

@[simp] theorem size_cons (octet : Octet) (block : Block) :
    size (octet :: block) = octet.width + size block := rfl

@[simp] theorem size_append (front back : Block) :
    size (front ++ back) = size front + size back := by
  simp [size]

/-- The IPLD data model. A map lists its fields in the order they are encoded. -/
inductive Node where
  | null
  | bool (value : Bool)
  | int (value : Int)
  | float (bits : UInt64)
  | string (value : String)
  | bytes (value : Bytes)
  | list (items : List Node)
  | map (fields : List (String × Node))
  | link (cid : Cid)

def InInt64 (value : Int) : Prop :=
  -0x8000000000000000 ≤ value ∧ value < 0x8000000000000000

instance (value : Int) : Decidable (InInt64 value) :=
  inferInstanceAs (Decidable (_ ∧ _))

/-- Nodes every conforming codec carries unchanged: integers are 64-bit and no
map repeats a key. -/
inductive Node.Plain : Node → Prop where
  | null : Plain .null
  | bool (value : Bool) : Plain (.bool value)
  | int {value : Int} (range : InInt64 value) : Plain (.int value)
  | string (value : String) : Plain (.string value)
  | bytes (value : Bytes) : Plain (.bytes value)
  | list {items : List Node} (each : ∀ item ∈ items, Plain item) : Plain (.list items)
  | map {fields : List (String × Node)} (distinct : (fields.map Prod.fst).Nodup)
      (each : ∀ field ∈ fields, Plain field.2) : Plain (.map fields)
  | link (cid : Cid) : Plain (.link cid)

/-- Nodes above this size may exceed the decoder's allocation budget, so a codec
promises nothing about them. -/
def decodable : Nat := 2 ^ 21

/-- A block codec together with the hash that addresses its blocks. -/
structure Codec where
  encode : Node → Block
  decode : Block → Option Node
  sha256 : Block → Digest
  sha256_injective : Function.Injective sha256
  decode_encode : ∀ node : Node, node.Plain → size (encode node) ≤ decodable →
    decode (encode node) = some node

def Codec.Distinct (ipld : Codec) : Prop :=
  ∀ block fields, ipld.decode block = some (.map fields) → (fields.map Prod.fst).Nodup

def raw : Nat := 0x55

def dagCBOR : Nat := 0x71

def sha2_256 : Nat := 0x12

variable (ipld : Codec)

def Codec.sum (codec : Nat) (block : Block) : Cid :=
  { version := 1, codec, hash := { code := sha2_256, length := 32, digest := ipld.sha256 block } }

def Codec.nodeCID (block : Block) : Cid := ipld.sum dagCBOR block

theorem Codec.sum_injective {codec : Nat} {a b : Block}
    (same : ipld.sum codec a = ipld.sum codec b) : a = b := by
  apply ipld.sha256_injective
  simpa [Codec.sum] using same

theorem Codec.nodeCID_injective {a b : Block} (same : ipld.nodeCID a = ipld.nodeCID b) : a = b :=
  ipld.sum_injective same

end Bloar.Ipld
