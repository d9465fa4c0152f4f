import Mathlib

/-!
Whom the public read limiter charges (`server/public_read_limiter.go`). A client is known by
its socket address or, behind trusted proxies, by an address of the forwarding header, to
which each proxy appends the address of its peer. The client may have sent any bytes in that
header before the first proxy saw it.
-/

namespace Bloar.PublicRead

abbrev Bytes := List UInt8

/-! ### Addresses -/

inductive Addr where
  | v4 (bits : BitVec 32)
  | v6 (bits : BitVec 128) (zone : String)
  deriving DecidableEq, Repr

namespace Addr

def zone : Addr → String
  | .v4 _ => ""
  | .v6 _ zone => zone

def withoutZone : Addr → Addr
  | .v4 bits => .v4 bits
  | .v6 bits _ => .v6 bits ""

def unmap : Addr → Addr
  | .v4 bits => .v4 bits
  | .v6 bits zone => if bits >>> 32 = 0xffff#128 then .v4 (bits.setWidth 32) else .v6 bits zone

end Addr

structure Prefix where
  addr : Addr
  bits : Nat
  deriving DecidableEq, Repr

def Prefix.contains (p : Prefix) (addr : Addr) : Bool :=
  match p.addr, addr with
  | .v4 net, .v4 bits => (bits ^^^ net) >>> (32 - p.bits) == 0
  | .v6 net _, .v6 bits zone => zone == "" && (bits ^^^ net) >>> (128 - p.bits) == 0
  | _, _ => false

structure Net where
  /-- the host of a `host:port` text -/
  splitHostPort : Bytes → Option Bytes
  trimSpace : Bytes → Bytes
  parseAddr : Bytes → Option Addr

/-! ### The limiter's key -/

/-- The header and the proxies are configured together or not at all. -/
structure Limiter where
  forwardedHeader : String
  trustedProxies : List Prefix
  paired : forwardedHeader = "" ↔ trustedProxies = []

structure Request where
  remoteAddr : Bytes
  /-- the values of a header, one for each of its lines -/
  header : String → List Bytes

/-- The key of a bucket, an IPv6 address counting by its network of 64 bits. -/
inductive ClientKey where
  | unknown
  | v4 (bits : BitVec 32)
  | v6 (network : BitVec 64)
  deriving DecidableEq, Repr

def publicReadClientKey : Addr → ClientKey
  | .v4 bits => .v4 bits
  | .v6 bits _ => .v6 ((bits >>> 64).setWidth 64)

variable (net : Net) (l : Limiter)

def remoteIP (remoteAddr : Bytes) : Option Addr :=
  (net.parseAddr (net.trimSpace ((net.splitHostPort remoteAddr).getD remoteAddr))).map
    fun addr => addr.withoutZone.unmap

def comma : UInt8 := 44

def parseForwardedIP (raw : Bytes) : Option Addr := do
  let addr ← net.parseAddr (net.trimSpace raw)
  if addr.zone ≠ "" then none else some addr.unmap

/-- The elements of all lines; one that is malformed spoils them all. -/
def parseElements (values : List Bytes) : Option (List Addr) :=
  (values.flatMap fun value => value.splitOn comma).mapM (parseForwardedIP net)

def parseForwardedIPs (values : List Bytes) : Option (List Addr) := do
  let out ← parseElements net values
  if out = [] then none else some out

def Limiter.trusted (addr : Addr) : Bool := l.trustedProxies.any fun p => p.contains addr

def Limiter.rightmost (addrs : List Addr) : Option Addr :=
  addrs.reverse.find? fun addr => !l.trusted addr

def Limiter.clientKey (r : Request) : ClientKey :=
  match remoteIP net r.remoteAddr with
  | none => .unknown
  | some remote =>
      publicReadClientKey <|
        if l.forwardedHeader ≠ "" ∧ l.trusted remote then
          match parseForwardedIPs net (r.header l.forwardedHeader) with
          | none => remote
          | some forwarded => (l.rightmost forwarded).getD (forwarded.headD remote)
        else remote

/-! ### Chains of proxies -/

/-- A proxy that adds the address of its peer: as a line of its own, or after a comma to the
last line there is. -/
inductive Adds (peer : Addr) : List Bytes → List Bytes → Prop
  | line (values : List Bytes) (text : Bytes) (plain : comma ∉ text)
      (names : parseForwardedIP net text = some peer) : Adds peer values (values ++ [text])
  | tail (init : List Bytes) (last text : Bytes) (plain : comma ∉ text)
      (names : parseForwardedIP net text = some peer) :
      Adds peer (init ++ [last]) (init ++ [last ++ comma :: text])

/-- The header as it arrives after a client supplied some lines and each proxy added its
peer, the client first. -/
inductive Arrives (supplied : List Bytes) : List Addr → List Bytes → Prop
  | direct : Arrives supplied [] supplied
  | hop {peers : List Addr} {peer : Addr} {values values' : List Bytes}
      (before : Arrives supplied peers values) (adds : Adds net peer values values') :
      Arrives supplied (peers ++ [peer]) values'

variable {net l}

theorem Adds.elements {peer : Addr} {values values' : List Bytes} (adds : Adds net peer values values') :
    parseElements net values' = (parseElements net values).map (· ++ [peer]) := by
  have step (elements : List Bytes) {text : Bytes} (names : parseForwardedIP net text = some peer) :
      (elements ++ [text]).mapM (parseForwardedIP net) =
        (elements.mapM (parseForwardedIP net)).map (· ++ [peer]) := by
    rw [List.mapM_append]
    cases elements.mapM (parseForwardedIP net) with
    | none => rfl
    | some out => simp [names]
  cases adds with
  | line values text plain names =>
    rw [parseElements, List.flatMap_append, List.flatMap_singleton, List.splitOn_eq_singleton plain]
    exact step _ names
  | tail init last text plain names =>
    rw [parseElements, parseElements, List.flatMap_append, List.flatMap_singleton,
      List.splitOn_append_cons_self, List.splitOn_eq_singleton plain, ← List.append_assoc,
      List.flatMap_append, List.flatMap_singleton]
    exact step _ names

theorem Arrives.elements {supplied values : List Bytes} {peers : List Addr}
    (arrives : Arrives net supplied peers values) :
    parseElements net values = (parseElements net supplied).map (· ++ peers) := by
  induction arrives with
  | direct => simp
  | hop before adds ih =>
    rw [adds.elements, ih, Option.map_map]
    congr 1
    funext out
    simp

theorem Limiter.rightmost_append (left right : List Addr) :
    l.rightmost (left ++ right) = (l.rightmost right).or (l.rightmost left) := by
  simp [Limiter.rightmost, List.find?_append]

theorem Limiter.rightmost_isSome {addrs : List Addr} :
    (l.rightmost addrs).isSome ↔ ∃ addr ∈ addrs, l.trusted addr = false := by
  simp [Limiter.rightmost]

theorem Limiter.rightmost_self {addr : Addr} :
    l.rightmost [addr] = if l.trusted addr then none else some addr := by
  cases trust : l.trusted addr <;> simp [Limiter.rightmost, trust]

theorem Limiter.trusted_named {addr : Addr} (trust : l.trusted addr = true) :
    l.forwardedHeader ≠ "" := by
  intro unnamed
  rw [Limiter.trusted, l.paired.mp unnamed] at trust
  cases trust

section Chain

variable {r : Request} {remote : Addr} {peers : List Addr} {supplied : List Bytes}
  (socket : remoteIP net r.remoteAddr = some remote)
  (arrives : Arrives net supplied peers (r.header l.forwardedHeader))
include socket

theorem clientKey_untrusted (stranger : l.trusted remote = false) :
    l.clientKey net r = publicReadClientKey remote := by
  simp [Limiter.clientKey, socket, stranger]

include arrives

/-- Garbage before the first proxy makes the limiter charge the last proxy. -/
theorem clientKey_malformed (trust : l.trusted remote = true)
    (malformed : parseElements net supplied = none) :
    l.clientKey net r = publicReadClientKey remote := by
  simp [Limiter.clientKey, socket, trust, l.trusted_named trust, parseForwardedIPs,
    arrives.elements, malformed]

theorem clientKey_wellFormed (trust : l.trusted remote = true) {own : List Addr}
    (parsed : parseElements net supplied = some own) {addr : Addr}
    (found : l.rightmost peers = some addr) :
    l.clientKey net r = publicReadClientKey addr := by
  have some : peers ≠ [] := by
    rintro rfl
    cases found
  simp [Limiter.clientKey, socket, trust, l.trusted_named trust, parseForwardedIPs,
    arrives.elements, parsed, some, l.rightmost_append, found]

end Chain

/-- Nothing that the client supplied spoils the address list, or the last proxy is charged
like the client. -/
def Unspoiled (net : Net) (l : Limiter) (peers : List Addr) (remote : Addr)
    (supplied : List Bytes) : Prop :=
  (∃ addr ∈ peers ++ [remote], l.trusted addr = false) ∧
    (l.trusted remote = false ∨ (parseElements net supplied).isSome ∨
      ∃ addr, l.rightmost peers = some addr ∧
        publicReadClientKey addr = publicReadClientKey remote)

def KeyedByChain (net : Net) (l : Limiter) (peers : List Addr) (remote : Addr) (r : Request) :
    Prop :=
  ∃ addr, l.rightmost (peers ++ [remote]) = some addr ∧
    l.clientKey net r = publicReadClientKey addr

theorem keyedByChain_iff {r : Request} {remote : Addr} {peers : List Addr} {supplied : List Bytes}
    (socket : remoteIP net r.remoteAddr = some remote)
    (arrives : Arrives net supplied peers (r.header l.forwardedHeader)) :
    KeyedByChain net l peers remote r ↔ Unspoiled net l peers remote supplied := by
  rw [KeyedByChain, Unspoiled, ← Limiter.rightmost_isSome, Option.isSome_iff_exists,
    l.rightmost_append, l.rightmost_self]
  cases trust : l.trusted remote with
  | false => simp [clientKey_untrusted socket trust]
  | true =>
    cases found : l.rightmost peers with
    | none => simp
    | some addr =>
      cases parsed : parseElements net supplied with
      | none => simp [clientKey_malformed socket arrives trust parsed, eq_comm]
      | some own => simp [clientKey_wellFormed socket arrives trust parsed found]

def sampleClient : Addr := .v4 0xc0000214#32
def sampleProxy : Addr := .v4 0x0a020304#32

def sampleNet : Net :=
  { splitHostPort := fun _ => none, trimSpace := id
    parseAddr := fun text =>
      if text = [99] then some sampleClient else if text = [112] then some sampleProxy else none }

def sampleLimiter : Limiter :=
  { forwardedHeader := "X-Forwarded-For"
    trustedProxies := [{ addr := .v4 0x0a000000#32, bits := 8 }]
    paired := by simp }

def sampleRequest (supplied : List Bytes) : Request :=
  { remoteAddr := [112], header := fun _ => supplied ++ [[99]] }

theorem sampleRequest_arrives (supplied : List Bytes) : Arrives sampleNet supplied [sampleClient]
    ((sampleRequest supplied).header sampleLimiter.forwardedHeader) :=
  .hop .direct (.line supplied [99] (by decide) rfl)

end Bloar.PublicRead
