import Mathlib
import ShareTracker.Lib.Text

/-!
Where a login attempt is counted: its peer's own address, or the one a trusted
proxy observed, and what a client's headers can make of it.
-/
namespace ShareTracker.LoginSource

/-! ### Addresses and sources -/

inductive IpAddr
  | v4 (octets : Fin 4 → UInt8)
  | v6 (octets : Fin 16 → UInt8)
  deriving DecidableEq

structure SocketAddr where
  ip : IpAddr
  port : UInt16

inductive Source
  | v4 (octets : Fin 4 → UInt8)
  | v6Prefix (octets : Fin 16 → UInt8)
  | unknown
  deriving DecidableEq

/-- An IPv6 address is counted by its first eight octets. -/
def Source.ofIp : Option IpAddr → Source
  | some (.v4 octets) => .v4 octets
  | some (.v6 octets) => .v6Prefix fun i => if i < 8 then octets i else 0
  | none => .unknown

/-! ### The request's source -/

abbrev Bytes := List UInt8

/-- A request's headers in order, each under its name in lower case. -/
abbrev Headers := List (List Char × Bytes)

def comma : UInt8 := 0x2C

/-- The bytes a header's text may hold, commas among them, and the addresses texts spell. -/
structure Readers where
  visible : UInt8 → Bool
  parse : List Char → Option IpAddr
  visible_comma : visible comma = true

def forwardedFor : List Char := "x-forwarded-for".toList

def getAll (name : List Char) (headers : Headers) : List Bytes :=
  headers.filterMap fun (n, value) => if n = name then some value else none

/-- The characters of bytes that are one each. -/
def ofAscii (bytes : Bytes) : List Char := bytes.map fun b => Char.ofNat b.toNat

section Request
variable (r : Readers)

/-- `HeaderValue::to_str`: a value with any other byte in it has no text. -/
def toStr (value : Bytes) : Option (List Char) :=
  if value.all r.visible then some (ofAscii value) else none

/-- The address in the last entry of the last line. -/
def forwarded (headers : Headers) : Option IpAddr := do
  let value ← (getAll forwardedFor headers).getLast?
  let text ← toStr r value
  let entry ← (Text.splitAll ',' text).getLast?
  r.parse (Text.trim entry)

def loginSource (trustedProxies : List IpAddr) (headers : Headers) (peer : Option SocketAddr) : Source :=
  match peer with
  | none => .unknown
  | some addr =>
    if addr.ip ∉ trustedProxies then .ofIp (some addr.ip)
    else .ofIp (some ((forwarded r headers).getD addr.ip))

/-- The address a request is counted by, where it has one. -/
def decidingAddress (trustedProxies : List IpAddr) (headers : Headers) (peer : Option SocketAddr) :
    Option IpAddr :=
  peer.map fun addr =>
    if addr.ip ∈ trustedProxies then (forwarded r headers).getD addr.ip else addr.ip

end Request

/-! ### What a proxy sends on -/

/-- A proxy appends what it observed to the client's last line, or adds a line. -/
inductive Hop
  | appends
  | ownLine
  deriving DecidableEq

/-- The lines a proxy sends on of a client's. -/
def Hop.lines (hop : Hop) (client : List Bytes) (entry : Bytes) : List Bytes :=
  match hop, client.getLast? with
  | .appends, some last => client.dropLast ++ [last ++ comma :: entry]
  | _, _ => client ++ [entry]

section Proxy
variable (r : Readers)

/-- An entry that is one address's text. -/
structure Observes (entry : Bytes) (address : IpAddr) : Prop where
  one : comma ∉ entry
  visible : entry.all r.visible = true
  parse : r.parse (Text.trim (ofAscii entry)) = some address

/-- The client's part of the line the proxy's entry ends up on has a text. -/
def ClientReads (hop : Hop) (client : List Bytes) : Prop :=
  hop = .appends → ∀ last, client.getLast? = some last → last.all r.visible = true

end Proxy

/-- The IPv4 address an address is, plain or mapped into IPv6. -/
def ipv4 : IpAddr → Option (Fin 4 → UInt8)
  | .v4 octets => some octets
  | .v6 octets =>
    if (∀ i : Fin 16, i < 10 → octets i = 0) ∧ octets 10 = 0xFF ∧ octets 11 = 0xFF then
      some ![octets 12, octets 13, octets 14, octets 15]
    else none

def SameIpv4 (a b : IpAddr) : Prop := ∃ octets, ipv4 a = some octets ∧ ipv4 b = some octets

/-- Two IPv6 addresses of one /64. -/
def SamePrefix (a b : IpAddr) : Prop :=
  ∃ x y, a = .v6 x ∧ b = .v6 y ∧ ∀ i : Fin 16, i < 8 → x i = y i

/-! ### The source of a proxied request -/

section Forwarding
variable {r : Readers} {hop : Hop} {client : List Bytes} {entry : Bytes} {observed : IpAddr}
  {headers : Headers}

theorem ofAscii_append (a b : Bytes) : ofAscii (a ++ b) = ofAscii a ++ ofAscii b := List.map_append

theorem ofNat_toNat (b : UInt8) : (Char.ofNat b.toNat).toNat = b.toNat := by
  have hlt := b.toNat_lt
  have hvalid : b.toNat.isValidChar := .inl (by omega)
  rw [Char.ofNat, dif_pos hvalid]
  rfl

theorem comma_notMem_ofAscii (h : comma ∉ entry) : ',' ∉ ofAscii entry := by
  intro hmem
  obtain ⟨b, hb, hchar⟩ := List.mem_map.mp hmem
  have hnat := congrArg Char.toNat hchar
  rw [ofNat_toNat] at hnat
  have hcomma : b = comma := UInt8.toNat_inj.mp hnat
  exact h (hcomma ▸ hb)

/-- The last entry of a line that ends in the proxy's is the proxy's. -/
theorem getLast_entry (h : comma ∉ entry) (before : List Char) :
    (Text.splitAll ',' (before ++ ',' :: ofAscii entry)).getLast? = some (ofAscii entry) := by
  rw [Text.splitAll_append_sep, Text.splitAll_of_notMem (comma_notMem_ofAscii h),
    List.getLast?_append]
  rfl

theorem getLast_own (h : comma ∉ entry) :
    (Text.splitAll ',' (ofAscii entry)).getLast? = some (ofAscii entry) := by
  rw [Text.splitAll_of_notMem (comma_notMem_ofAscii h)]
  rfl

theorem toStr_of_visible {value : Bytes} (h : value.all r.visible = true) :
    toStr r value = some (ofAscii value) := if_pos h

/-- A line of the proxy's own holds its entry alone. -/
theorem forwarded_own (h : Observes r entry observed)
    (hlast : (getAll forwardedFor headers).getLast? = some entry) :
    forwarded r headers = some observed := by
  unfold forwarded
  rw [hlast, Option.bind_eq_bind, Option.bind_some, toStr_of_visible h.visible, Option.bind_eq_bind,
    Option.bind_some, getLast_own h.one]
  exact h.parse

/-- A line the proxy appended to is read as its entry where the client's part has a text. -/
theorem forwarded_appended {last : Bytes} (h : Observes r entry observed)
    (hlast : (getAll forwardedFor headers).getLast? = some (last ++ comma :: entry)) :
    forwarded r headers = if last.all r.visible = true then some observed else none := by
  unfold forwarded
  rw [hlast, Option.bind_eq_bind, Option.bind_some]
  have hall : (last ++ comma :: entry).all r.visible = last.all r.visible := by
    rw [List.all_append, List.all_cons, r.visible_comma, h.visible, Bool.and_true, Bool.and_true]
  split
  · rename_i hvisible
    rw [toStr_of_visible (hall.trans hvisible), Option.bind_eq_bind, Option.bind_some, ofAscii_append]
    change (Text.splitAll ',' (ofAscii last ++ ',' :: ofAscii entry)).getLast?.bind _ = _
    rw [getLast_entry h.one]
    exact h.parse
  · rename_i hvisible
    rw [toStr, if_neg (by rwa [hall])]
    rfl

theorem lines_getLast (hop : Hop) (client : List Bytes) (entry : Bytes) :
    (hop.lines client entry).getLast? = some entry ∧ (hop = .appends → client = []) ∨
      hop = .appends ∧ ∃ last, client.getLast? = some last ∧
        (hop.lines client entry).getLast? = some (last ++ comma :: entry) := by
  cases hop with
  | ownLine =>
    refine .inl ⟨?_, by simp⟩
    simp [Hop.lines]
  | appends =>
    cases hlast : client.getLast? with
    | none =>
      refine .inl ⟨?_, fun _ => List.getLast?_eq_none_iff.mp hlast⟩
      simp [Hop.lines, hlast]
    | some last => exact .inr ⟨rfl, last, rfl, by simp [Hop.lines, hlast]⟩

open Classical in
/-- What a proxied request's headers say: the address observed, unless the
client's part of its line has no text. -/
theorem forwarded_eq (h : Observes r entry observed)
    (hlines : getAll forwardedFor headers = hop.lines client entry) :
    forwarded r headers = if ClientReads r hop client then some observed else none := by
  rcases lines_getLast hop client entry with ⟨hlast, hempty⟩ | ⟨rfl, last, hclient, hlast⟩
  · rw [forwarded_own h (hlines ▸ hlast), if_pos]
    intro happends last hmem
    rw [hempty happends] at hmem
    cases hmem
  · rw [forwarded_appended h (hlines ▸ hlast)]
    apply if_congr _ rfl rfl
    unfold ClientReads
    constructor
    · intro hvisible _ last' hlast'
      obtain rfl := Option.some.inj (hclient.symm.trans hlast')
      exact hvisible
    · intro hreads
      exact hreads rfl last hclient

end Forwarding

/-! ### Who shares a source -/

section Sharing
variable {r : Readers} {trustedProxies : List IpAddr}

theorem loginSource_eq (headers : Headers) (peer : Option SocketAddr) :
    loginSource r trustedProxies headers peer =
      .ofIp (decidingAddress r trustedProxies headers peer) := by
  cases peer with
  | none => rfl
  | some addr =>
    unfold loginSource decidingAddress
    by_cases htrusted : addr.ip ∈ trustedProxies <;> simp [htrusted]

/-- Two addresses share a source just where they are one IPv4 address or two
IPv6 addresses of one /64. -/
theorem ofIp_eq_iff {a b : IpAddr} :
    Source.ofIp (some a) = .ofIp (some b) ↔ (∃ octets, a = .v4 octets ∧ b = .v4 octets) ∨ SamePrefix a b := by
  unfold SamePrefix
  cases a with
  | v4 x =>
    cases b with
    | v4 y => simp [Source.ofIp, eq_comm]
    | v6 y => simp [Source.ofIp]
  | v6 x =>
    cases b with
    | v4 y => simp [Source.ofIp]
    | v6 y =>
      constructor
      · intro h
        refine .inr ⟨x, y, rfl, rfl, fun i hi => ?_⟩
        have heq := congrFun (Source.v6Prefix.inj h) i
        simpa [hi] using heq
      · rintro (⟨octets, ho, -⟩ | ⟨x', y', hx, hy, hsame⟩)
        · cases ho
        · cases hx
          cases hy
          refine congrArg Source.v6Prefix (funext fun i => ?_)
          by_cases hi : i < 8
          · simp [hi, hsame i hi]
          · simp [hi]

theorem share_of_ofIp {a b : IpAddr} (h : Source.ofIp (some a) = .ofIp (some b)) :
    SameIpv4 a b ∨ SamePrefix a b := by
  rcases ofIp_eq_iff.mp h with ⟨octets, rfl, rfl⟩ | hprefix
  · exact .inl ⟨octets, rfl, rfl⟩
  · exact .inr hprefix

/-- Two proxied requests of one observed address share a source just where the
clients' parts of the lines read alike, or the proxy itself shares it. -/
theorem proxied_eq_iff {peer : SocketAddr} (htrusted : peer.ip ∈ trustedProxies) {entry : Bytes}
    {observed : IpAddr} (h : Observes r entry observed) {hop hop' : Hop} {client client' : List Bytes}
    {headers headers' : Headers} (hlines : getAll forwardedFor headers = hop.lines client entry)
    (hlines' : getAll forwardedFor headers' = hop'.lines client' entry) :
    loginSource r trustedProxies headers (some peer) = loginSource r trustedProxies headers' (some peer) ↔
      (ClientReads r hop client ↔ ClientReads r hop' client') ∨
        Source.ofIp (some observed) = .ofIp (some peer.ip) := by
  simp only [loginSource_eq, decidingAddress, Option.map_some, if_pos htrusted,
    forwarded_eq h hlines, forwarded_eq h hlines']
  by_cases hreads : ClientReads r hop client <;> by_cases hreads' : ClientReads r hop' client'
  · simp [hreads, hreads']
  · simp [hreads, hreads']
  · simp [hreads, hreads', eq_comm]
  · simp [hreads, hreads']

end Sharing

/-- What decides a request's source: no header without a trusted peer; behind
one, the address observed just where the client's own text does not spoil the
line it is on; and no two addresses but one IPv4 address, or two of one /64, share it. -/
theorem login_source_not_chosen_iff (r : Readers) (trustedProxies : List IpAddr) :
    (∀ peer : Option SocketAddr, (∀ addr ∈ peer, addr.ip ∉ trustedProxies) →
      ∀ headers headers', loginSource r trustedProxies headers peer =
        loginSource r trustedProxies headers' peer) ∧
    (∀ peer : SocketAddr, peer.ip ∈ trustedProxies → ∀ entry observed, Observes r entry observed →
      ∀ hop client client' headers headers',
        getAll forwardedFor headers = hop.lines client entry →
        getAll forwardedFor headers' = hop.lines client' entry →
        (loginSource r trustedProxies headers (some peer) =
            loginSource r trustedProxies headers' (some peer) ↔
          (ClientReads r hop client ↔ ClientReads r hop client') ∨
            Source.ofIp (some observed) = .ofIp (some peer.ip))) ∧
    ∀ peer peer' headers headers' a b,
      decidingAddress r trustedProxies headers peer = some a →
      decidingAddress r trustedProxies headers' peer' = some b →
      loginSource r trustedProxies headers peer = loginSource r trustedProxies headers' peer' →
        SameIpv4 a b ∨ SamePrefix a b := by
  refine ⟨?_, ?_, ?_⟩
  · intro peer hpeer headers headers'
    cases peer with
    | none => rfl
    | some addr =>
      have huntrusted := hpeer addr rfl
      simp [loginSource, huntrusted]
  · intro peer htrusted entry observed h hop client client' headers headers' hlines hlines'
    exact proxied_eq_iff htrusted h hlines hlines'
  · intro peer peer' headers headers' a b ha hb hsame
    rw [loginSource_eq, loginSource_eq, ha, hb] at hsame
    exact share_of_ofIp hsame

/-! ### A request behind one proxy -/

def loopback : IpAddr := .v4 ![127, 0, 0, 1]

def peerSeen : IpAddr := .v4 ![203, 0, 113, 7]

/-- What a proxy appends after its comma: a space and the address. -/
def peerEntry : Bytes := [32, 50, 48, 51, 46, 48, 46, 49, 49, 51, 46, 55]

theorem comma_visible : (fun b : UInt8 => decide (32 ≤ b ∧ b < 127) || b == 9) comma = true := by
  decide

/-- Readers that read one address, as the library does. -/
def readers : Readers where
  visible b := decide (32 ≤ b ∧ b < 127) || b == 9
  parse t := if t = "203.0.113.7".toList then some peerSeen else none
  visible_comma := comma_visible

theorem peerEntry_observes : Observes readers peerEntry peerSeen where
  one := by decide
  visible := by decide
  parse := by decide

def proxied (lines : List Bytes) : Headers := lines.map fun line => (forwardedFor, line)

/-- A forged entry before the proxy's moves nothing. -/
theorem forged_entry_ignored :
    loginSource readers [loopback] (proxied (Hop.appends.lines [[49, 46, 50]] peerEntry))
        (some ⟨loopback, 443⟩) =
      loginSource readers [loopback] (proxied (Hop.appends.lines [] peerEntry)) (some ⟨loopback, 443⟩) := by
  have hboth := (login_source_not_chosen_iff readers [loopback]).2.1 ⟨loopback, 443⟩ (by decide) peerEntry
    peerSeen peerEntry_observes .appends [[49, 46, 50]] [] (proxied (Hop.appends.lines [[49, 46, 50]] peerEntry))
    (proxied (Hop.appends.lines [] peerEntry)) (by decide) (by decide)
  refine hboth.mpr (.inl (iff_of_true ?_ ?_))
  · intro _ last hlast
    obtain rfl := Option.some.inj hlast
    decide
  · intro _ last hlast
    cases hlast

/-- A byte that is no text, in the client's part of the line, moves the request
from the address observed to the proxy's own. -/
theorem byte_moves_source :
    loginSource readers [loopback] (proxied (Hop.appends.lines [[0xFF]] peerEntry))
        (some ⟨loopback, 443⟩) ≠
      loginSource readers [loopback] (proxied (Hop.appends.lines [[97]] peerEntry))
        (some ⟨loopback, 443⟩) := by
  decide

end ShareTracker.LoginSource
