import ShareTracker.CredentialRedaction
import ShareTracker.LoginSource
import ShareTracker.Lib.DecimalText
import ShareTracker.Lib.EventTrace

/-!
Where a request came from: which of a browser's requests the guard in front of
the routes hands on, and under which names the server answers.
-/
namespace ShareTracker.Requests
open LoginSource (Bytes Headers getAll ofAscii toStr)

/-! ### The guard -/

inductive AuthMode
  | required
  | openToAll
  deriving DecidableEq

inductive Method
  | get
  | head
  | options
  | post
  | put
  | delete
  | patch
  | connect
  | trace
  | extension (name : List Char)
  deriving DecidableEq

/-- The methods that never write. -/
def Method.isSafe : Method → Bool
  | .get | .head | .options => true
  | _ => false

/-- A request: what the guard reads of it, and the rest. -/
structure Request (β : Type*) where
  method : Method
  headers : Headers
  content : β

def hostHeader : List Char := "host".toList
def secFetchSite : List Char := "sec-fetch-site".toList
def originHeader : List Char := "origin".toList

def localhost : List Char := "localhost".toList
def sameOrigin : List Char := "same-origin".toList
def sameSite : List Char := "same-site".toList
def crossSite : List Char := "cross-site".toList
def noSite : List Char := "none".toList
def nullOrigin : List Char := "null".toList

/-- The header readers, by which printable ASCII has a text. -/
structure Readers extends LoginSource.Readers where
  visible_printable : ∀ b : UInt8, 32 < b → b < 127 → visible b = true

inductive Refusal
  | unknownName (name : List Char)
  | crossSite (source : List Char)
  deriving DecidableEq

def Refusal.message : Refusal → String
  | .unknownName name =>
    let name := String.ofList name
    "this server does not answer to the name '" ++ name ++ "': with no [auth] configured it " ++
      "serves only localhost, IP addresses, and the names listed in the config file's " ++
      "allowed_hosts (a guard against DNS rebinding) — add \"" ++ name ++ "\" to allowed_hosts " ++
      "to reach it by that name"
  | .crossSite source =>
    "refused a cross-site request (" ++ String.ofList source ++ "): a write must come from this " ++
      "application's own pages or from a client that is not a browser"

/-- The first value of a header. -/
def header (name : List Char) (headers : Headers) : Option Bytes := (getAll name headers).head?

def lower (s : List Char) : List Char := s.map Char.toLower

/-- The text before the last separator, and after it. -/
def rsplitOnce (sep : Char) (s : List Char) : Option (List Char × List Char) :=
  (Text.splitOnce sep s.reverse).map fun parts => (parts.2.reverse, parts.1.reverse)

def withoutPort (raw : List Char) : List Char :=
  match rsplitOnce ':' raw with
  | some (name, port) => if port.all Char.isDigit then name else raw
  | none => raw

def withoutBrackets : List Char → List Char
  | '[' :: rest => rest.takeWhile (· != ']')
  | raw => withoutPort raw

def normaliseHost (raw : List Char) : List Char :=
  lower ((withoutBrackets (Text.trim raw)).rdropWhile (· == '.'))

/-- No allowed names where a credential is asked for: any name is answered to. -/
structure RequestGuard where
  allowedHosts : Option (List (List Char))

def RequestGuard.new (mode : AuthMode) (allowedHosts : List (List Char)) : RequestGuard where
  allowedHosts := if mode = .required then none else some (allowedHosts.map normaliseHost)

section Guard
variable (r : Readers)

def nameAllowed (name : List Char) (allowed : List (List Char)) : Bool :=
  name == localhost || (r.parse name).isSome || allowed.contains name

def hostAllowed (host : List Char) (allowed : List (List Char)) : Bool :=
  nameAllowed r (normaliseHost host) allowed

/-- Whether an `Origin` header names the request's own host. -/
def namesHost (origin : List Char) (host : Option (List Char)) : Bool :=
  ((CredentialRedaction.findSeparator origin).map Prod.snd).any fun authority =>
    host.any fun host => lower authority == lower (Text.trim host)

def siteRefusal (value : Bytes) : Option Refusal :=
  let site := (toStr r.toReaders value).getD []
  if site = sameOrigin ∨ site = noSite then none
  else some (.crossSite ("Sec-Fetch-Site: ".toList ++ site))

def originRefusal (host : Option (List Char)) (value : Bytes) : Option Refusal :=
  let origin := (toStr r.toReaders value).getD nullOrigin
  if namesHost origin host then none else some (.crossSite ("Origin: ".toList ++ origin))

def crossSiteRefusal (headers : Headers) (host : Option (List Char)) : Option Refusal :=
  match header secFetchSite headers with
  | some value => siteRefusal r value
  | none => (header originHeader headers).bind (originRefusal r host)

/-- A name the server does not answer to. -/
def RequestGuard.unknownName (g : RequestGuard) (host : Option (List Char)) : Option (List Char) :=
  match g.allowedHosts, host with
  | some allowed, some host => if hostAllowed r host allowed then none else some (normaliseHost host)
  | _, _ => none

def RequestGuard.refusal {β : Type*} (g : RequestGuard) (req : Request β) : Option Refusal :=
  let host := (header hostHeader req.headers).bind (toStr r.toReaders)
  match g.unknownName r host with
  | some name => some (.unknownName name)
  | none => if req.method.isSafe then none else crossSiteRefusal r req.headers host

/-- The guard around an application: a refused request does not reach it. -/
def RequestGuard.guard {β σ ρ : Type*} (g : RequestGuard) (app : σ → Request β → σ × ρ) (s : σ)
    (req : Request β) : σ × Except Refusal ρ :=
  match g.refusal r req with
  | some reason => (s, .error reason)
  | none => ((app s req).1, .ok (app s req).2)

end Guard

/-! ### What browsers send -/

/-- Printable, and no bracket. -/
def isHostChar (c : Char) : Bool :=
  decide (32 < c.toNat) && decide (c.toNat < 127) && c != '[' && c != ']'

/-- A registered name or an IPv4 address, or in brackets an IPv6 address. -/
structure HostName where
  text : List Char
  bracketed : Bool
  chars : ∀ c ∈ text, isHostChar c = true
  colons : bracketed = false → ':' ∉ text
  deriving DecidableEq

def HostName.written (h : HostName) : List Char :=
  if h.bracketed then '[' :: (h.text ++ [']']) else h.text

/-- Its name whatever its letters and a root dot. -/
def HostName.bare (h : HostName) : List Char := lower (h.text.rdropWhile (· == '.'))

/-- A web origin; the scheme's own port is not written. -/
structure Origin where
  scheme : List Char
  host : HostName
  port : Option ℕ
  scheme_chars : ∀ c ∈ scheme, isHostChar c = true ∧ c ≠ ':'
  deriving DecidableEq

def portText (port : Option ℕ) : List Char := port.elim [] fun p => ':' :: Nat.toDigits 10 p

def Origin.authority (o : Origin) : List Char := o.host.written ++ portText o.port

def Origin.text (o : Origin) : List Char :=
  o.scheme ++ (CredentialRedaction.separator ++ o.authority)

/-- A program, the user's own navigation, or a page: a sandboxed one has no origin. -/
inductive Sender
  | client
  | user
  | page (origin : Option Origin)
  deriving DecidableEq

def guardedNames : List (List Char) := [hostHeader, secFetchSite, originHeader]

/-- A request as its sender makes it. No page sets the headers the guard reads: the
browser does. A program is taken to send no `Origin` or `Sec-Fetch-Site` of its own. -/
structure Sent (β : Type*) where
  method : Method
  target : Origin
  sender : Sender
  /-- The browser says how the page is related to the target. -/
  metadata : Bool
  others : Headers
  content : β
  others_apart : ∀ h ∈ others, h.1 ∉ guardedNames

def bytesOf (s : List Char) : Bytes := s.map fun c => UInt8.ofNat c.toNat

section Browser
variable {β : Type*} (related : Origin → Origin → Bool)

def siteOf (target : Origin) : Option Origin → List Char
  | none => crossSite
  | some o => if o = target then sameOrigin else if related o target then sameSite else crossSite

def originText (origin : Option Origin) : List Char := origin.elim nullOrigin Origin.text

def Sent.provenance (q : Sent β) : Headers :=
  match q.sender with
  | .client => []
  | .user => if q.metadata then [(secFetchSite, bytesOf noSite)] else []
  | .page origin =>
    (if q.metadata then [(secFetchSite, bytesOf (siteOf related q.target origin))] else []) ++
      [(originHeader, bytesOf (originText origin))]

def Sent.request (q : Sent β) : Request β where
  method := q.method
  headers := q.others ++ (hostHeader, bytesOf q.target.authority) :: q.provenance related
  content := q.content

end Browser

/-! ### Whose requests they are -/

section Whose
variable {β : Type*}

/-- Not a page's, or one of the target's own pages': by its origin where the
browser compares it, by its authority where the server does. -/
def Sent.own (q : Sent β) : Bool :=
  match q.sender with
  | .page origin =>
    if q.metadata then decide (origin = some q.target)
    else origin.any fun o => lower o.authority == lower q.target.authority
  | _ => true

/-- The server answers to the name. -/
def RequestGuard.named (r : Readers) (g : RequestGuard) (host : HostName) : Bool :=
  g.allowedHosts.all fun allowed => nameAllowed r host.bare allowed

def Sent.handedOn (r : Readers) (g : RequestGuard) (q : Sent β) : Bool :=
  g.named r q.target.host && (q.method.isSafe || q.own)

end Whose

/-! ### Letters and separators -/

section Texts
variable {c : Char} {s : List Char}

theorem toLower_cases (c : Char) :
    c.toLower = c ∨ 65 ≤ c.toNat ∧ c.toNat ≤ 90 ∧ c.toLower.toNat = c.toNat + 32 := by
  unfold Char.toLower
  split
  · rename_i h
    obtain ⟨hlow, hhigh⟩ := h
    have hlow' : 65 ≤ c.toNat := UInt32.le_iff_toNat_le.mp hlow
    have hhigh' : c.toNat ≤ 90 := UInt32.le_iff_toNat_le.mp hhigh
    refine .inr ⟨hlow', hhigh', ?_⟩
    change (c.val + ('a'.val - 'A'.val)).toNat = c.val.toNat + 32
    rw [UInt32.toNat_add, Nat.mod_eq_of_lt]
    · rfl
    · change c.toNat + 32 < 2 ^ 32
      omega
  · exact .inl rfl

/-- A character no letter is lowered to stays what it is. -/
theorem toLower_eq_iff {d : Char} (hd : d.toNat < 65 ∨ 122 < d.toNat ∨ 90 < d.toNat ∧ d.toNat < 97) :
    c.toLower = d ↔ c = d := by
  rcases toLower_cases c with h | ⟨hlow, hhigh, h⟩
  · rw [h]
  · constructor
    · intro heq
      rw [heq] at h
      omega
    · intro heq
      rw [heq] at hlow hhigh
      omega

theorem toLower_toLower (c : Char) : c.toLower.toLower = c.toLower := by
  rcases toLower_cases c.toLower with h | ⟨hlow, hhigh, -⟩
  · exact h
  · rcases toLower_cases c with h | ⟨hlow', hhigh', h⟩
    · rw [h, h]
    · omega

theorem lower_lower (s : List Char) : lower (lower s) = lower s := by
  rw [lower, lower, List.map_map]
  exact List.map_congr_left fun c _ => toLower_toLower c

def Printable (s : List Char) : Prop := ∀ c ∈ s, 32 < c.toNat ∧ c.toNat < 127

instance decidablePrintable (s : List Char) : Decidable (Printable s) := List.decidableBAll _ s

theorem Printable.append {t : List Char} (hs : Printable s) (ht : Printable t) : Printable (s ++ t) :=
  fun c hc => (List.mem_append.mp hc).elim (hs c) (ht c)

theorem isHostChar_iff : isHostChar c = true ↔
    (32 < c.toNat ∧ c.toNat < 127) ∧ c ≠ '[' ∧ c ≠ ']' := by
  simp [isHostChar, and_assoc]

theorem not_whitespace (h : 32 < c.toNat ∧ c.toNat < 127) : Text.isWhitespace c = false := by
  obtain ⟨hlow, hhigh⟩ := h
  simp [Text.isWhitespace]
  omega

theorem trim_eq_self (hs : Printable s) : Text.trim s = s := by
  have h : ∀ c ∈ s, Text.isWhitespace c = false := fun c hc => not_whitespace (hs c hc)
  have hstart : Text.trimStart s = s := by
    cases s with
    | nil => rfl
    | cons c s => exact List.dropWhile_cons_of_neg (by simp [h c List.mem_cons_self])
  rw [Text.trim, hstart, Text.trimEnd, List.rdropWhile_eq_self_iff]
  intro hne
  simp [h _ (List.getLast_mem hne)]

theorem rsplitOnce_append {sep : Char} {b : List Char} (h : sep ∉ b) (a : List Char) :
    rsplitOnce sep (a ++ sep :: b) = some (a, b) := by
  have hreverse : (a ++ sep :: b).reverse = b.reverse ++ sep :: a.reverse := by
    rw [List.reverse_append, List.reverse_cons, List.append_assoc, List.singleton_append]
  rw [rsplitOnce, hreverse, Text.splitOnce_append (mt List.mem_reverse.mp h), Option.map_some,
    List.reverse_reverse, List.reverse_reverse]

theorem rsplitOnce_of_notMem {sep : Char} (h : sep ∉ s) : rsplitOnce sep s = none := by
  rw [rsplitOnce, Option.map_eq_none_iff, Option.eq_none_iff_forall_ne_some]
  intro parts hparts
  obtain ⟨htext, -⟩ := Text.splitOnce_some hparts
  exact h (List.mem_reverse.mp (htext ▸ List.mem_append_right _ List.mem_cons_self))

/-- A text of printable ASCII is read from its bytes as it is. -/
theorem toStr_bytesOf (r : Readers) (h : Printable s) :
    toStr r.toReaders (bytesOf s) = some s := by
  have hbyte : ∀ c ∈ s, (UInt8.ofNat c.toNat).toNat = c.toNat := by
    intro c hc
    have hlt := (h c hc).2
    refine UInt8.toNat_ofNat_of_lt ?_
    change c.toNat < 256
    omega
  have hvisible : (bytesOf s).all r.visible = true := by
    refine List.all_eq_true.mpr fun b hb => ?_
    obtain ⟨c, hc, rfl⟩ := List.mem_map.mp hb
    obtain ⟨hlow, hhigh⟩ := h c hc
    refine r.visible_printable _ ?_ ?_
    · rw [UInt8.lt_iff_toNat_lt, hbyte c hc]
      exact hlow
    · rw [UInt8.lt_iff_toNat_lt, hbyte c hc]
      exact hhigh
  have htext : ofAscii (bytesOf s) = s := by
    rw [ofAscii, bytesOf, List.map_map]
    calc s.map _ = s.map id := List.map_congr_left fun c hc => by
          change Char.ofNat (UInt8.ofNat c.toNat).toNat = c
          rw [hbyte c hc, Char.ofNat_toNat]
      _ = s := List.map_id s
  rw [LoginSource.toStr_of_visible hvisible, htext]

end Texts

/-! ### Host names -/

section Hosts

theorem digit_plain {c : Char} (h : c.isDigit = true) :
    (32 < c.toNat ∧ c.toNat < 127) ∧ c ≠ ':' ∧ c ≠ '[' ∧ c.toLower = c := by
  have hrange : 48 ≤ c.toNat ∧ c.toNat ≤ 57 := by
    simp only [Char.isDigit, Bool.and_eq_true, decide_eq_true_eq] at h
    exact ⟨UInt32.le_iff_toNat_le.mp h.1, UInt32.le_iff_toNat_le.mp h.2⟩
  refine ⟨by omega, ?_, ?_, ?_⟩
  · rintro rfl
    exact absurd hrange (by decide)
  · rintro rfl
    exact absurd hrange (by decide)
  · rcases toLower_cases c with hlower | ⟨hlow, -, -⟩
    · exact hlower
    · omega

/-- A port is a colon and digits. -/
theorem mem_portText {c : Char} {port : Option ℕ} (h : c ∈ portText port) :
    c = ':' ∨ c.isDigit = true := by
  cases port with
  | none => cases h
  | some p =>
    rcases List.mem_cons.mp h with rfl | h
    · exact .inl rfl
    · exact .inr (DecimalText.digits_toDigits p c h)

theorem portText_plain {c : Char} {port : Option ℕ} (h : c ∈ portText port) :
    (32 < c.toNat ∧ c.toNat < 127) ∧ c ≠ '[' ∧ c.toLower = c := by
  rcases mem_portText h with rfl | h
  · decide
  · obtain ⟨hrange, -, hopen, hlower⟩ := digit_plain h
    exact ⟨hrange, hopen, hlower⟩

theorem written_printable (h : HostName) : Printable h.written := by
  have htext : Printable h.text := fun c hc => (isHostChar_iff.mp (h.chars c hc)).1
  unfold HostName.written
  split
  · intro c hc
    rcases List.mem_cons.mp hc with rfl | hc
    · decide
    · exact htext.append (by simp [Printable]) c hc
  · exact htext

theorem address_printable (h : HostName) (port : Option ℕ) : Printable (h.written ++ portText port) :=
  (written_printable h).append fun _ hc => (portText_plain hc).1

theorem withoutBrackets_of_notMem {s : List Char} (h : '[' ∉ s) :
    withoutBrackets s = withoutPort s := by
  cases s with
  | nil => rfl
  | cons c s =>
    unfold withoutBrackets
    split
    · rename_i heq
      obtain ⟨rfl, -⟩ := List.cons.inj heq
      exact absurd List.mem_cons_self h
    · rfl

theorem withoutPort_name {text : List Char} (h : ':' ∉ text) (port : Option ℕ) :
    withoutPort (text ++ portText port) = text := by
  cases port with
  | none =>
    rw [portText, Option.elim_none, List.append_nil, withoutPort, rsplitOnce_of_notMem h]
  | some p =>
    have hdigits := DecimalText.digits_toDigits p
    have hcolon : ':' ∉ Nat.toDigits 10 p := hdigits.not_mem (by decide)
    rw [portText, Option.elim_some, withoutPort, rsplitOnce_append hcolon]
    exact if_pos (List.all_eq_true.mpr hdigits)

/-- A host as a browser writes it is its bare name, whatever its port. -/
theorem normaliseHost_written (h : HostName) (port : Option ℕ) :
    normaliseHost (h.written ++ portText port) = h.bare := by
  have hname : withoutBrackets (h.written ++ portText port) = h.text := by
    cases hbracketed : h.bracketed with
    | true =>
      have hkept : ∀ c ∈ h.text, (c != ']') = true := fun c hc =>
        bne_iff_ne.mpr (isHostChar_iff.mp (h.chars c hc)).2.2
      rw [HostName.written, if_pos hbracketed, List.cons_append, withoutBrackets, List.append_assoc,
        List.takeWhile_append_of_pos hkept, List.singleton_append,
        List.takeWhile_cons_of_neg (by decide), List.append_nil]
    | false =>
      have hopen : '[' ∉ h.text ++ portText port := by
        intro hmem
        rcases List.mem_append.mp hmem with hmem | hmem
        · exact (isHostChar_iff.mp (h.chars _ hmem)).2.1 rfl
        · exact (portText_plain hmem).2.1 rfl
      rw [HostName.written, if_neg (by simp [hbracketed]), withoutBrackets_of_notMem hopen,
        withoutPort_name (h.colons hbracketed)]
  rw [normaliseHost, trim_eq_self (address_printable h port), hname]
  rfl

theorem chars_lowered (h : HostName) : ∀ c ∈ lower h.text, isHostChar c = true := by
  intro c hc
  obtain ⟨d, hd, rfl⟩ := List.mem_map.mp hc
  obtain ⟨⟨hlow, hhigh⟩, hopen, hclose⟩ := isHostChar_iff.mp (h.chars d hd)
  refine isHostChar_iff.mpr ⟨?_, mt (toLower_eq_iff (by decide)).mp hopen,
    mt (toLower_eq_iff (by decide)).mp hclose⟩
  rcases toLower_cases d with heq | ⟨hupper, htop, heq⟩
  · rw [heq]
    exact ⟨hlow, hhigh⟩
  · rw [heq]
    omega

theorem colons_lowered (h : HostName) (hbracketed : h.bracketed = false) : ':' ∉ lower h.text := by
  intro hmem
  obtain ⟨d, hd, hcolon⟩ := List.mem_map.mp hmem
  exact h.colons hbracketed ((toLower_eq_iff (by decide)).mp hcolon ▸ hd)

def HostName.lowered (h : HostName) : HostName where
  text := lower h.text
  bracketed := h.bracketed
  chars := chars_lowered h
  colons := colons_lowered h

theorem bare_lowered (h : HostName) : h.lowered.bare = h.bare := by
  have hdots : ((· == '.') ∘ Char.toLower : Char → Bool) = (· == '.') := by
    funext c
    exact Bool.eq_iff_iff.mpr (by simp [toLower_eq_iff (c := c) (d := '.') (by decide)])
  have hmap : (lower h.text).rdropWhile (· == '.') = lower (h.text.rdropWhile (· == '.')) := by
    rw [List.rdropWhile, List.rdropWhile, lower, lower, ← List.map_reverse, List.dropWhile_map, hdots,
      List.map_reverse]
  change lower ((lower h.text).rdropWhile (· == '.')) = _
  rw [hmap, lower_lower]
  rfl

theorem lower_address (h : HostName) (port : Option ℕ) :
    lower (h.written ++ portText port) = h.lowered.written ++ portText port := by
  have hport : lower (portText port) = portText port := by
    calc lower (portText port) = (portText port).map id :=
          List.map_congr_left fun c hc => (portText_plain hc).2.2
      _ = portText port := List.map_id _
  have hhost : lower h.written = h.lowered.written := by
    unfold HostName.written
    cases hbracketed : h.bracketed with
    | true =>
      rw [if_pos rfl, if_pos (show h.lowered.bracketed = true from hbracketed), lower, List.map_cons,
        List.map_append]
      rfl
    | false =>
      rw [if_neg Bool.false_ne_true, if_neg (by simp [HostName.lowered, hbracketed])]
      rfl
  rw [lower, List.map_append]
  exact congrArg₂ _ hhost hport

/-- Authorities that differ in case alone are of one name. -/
theorem bare_eq_of_lower {a b : Origin} (h : lower a.authority = lower b.authority) :
    a.host.bare = b.host.bare := by
  have hname : ∀ o : Origin, normaliseHost (lower o.authority) = o.host.bare := by
    intro o
    rw [Origin.authority, lower_address, normaliseHost_written, bare_lowered]
  rw [← hname a, ← hname b, h]

end Hosts

/-! ### What the guard reads of a browser's request -/

section Reads
variable {β : Type*} (r : Readers) (related : Origin → Origin → Bool)

theorem header_nil (name : List Char) : header name [] = none := rfl

theorem header_cons_same (name : List Char) (value : Bytes) (rest : Headers) :
    header name ((name, value) :: rest) = some value := by
  simp [header, getAll]

theorem header_cons_apart {n name : List Char} (h : n ≠ name) (value : Bytes) (rest : Headers) :
    header name ((n, value) :: rest) = header name rest := by
  simp [header, getAll, h]

theorem header_others {others : Headers} (h : ∀ p ∈ others, p.1 ∉ guardedNames) {name : List Char}
    (hname : name ∈ guardedNames) (rest : Headers) :
    header name (others ++ rest) = header name rest := by
  have hnone : getAll name others = [] := by
    refine List.filterMap_eq_nil_iff.mpr fun p hp => if_neg fun heq => h p hp ?_
    rw [heq]
    exact hname
  rw [header, header, getAll, List.filterMap_append]
  change (getAll name others ++ getAll name rest).head? = _
  rw [hnone, List.nil_append]

theorem host_sent (q : Sent β) :
    (header hostHeader (q.request related).headers).bind (toStr r.toReaders) =
      some q.target.authority := by
  rw [Sent.request, header_others q.others_apart (by simp [guardedNames]), header_cons_same,
    Option.bind_some, Origin.authority, toStr_bytesOf r (address_printable _ _)]

/-- The guard's other two headers are as the browser sets them. -/
theorem header_sent (q : Sent β) {name : List Char} (hname : name ∈ guardedNames)
    (hhost : hostHeader ≠ name) :
    header name (q.request related).headers = header name (q.provenance related) := by
  rw [Sent.request, header_others q.others_apart hname, header_cons_apart hhost]

theorem fetchSite_apart : hostHeader ≠ secFetchSite := by decide

theorem origin_apart : hostHeader ≠ originHeader := by decide

theorem fetchSite_origin_apart : originHeader ≠ secFetchSite := by decide

/-- Only a target's own page is told to be of the same origin, and none to be of no site. -/
theorem siteOf_own (target : Origin) (origin : Option Origin) :
    siteOf related target origin = sameOrigin ∨ siteOf related target origin = noSite ↔
      origin = some target := by
  have hcross : ¬(crossSite = sameOrigin ∨ crossSite = noSite) := by decide
  have hsame : ¬(sameSite = sameOrigin ∨ sameSite = noSite) := by decide
  cases origin with
  | none => exact iff_of_false hcross nofun
  | some o =>
    rw [siteOf]
    by_cases ho : o = target
    · rw [if_pos ho, ho]
      exact iff_of_true (.inl rfl) rfl
    · rw [if_neg ho]
      refine iff_of_false ?_ fun h => ho (Option.some.inj h)
      split
      · exact hsame
      · exact hcross

theorem siteOf_printable (target : Origin) (origin : Option Origin) :
    Printable (siteOf related target origin) := by
  have hown : Printable sameOrigin := by decide
  have hsame : Printable sameSite := by decide
  have hcross : Printable crossSite := by decide
  cases origin with
  | none => exact hcross
  | some o =>
    rw [siteOf]
    split
    · exact hown
    · split
      · exact hsame
      · exact hcross

theorem originText_printable (origin : Option Origin) : Printable (originText origin) := by
  cases origin with
  | none =>
    change Printable nullOrigin
    decide
  | some o =>
    have hscheme : Printable o.scheme := fun c hc => (isHostChar_iff.mp (o.scheme_chars c hc).1).1
    have hseparator : Printable CredentialRedaction.separator := by decide
    exact hscheme.append (hseparator.append (address_printable _ _))

/-- A scheme ends at the first separator. -/
theorem findSeparator_scheme {scheme : List Char} (h : ':' ∉ scheme) (rest : List Char) :
    (CredentialRedaction.findSeparator (scheme ++ (CredentialRedaction.separator ++ rest))).map
      Prod.snd = some rest := by
  induction scheme with
  | nil =>
    change (CredentialRedaction.findSeparator (':' :: '/' :: '/' :: rest)).map Prod.snd = _
    have hprefix : CredentialRedaction.separator <+: ':' :: '/' :: '/' :: rest := ⟨rest, rfl⟩
    rw [CredentialRedaction.findSeparator, if_pos hprefix]
    rfl
  | cons c scheme ih =>
    have hc : ¬CredentialRedaction.separator <+: c :: (scheme ++ (CredentialRedaction.separator ++ rest)) := by
      rintro ⟨t, ht⟩
      exact h ((List.cons.inj ht).1 ▸ List.mem_cons_self)
    rw [List.cons_append, CredentialRedaction.findSeparator, if_neg hc, Option.map_map]
    exact ih fun hmem => h (List.mem_cons_of_mem c hmem)

theorem namesHost_sent (target : Origin) (origin : Option Origin) :
    namesHost (originText origin) (some target.authority) =
      origin.any fun o => lower o.authority == lower target.authority := by
  cases origin with
  | none => rfl
  | some o =>
    have hcolon : ':' ∉ o.scheme := fun hmem => (o.scheme_chars _ hmem).2 rfl
    rw [namesHost, originText, Option.elim_some, Origin.text, findSeparator_scheme hcolon]
    simp only [Option.any_some, Origin.authority, trim_eq_self (address_printable _ _)]

theorem siteRefusal_sent (target : Origin) (origin : Option Origin) :
    (siteRefusal r (bytesOf (siteOf related target origin))).isNone = decide (origin = some target) := by
  rw [siteRefusal, toStr_bytesOf r (siteOf_printable related target origin), Option.getD_some]
  by_cases hown : origin = some target
  · rw [if_pos ((siteOf_own related target origin).mpr hown), decide_eq_true hown]
    rfl
  · rw [if_neg (mt (siteOf_own related target origin).mp hown), decide_eq_false hown]
    rfl

theorem originRefusal_sent (target : Origin) (origin : Option Origin) :
    (originRefusal r (some target.authority) (bytesOf (originText origin))).isNone =
      origin.any fun o => lower o.authority == lower target.authority := by
  rw [originRefusal, toStr_bytesOf r (originText_printable origin), Option.getD_some,
    ← namesHost_sent]
  cases namesHost (originText origin) (some target.authority) with
  | true => rfl
  | false => rfl

/-- The guard tells a page's own requests from another's. -/
theorem crossSiteRefusal_sent (q : Sent β) :
    (crossSiteRefusal r (q.request related).headers (some q.target.authority)).isNone = q.own := by
  unfold crossSiteRefusal Sent.own
  rw [header_sent related q (by simp [guardedNames]) fetchSite_apart,
    header_sent related q (by simp [guardedNames]) origin_apart, Sent.provenance]
  cases q.sender with
  | client => rfl
  | user =>
    dsimp only
    cases q.metadata with
    | true =>
      have hsite : toStr r.toReaders (bytesOf noSite) = some noSite :=
        toStr_bytesOf r (by decide)
      rw [if_pos rfl, header_cons_same]
      dsimp only
      rw [siteRefusal, hsite, Option.getD_some, if_pos (.inr rfl)]
      rfl
    | false => rfl
  | page origin =>
    dsimp only
    cases q.metadata with
    | true =>
      rw [if_pos rfl, if_pos rfl, List.singleton_append, header_cons_same]
      exact siteRefusal_sent r related q.target origin
    | false =>
      rw [if_neg Bool.false_ne_true, if_neg Bool.false_ne_true, List.nil_append,
        header_cons_apart fetchSite_origin_apart, header_nil, header_cons_same]
      exact originRefusal_sent r q.target origin

/-- What a browser's request is refused for: the name it asks for, or a write of
another site's page. -/
theorem refusal_sent (g : RequestGuard) (q : Sent β) :
    (g.refusal r (q.request related)).isNone = q.handedOn r g := by
  have hname : (g.unknownName r (some q.target.authority)).isNone = g.named r q.target.host := by
    unfold RequestGuard.unknownName RequestGuard.named
    cases g.allowedHosts with
    | none => rfl
    | some allowed =>
      rw [Option.all_some]
      dsimp only
      rw [hostAllowed, Origin.authority, normaliseHost_written]
      cases nameAllowed r q.target.host.bare allowed with
      | true => rfl
      | false => rfl
  rw [RequestGuard.refusal, host_sent, Sent.handedOn, ← hname]
  cases g.unknownName r (some q.target.authority) with
  | some name => rfl
  | none =>
    dsimp only
    rw [← crossSiteRefusal_sent r related q]
    change (if q.method.isSafe = true then none else _).isNone = _
    cases q.method.isSafe with
    | true => rfl
    | false => rfl

end Reads

/-! ### Runs of requests -/

section Runs
variable {β σ ρ : Type*} (r : Readers) (related : Origin → Origin → Bool) (g : RequestGuard)
  (app : σ → Request β → σ × ρ)

/-- The application's state after a run of requests. -/
def RequestGuard.stateAfter (s : σ) (reqs : List (Request β)) : σ :=
  reqs.foldl (fun s req => (g.guard r app s req).1) s

/-- One request either is the application's to answer, or changes nothing. -/
theorem guard_sent (s : σ) (q : Sent β) :
    (g.guard r app s (q.request related)).1 =
        (if q.handedOn r g then (app s (q.request related)).1 else s) ∧
      (g.guard r app s (q.request related)).2.isOk = q.handedOn r g := by
  have hrefusal := refusal_sent r related g q
  unfold RequestGuard.guard
  cases hreason : g.refusal r (q.request related) with
  | some reason =>
    rw [hreason] at hrefusal
    rw [← hrefusal]
    exact ⟨rfl, rfl⟩
  | none =>
    rw [hreason] at hrefusal
    rw [← hrefusal]
    exact ⟨rfl, rfl⟩

theorem stateAfter_sent (sent : List (Sent β)) : ∀ s : σ,
    g.stateAfter r app s (sent.map (Sent.request related)) =
      ((sent.filter fun q => q.handedOn r g).map (Sent.request related)).foldl
        (fun s req => (app s req).1) s := by
  induction sent with
  | nil => exact fun _ => rfl
  | cons q sent ih =>
    intro s
    obtain ⟨hstate, -⟩ := guard_sent r related g app s q
    rw [RequestGuard.stateAfter, List.map_cons, List.foldl_cons, hstate]
    change g.stateAfter r app _ (sent.map (Sent.request related)) = _
    rw [ih]
    by_cases h : q.handedOn r g = true
    · rw [if_pos h, List.filter_cons_of_pos h, List.map_cons, List.foldl_cons]
    · rw [if_neg h, List.filter_cons_of_neg h]

theorem answers_sent (sent : List (Sent β)) : ∀ s : σ,
    (EventTrace.trace (g.guard r app) s (sent.map (Sent.request related))).map
        (fun m => m.answer.isOk) = sent.map fun q => q.handedOn r g := by
  induction sent with
  | nil => exact fun _ => rfl
  | cons q sent ih =>
    intro s
    rw [List.map_cons, EventTrace.trace, List.map_cons, List.map_cons, ih,
      (guard_sent r related g app s q).2]

/-- A page whose write is handed on is of the target's authority, and so of its name. -/
theorem own_of_handedOn {q : Sent β} (h : q.handedOn r g = true) (hwrites : q.method.isSafe = false)
    {origin : Option Origin} (hpage : q.sender = .page origin) :
    ∃ o, origin = some o ∧ lower o.authority = lower q.target.authority ∧
      o.host.bare = q.target.host.bare := by
  rw [Sent.handedOn, hwrites, Bool.false_or, Bool.and_eq_true] at h
  have hown := h.2
  simp only [Sent.own, hpage] at hown
  cases hmetadata : q.metadata with
  | true =>
    rw [hmetadata, if_pos rfl, decide_eq_true_iff] at hown
    exact ⟨q.target, hown, rfl, rfl⟩
  | false =>
    rw [hmetadata, if_neg Bool.false_ne_true, Option.any_eq_true] at hown
    obtain ⟨o, rfl, hauthority⟩ := hown
    have hlower : lower o.authority = lower q.target.authority := beq_iff_eq.mp hauthority
    exact ⟨o, rfl, hlower, bare_eq_of_lower hlower⟩

/-- The names a server that asks for no credential answers to. -/
def Answers (allowedHosts : List (List Char)) (host : HostName) : Prop :=
  host.bare = localhost ∨ (r.parse host.bare).isSome = true ∨
    host.bare ∈ allowedHosts.map normaliseHost

theorem answers_of_handedOn {allowedHosts : List (List Char)} {q : Sent β}
    (h : q.handedOn r (.new .openToAll allowedHosts) = true) : Answers r allowedHosts q.target.host := by
  have hnamed := (Bool.and_eq_true _ _ ▸ h : _ ∧ _).1
  simpa [Answers, RequestGuard.named, RequestGuard.new, nameAllowed, or_assoc] using hnamed

end Runs

/-- In every run of requests the application sees just those of its own pages, of
the user and of other programs, beside reads: no write of another site's page.
Where it asks for no credential it sees them under the names it answers to alone,
so a page whose name was pointed at the server after it loaded has no way in. -/
theorem only_own_requests_handed_on {β σ ρ : Type*} (r : Readers)
    (related : Origin → Origin → Bool) (mode : AuthMode) (allowedHosts : List (List Char))
    (app : σ → Request β → σ × ρ) (s : σ) (sent : List (Sent β)) :
    (RequestGuard.new mode allowedHosts).stateAfter r app s (sent.map (Sent.request related)) =
        ((sent.filter fun q => q.handedOn r (.new mode allowedHosts)).map
          (Sent.request related)).foldl (fun s req => (app s req).1) s ∧
      (EventTrace.trace ((RequestGuard.new mode allowedHosts).guard r app) s
          (sent.map (Sent.request related))).map (fun m => m.answer.isOk) =
        sent.map (fun q => q.handedOn r (.new mode allowedHosts)) ∧
      ∀ q ∈ sent, q.handedOn r (.new mode allowedHosts) = true →
        (mode = .openToAll → Answers r allowedHosts q.target.host) ∧
          (q.method.isSafe = false → ∀ origin, q.sender = .page origin → ∃ o, origin = some o ∧
            lower o.authority = lower q.target.authority ∧ o.host.bare = q.target.host.bare) := by
  refine ⟨stateAfter_sent r related _ app sent s, answers_sent r related _ app sent s, ?_⟩
  intro q _ h
  refine ⟨fun hmode => ?_, fun hwrites origin hpage => own_of_handedOn r _ h hwrites hpage⟩
  rw [hmode] at h
  exact answers_of_handedOn r h

/-! ### Four requests to a server on its own machine -/

theorem printable_visible (b : UInt8) (hlow : 32 < b) (hhigh : b < 127) :
    LoginSource.readers.visible b = true :=
  Bool.or_eq_true_iff.mpr (.inl (decide_eq_true ⟨UInt8.le_of_lt hlow, hhigh⟩))

def readers : Readers where
  toReaders := LoginSource.readers
  visible_printable := printable_visible

theorem localhost_chars : ∀ c ∈ localhost, isHostChar c = true :=
  List.all_eq_true.mp (by decide)

theorem localhost_colons (_ : false = false) : ':' ∉ localhost := by decide

def evilName : List Char := "evil.example".toList

theorem evil_chars : ∀ c ∈ evilName, isHostChar c = true := List.all_eq_true.mp (by decide)

theorem evil_colons (_ : false = false) : ':' ∉ evilName := by decide

def plainScheme : List Char := "http".toList

theorem plain_chars : ∀ c ∈ plainScheme, isHostChar c = true ∧ c ≠ ':' := by
  simp [plainScheme, isHostChar]

def ownOrigin : Origin :=
  ⟨plainScheme, ⟨localhost, false, localhost_chars, localhost_colons⟩, some 3000, plain_chars⟩

def evilOrigin : Origin :=
  ⟨plainScheme, ⟨evilName, false, evil_chars, evil_colons⟩, some 3000, plain_chars⟩

theorem no_others : ∀ h ∈ ([] : Headers), h.1 ∉ guardedNames := nofun

def sendTo (method : Method) (target page : Origin) (metadata : Bool) : Sent Unit :=
  ⟨method, target, .page (some page), metadata, [], (), no_others⟩

/-- The server's own page writes, another site's does not, and neither does that
site read once its name is pointed at the server. -/
example : [sendTo .post ownOrigin ownOrigin true, sendTo .post ownOrigin evilOrigin true,
    sendTo .post ownOrigin evilOrigin false, sendTo .get evilOrigin evilOrigin true].map
      (fun q => q.handedOn readers (.new .openToAll [])) = [true, false, false, false] := by
  decide

end ShareTracker.Requests
