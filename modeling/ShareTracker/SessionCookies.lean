import ShareTracker.Lib.Checked
import ShareTracker.Lib.Text

/-!
The signed session cookie: a username and an expiry, in hexadecimal, beside the
tag of the same bytes. The keyed hash and the reading of a stored password hash
are parameters, and so is the clock.
-/
namespace ShareTracker.Session
open Text

/-- Whole seconds since the epoch of an instant the system clock can hold. -/
structure UnixTime where
  secs : ℕ
  secs_lt : secs < 2 ^ 63

def sessionLifetimeSecs : ℕ := 30 * 24 * 60 * 60

def sessionContext : List UInt8 := asBytes "share-tracker session v1".toList

structure Auth where
  username : List Char
  passwordHash : List Char
  signingKey : List UInt8

variable (hmac : List UInt8 → List UInt8 → List UInt8)

def deriveSigningKey (passwordHash : List Char) : List UInt8 :=
  hmac (asBytes passwordHash) sessionContext

/-- A configured credential; `phc` is what is wrong with a stored password hash. -/
def Auth.new (phc : List Char → Option (List Char)) (username passwordHash : List Char) :
    Except (List Char) Auth :=
  match phc passwordHash with
  | some e => .error ("invalid auth.password_hash: ".toList ++ e)
  | none => .ok ⟨username, passwordHash, deriveSigningKey hmac passwordHash⟩

def hexEncode (bytes : List UInt8) : List Char := hexWith lowerDigit bytes

/-- Two characters read in base sixteen; the reader also takes a leading sign. -/
def fromStrRadix (a b : Char) : Option UInt8 :=
  if a = '+' then (hexVal b).map UInt8.ofNat
  else (hexVal a).bind fun x => (hexVal b).map fun y => UInt8.ofNat (16 * x + y)

def hexPairs : List Char → Option (List UInt8)
  | [] => some []
  | [_] => none
  | a :: b :: rest => (fromStrRadix a b).bind fun x => (hexPairs rest).map fun xs => x :: xs

def hexDecode (s : List Char) : Option (List UInt8) :=
  if !(s.all fun c => (hexVal c).isSome) || !decide (s.length % 2 = 0) then none else hexPairs s

namespace Auth

def sign (a : Auth) (payload : List Char) : List Char :=
  hexEncode (asBytes payload) ++ '.' :: hexEncode (hmac a.signingKey (asBytes payload))

def mintCookie (a : Auth) (now : UnixTime) : List Char :=
  a.sign hmac (a.username ++ '|' :: Nat.toDigits 10 (now.secs + sessionLifetimeSecs))

/-- The bytes a cookie and its tag spell. -/
def parts (cookie : List Char) : Option (List UInt8 × List UInt8) :=
  (splitOnce '.' cookie).bind fun halves =>
    (hexDecode halves.1).bind fun payload => (hexDecode halves.2).map fun tag => (payload, tag)

/-- The username and the expiry that a payload states. -/
def stated (payload : List UInt8) : Option (List Char × ℕ) :=
  (fromUtf8 payload).bind fun text => (splitOnce '|' text).bind fun fields =>
    (parseUnsigned 64 fields.2).map fun expiry => (fields.1, expiry)

def verifyCookie (a : Auth) (now : UnixTime) (cookie : List Char) : Bool :=
  match parts cookie with
  | none => false
  | some (payload, tag) =>
    if hmac a.signingKey payload ≠ tag then false
    else
      match stated payload with
      | none => false
      | some (username, expiry) => decide (username = a.username) && decide (now.secs < expiry)

/-- The cookie minted at that time verifies until it expires, and not from then on. -/
def RoundTrips (a : Auth) (issued : UnixTime) : Prop :=
  ∀ now : UnixTime, a.verifyCookie hmac now (a.mintCookie hmac issued) = true ↔
    now.secs < issued.secs + sessionLifetimeSecs

/-- No two cookies that verify spell the same payload. -/
def SpelledOnce (a : Auth) (payload : List UInt8) : Prop :=
  ∀ (now : UnixTime) (c c' : List Char),
    a.verifyCookie hmac now c = true → a.verifyCookie hmac now c' = true →
    (parts c).map Prod.fst = some payload → (parts c').map Prod.fst = some payload → c = c'

/-- A payload that names the user and some time to expire at. -/
def Names (a : Auth) (payload : List UInt8) : Prop :=
  ∃ expiry, stated payload = some (a.username, expiry) ∧ 0 < expiry

variable {hmac}

/-! ### Reading back -/

theorem hexPairs_hexWith {digit : ℕ → Char} (h : Reads digit) (bytes : List UInt8) :
    hexPairs (hexWith digit bytes) = some bytes := by
  induction bytes with
  | nil => rfl
  | cons b bytes ih =>
    have hb := b.toNat_lt
    have hhigh := h (b.toNat / 16) (by omega)
    have hlow := h (b.toNat % 16) (by omega)
    have hsign : digit (b.toNat / 16) ≠ '+' := by
      intro hplus
      rw [hplus] at hhigh
      cases hhigh
    have hbyte : UInt8.ofNat (16 * (b.toNat / 16) + b.toNat % 16) = b := by
      rw [Nat.div_add_mod]
      exact UInt8.ofNat_toNat
    rw [hexWith_cons, hexPairs, ih, fromStrRadix, if_neg hsign, hhigh, hlow]
    simp only [Option.bind_some, Option.map_some, hbyte]

theorem hexDecode_hexWith {digit : ℕ → Char} (h : Reads digit) (bytes : List UInt8) :
    hexDecode (hexWith digit bytes) = some bytes := by
  have hall : (hexWith digit bytes).all (fun c => (hexVal c).isSome) = true := by
    rw [List.all_eq_true]
    intro c hc
    obtain ⟨n, -, hval⟩ := h.mem_hexWith hc
    rw [hval]
    rfl
  have heven : (hexWith digit bytes).length % 2 = 0 := by
    rw [length_hexWith]
    omega
  rw [hexDecode, hall, heven]
  exact hexPairs_hexWith h bytes

/-- A cookie's bytes are read back from either alphabet. -/
theorem parts_spelled {digit digit' : ℕ → Char} (h : Reads digit) (h' : Reads digit')
    (payload tag : List UInt8) :
    parts (hexWith digit payload ++ '.' :: hexWith digit' tag) = some (payload, tag) := by
  have hdot : '.' ∉ hexWith digit payload := by
    intro hmem
    obtain ⟨n, -, hval⟩ := h.mem_hexWith hmem
    cases hval
  rw [parts, splitOnce_append hdot]
  simp only [Option.bind_some, hexDecode_hexWith h, hexDecode_hexWith h', Option.map_some]

theorem verifyCookie_iff {a : Auth} {now : UnixTime} {cookie : List Char} :
    a.verifyCookie hmac now cookie = true ↔
      ∃ payload expiry, parts cookie = some (payload, hmac a.signingKey payload) ∧
        stated payload = some (a.username, expiry) ∧ now.secs < expiry := by
  constructor
  · intro h
    rw [verifyCookie] at h
    cases hparts : parts cookie with
    | none =>
      rw [hparts] at h
      cases h
    | some bytes =>
      obtain ⟨payload, tag⟩ := bytes
      rw [hparts] at h
      simp only at h
      split at h
      · cases h
      · rename_i htag
        cases hstated : stated payload with
        | none =>
          rw [hstated] at h
          cases h
        | some fields =>
          obtain ⟨username, expiry⟩ := fields
          rw [hstated] at h
          simp only [Bool.and_eq_true, decide_eq_true_eq] at h
          obtain ⟨rfl, hlive⟩ := h
          exact ⟨payload, expiry, by rw [not_not.mp htag], hstated, hlive⟩
  · rintro ⟨payload, expiry, hparts, hstated, hlive⟩
    rw [verifyCookie, hparts]
    simp [hstated, hlive]

/-- The reading of a payload that names a user without the separator. -/
theorem stated_append {username : List Char} (h : '|' ∉ username) {expiry : ℕ}
    (hexpiry : expiry < 2 ^ 64) :
    stated (asBytes (username ++ '|' :: Nat.toDigits 10 expiry)) = some (username, expiry) := by
  rw [stated, fromUtf8_asBytes]
  simp only [Option.bind_some, splitOnce_append h, parseUnsigned_toDigits hexpiry, Option.map_some]

theorem stated_username {payload : List UInt8} {username : List Char} {expiry : ℕ}
    (h : stated payload = some (username, expiry)) :
    '|' ∉ username ∧ ∃ rest, payload = asBytes (username ++ '|' :: rest) := by
  obtain ⟨text, htext, h⟩ := Option.bind_eq_some_iff.mp h
  obtain ⟨⟨name, rest⟩, hsplit, h⟩ := Option.bind_eq_some_iff.mp h
  obtain ⟨e, -, hfields⟩ := Option.map_eq_some_iff.mp h
  cases hfields
  obtain ⟨rfl, hnot⟩ := splitOnce_some hsplit
  exact ⟨hnot, rest, asBytes_of_fromUtf8 htext⟩

theorem parts_sign (a : Auth) (payload : List Char) :
    parts (a.sign hmac payload) = some (asBytes payload, hmac a.signingKey (asBytes payload)) :=
  parts_spelled reads_lower reads_lower _ _

theorem expiry_lt (issued : UnixTime) : issued.secs + sessionLifetimeSecs < 2 ^ 64 := by
  have hsecs := issued.secs_lt
  rw [sessionLifetimeSecs]
  omega

/-- The minted cookie verifies exactly while the user it names is read back. -/
theorem roundTrips_iff (a : Auth) (issued : UnixTime) :
    a.RoundTrips hmac issued ↔ '|' ∉ a.username := by
  constructor
  · intro h
    have hlive : issued.secs < issued.secs + sessionLifetimeSecs :=
      Nat.lt_add_of_pos_right (by decide)
    obtain ⟨payload, expiry, -, hstated, -⟩ := verifyCookie_iff.mp ((h issued).mpr hlive)
    exact (stated_username hstated).1
  · intro h now
    rw [verifyCookie_iff]
    constructor
    · rintro ⟨payload, expiry, hparts, hstated, hlive⟩
      rw [mintCookie, parts_sign] at hparts
      cases hparts
      rw [stated_append h (expiry_lt issued)] at hstated
      cases hstated
      exact hlive
    · intro hlive
      exact ⟨_, _, parts_sign a _, stated_append h (expiry_lt issued), hlive⟩

/-- Every payload that names a user is written with a letter digit: the
separator is `7c`, and `7C` reads the same. -/
theorem upper_ne_lower (username rest : List Char) :
    hexWith upperDigit (asBytes (username ++ '|' :: rest)) ≠
      hexWith lowerDigit (asBytes (username ++ '|' :: rest)) := by
  have hbar : (0x7c : UInt8) ∈ asBytes (username ++ '|' :: rest) := by
    refine List.mem_flatMap.mpr ⟨'|', List.mem_append_right _ List.mem_cons_self, ?_⟩
    decide
  exact hexWith_ne hbar (by decide)

theorem spelledOnce_iff (a : Auth) (payload : List UInt8) :
    a.SpelledOnce hmac payload ↔ ¬ a.Names payload := by
  constructor
  · rintro h ⟨expiry, hstated, hpos⟩
    obtain ⟨-, rest, rfl⟩ := stated_username hstated
    have hverify : ∀ digit, Reads digit → a.verifyCookie hmac ⟨0, by decide⟩
        (hexWith digit (asBytes (a.username ++ '|' :: rest)) ++ '.' ::
          hexWith lowerDigit (hmac a.signingKey (asBytes (a.username ++ '|' :: rest)))) = true :=
      fun digit hdigit => verifyCookie_iff.mpr
        ⟨_, expiry, parts_spelled hdigit reads_lower _ _, hstated, hpos⟩
    have hspell : ∀ digit, Reads digit → (parts
        (hexWith digit (asBytes (a.username ++ '|' :: rest)) ++ '.' ::
          hexWith lowerDigit (hmac a.signingKey (asBytes (a.username ++ '|' :: rest))))).map Prod.fst =
        some (asBytes (a.username ++ '|' :: rest)) := by
      intro digit hdigit
      rw [parts_spelled hdigit reads_lower]
      rfl
    have hsame := h ⟨0, by decide⟩ _ _ (hverify upperDigit reads_upper) (hverify lowerDigit reads_lower)
      (hspell upperDigit reads_upper) (hspell lowerDigit reads_lower)
    exact upper_ne_lower a.username rest (List.append_cancel_right hsame)
  · intro hnot now c c' hc _ hpayload _
    obtain ⟨bytes, expiry, hparts, hstated, hlive⟩ := verifyCookie_iff.mp hc
    rw [hparts] at hpayload
    cases hpayload
    exact absurd ⟨expiry, hstated, Nat.zero_lt_of_lt hlive⟩ hnot

/-- Cookies round-trip exactly for a username without the separator, and a
payload is spelled one way only where it never verifies. -/
theorem cookies_right_iff (hmac : List UInt8 → List UInt8 → List UInt8)
    (phc : List Char → Option (List Char)) (username passwordHash : List Char) (a : Auth)
    (hconfig : Auth.new hmac phc username passwordHash = .ok a) :
    (∀ issued, a.RoundTrips hmac issued ↔ '|' ∉ username) ∧
      ∀ payload, a.SpelledOnce hmac payload ↔ ¬ a.Names payload := by
  have hname : a.username = username := by
    rw [Auth.new] at hconfig
    split at hconfig
    · cases hconfig
    · cases hconfig
      rfl
  refine ⟨fun issued => ?_, spelledOnce_iff a⟩
  rw [roundTrips_iff, hname]

/-! ### A configured user -/

def evanHash : List Char :=
  "$argon2id$v=19$m=19456,t=2,p=1$gZiV/M1gPc22ElAH/Jh1Hw$CWOrkoo7oJBQ/iyh7uJ0LO2aLEfrHwTWllSAxT0zRno".toList

def evanKey : List UInt8 :=
  [171, 136, 108, 152, 240, 226, 168, 204, 229, 177, 175, 159, 230, 206, 111, 46,
  218, 155, 58, 191, 128, 245, 193, 69, 119, 101, 208, 235, 114, 237, 139, 81]

def evanPayload : List Char := "evan|1792592000".toList

/-- HMAC-SHA-256 where the cookie below asks it. -/
def recordedHmac (key message : List UInt8) : List UInt8 :=
  if key = asBytes evanHash ∧ message = sessionContext then evanKey
  else if key = evanKey ∧ message = asBytes evanPayload then
    [63, 232, 90, 31, 205, 91, 63, 250, 177, 254, 105, 215, 174, 31, 27, 210,
    194, 182, 184, 33, 71, 240, 210, 78, 39, 105, 167, 209, 253, 216, 25, 15]
  else List.replicate 32 0

def configured (username : List Char) : Auth :=
  ⟨username, evanHash, deriveSigningKey recordedHmac evanHash⟩

theorem cookies_right_evan :
    (∀ issued, (configured "evan".toList).RoundTrips recordedHmac issued ↔ '|' ∉ "evan".toList) ∧
      ∀ payload, (configured "evan".toList).SpelledOnce recordedHmac payload ↔
        ¬ (configured "evan".toList).Names payload :=
  cookies_right_iff recordedHmac (fun _ => none) "evan".toList evanHash (configured "evan".toList) rfl

/-- The minted cookie with its separator's digits in capitals verifies too, and
a user whose name has the separator is never read back. -/
theorem cookies_second_spelling :
    ¬ (configured "evan".toList).SpelledOnce recordedHmac (asBytes evanPayload) ∧
      ¬ (configured "evan|home".toList).RoundTrips recordedHmac ⟨1790000000, by decide⟩ := by
  constructor
  · rw [spelledOnce_iff, not_not]
    have hpayload : evanPayload = "evan".toList ++ '|' :: Nat.toDigits 10 1792592000 := by decide
    refine ⟨1792592000, ?_, by decide⟩
    rw [hpayload]
    exact stated_append (by decide) (by decide)
  · rw [roundTrips_iff, not_not]
    decide

end Auth

end ShareTracker.Session
