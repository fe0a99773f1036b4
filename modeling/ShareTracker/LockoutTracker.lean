import Mathlib
import ShareTracker.Lib.EventTrace

/-!
The bounded failed-login tracker behind `POST /login`, counted at the gate.
-/
namespace ShareTracker.Lockout

/-- A number of seconds in nanoseconds, in which instants and durations are counted. -/
def fromSecs (secs : ℕ) : ℕ := secs * 1000000000

/-- What attempts are counted against: a peer's address, or its /64. -/
inductive Source where
  | v4 (address : BitVec 32)
  | v6Prefix (network : BitVec 64)
  | unknown
  deriving DecidableEq

structure SourceState where
  failures : ℕ
  windowStarted : ℕ
  lastSeen : ℕ
  lockedUntil : Option ℕ
  deriving DecidableEq

inductive Bound where
  | source
  | global
  deriving DecidableEq

inductive Attempt where
  | allowed
  | refused (retryAfterSecs : ℕ) (bound : Bound)
  deriving DecidableEq

structure LockoutPolicy where
  budget : ℕ
  window : ℕ
  cooldown : ℕ
  maxSources : ℕ
  globalCeiling : ℕ
  globalWindow : ℕ

/-- The policy of every deployment. -/
def LockoutPolicy.production : LockoutPolicy where
  budget := 5
  window := fromSecs (15 * 60)
  cooldown := fromSecs (5 * 60)
  maxSources := 4096
  globalCeiling := 100
  globalWindow := fromSecs (60 * 60)

abbrev Sources := AList fun _ : Source => SourceState

structure TrackerState where
  sources : Sources
  recentAttempts : List ℕ

def TrackerState.new : TrackerState := ⟨∅, []⟩

/-- The order a hash map is iterated in, which is left open. -/
structure Iteration where
  order : List (Sigma fun _ : Source => SourceState) → List (Sigma fun _ : Source => SourceState)
  perm : ∀ entries, (order entries).Perm entries

/-- Seconds, rounded up. -/
def ceilSecs (remaining : ℕ) : ℕ :=
  remaining / 1000000000 + if 0 < remaining % 1000000000 then 1 else 0

namespace LockoutPolicy

variable (p : LockoutPolicy)

/-- An entry that still bounds something. -/
def live (now : ℕ) (entry : SourceState) : Bool :=
  entry.lockedUntil.any (fun until_ => decide (now < until_)) ||
    decide (now - entry.windowStarted < p.window)

def prune (now : ℕ) (sources : Sources) : Sources where
  entries := sources.entries.filter fun e => p.live now e.2
  nodupKeys := sources.nodupKeys.sublist List.filter_sublist

end LockoutPolicy

/-- Drop the source seen longest ago. -/
def evictOldest (iteration : Iteration) (sources : Sources) : Sources :=
  match (iteration.order sources.entries).argmin fun e => e.2.lastSeen with
  | some oldest => sources.erase oldest.1
  | none => sources

/-- The source's entry, or a fresh one, seen now. -/
def entryOr (sources : Sources) (source : Source) (now : ℕ) : SourceState :=
  { (sources.lookup source).getD ⟨0, now, now, none⟩ with lastSeen := now }

namespace LockoutPolicy

variable (p : LockoutPolicy)

/-- Only a new source can grow the map, so only it makes room. -/
def makeRoom (iteration : Iteration) (now : ℕ) (source : Source) (sources : Sources) :
    Sources :=
  if source ∈ sources then sources
  else
    let sources := p.prune now sources
    if p.maxSources ≤ sources.keys.length then evictOldest iteration sources else sources

/-- The attempt counted against its source, which the last of the budget locks. -/
def countFailure (now : ℕ) (entry : SourceState) : SourceState :=
  { entry with
    failures := entry.failures + 1
    windowStarted := now
    lockedUntil := if p.budget ≤ entry.failures + 1 then some (now + p.cooldown)
      else entry.lockedUntil }

/-- The process-wide ceiling, and the count where it lets the attempt through. -/
def checkCeiling (now : ℕ) (source : Source) (entry : SourceState) (sources : Sources)
    (recentAttempts : List ℕ) : TrackerState × Attempt :=
  let recent := recentAttempts.dropWhile fun made => p.globalWindow ≤ now - made
  if p.globalCeiling ≤ recent.length then
    let frees := recent.head?.getD now + p.globalWindow
    (⟨sources.insert source entry, recent⟩, .refused (max (ceilSecs (frees - now)) 1) .global)
  else
    (⟨sources.insert source (p.countFailure now entry), recent ++ [now]⟩, .allowed)

/-- An entry with no active lockout, as an attempt finds it: a served cooldown
or a streak idle for a whole window leaves a clean slate. -/
def reopened (now : ℕ) (entry : SourceState) : SourceState :=
  match entry.lockedUntil with
  | some _ => { entry with lockedUntil := none, failures := 0 }
  | none => if p.window ≤ now - entry.windowStarted then { entry with failures := 0 } else entry

def beginAttempt (iteration : Iteration) (now : ℕ) (source : Source) (st : TrackerState) :
    TrackerState × Attempt :=
  let sources := p.makeRoom iteration now source st.sources
  let entry := entryOr sources source now
  match entry.lockedUntil.filter fun until_ => now < until_ with
  | some until_ =>
    (⟨sources.insert source entry, st.recentAttempts⟩, .refused (ceilSecs (until_ - now)) .source)
  | none => p.checkCeiling now source (p.reopened now entry) sources st.recentAttempts

end LockoutPolicy

/-- A login that succeeded: its streak is forgiven and its attempt handed back. -/
def recordSuccess (source : Source) (st : TrackerState) : TrackerState :=
  ⟨st.sources.erase source, st.recentAttempts.dropLast⟩

inductive Call where
  | beginAttempt (source : Source) (iteration : Iteration)
  | recordSuccess (source : Source)

structure Event where
  time : ℕ
  call : Call

/-- One call on the tracker; only an attempt is answered. -/
def LockoutPolicy.step (p : LockoutPolicy) (st : TrackerState) (e : Event) :
    TrackerState × Option Attempt :=
  match e.call with
  | .beginAttempt source iteration =>
    ((p.beginAttempt iteration e.time source st).1,
      some (p.beginAttempt iteration e.time source st).2)
  | .recordSuccess source => (recordSuccess source st, none)

abbrev Moment := EventTrace.Moment TrackerState Event (Option Attempt)

def LockoutPolicy.trace (p : LockoutPolicy) (events : List Event) : List Moment :=
  EventTrace.trace p.step .new events

/-! ### The policies the bounds rest on -/

/-- A budget and a cap of at least one, and a window no shorter than the
cooldown, as `production` has them. -/
structure LockoutPolicy.Sound (p : LockoutPolicy) : Prop where
  budget_pos : 0 < p.budget
  maxSources_pos : 0 < p.maxSources
  cooldown_le_window : p.cooldown ≤ p.window

theorem LockoutPolicy.production_sound : LockoutPolicy.production.Sound where
  budget_pos := by decide
  maxSources_pos := by decide
  cooldown_le_window := by decide

structure SourceState.Sound (p : LockoutPolicy) (s : SourceState) : Prop where
  failures_le : s.failures ≤ p.budget
  unlocked : s.lockedUntil = none → s.failures < p.budget
  locked : ∀ until_ ∈ s.lockedUntil, until_ = s.windowStarted + p.cooldown

structure TrackerState.Sound (p : LockoutPolicy) (st : TrackerState) : Prop where
  entries : ∀ source s, st.sources.lookup source = some s → s.Sound p
  sources_le : st.sources.keys.length ≤ p.maxSources
  recent_le : st.recentAttempts.length ≤ p.globalCeiling

/-! ### The map under pruning and eviction -/

section Room
variable {p : LockoutPolicy} {now : ℕ} {sources : Sources} {k : Source} {s : SourceState}

theorem lookup_prune :
    (p.prune now sources).lookup k = some s ↔ sources.lookup k = some s ∧ p.live now s = true := by
  have hpruned : (p.prune now sources).lookup k = some s ↔
      (⟨k, s⟩ : Sigma fun _ => SourceState) ∈ (p.prune now sources).entries := AList.mem_lookup_iff
  have hstored : sources.lookup k = some s ↔
      (⟨k, s⟩ : Sigma fun _ => SourceState) ∈ sources.entries := AList.mem_lookup_iff
  rw [hpruned, hstored]
  exact List.mem_filter

theorem keys_prune_length : (p.prune now sources).keys.length ≤ sources.keys.length :=
  (List.filter_sublist.map _).length_le

theorem lookup_of_lookup_erase {gone : Source} (h : (sources.erase gone).lookup k = some s) :
    sources.lookup k = some s := by
  by_cases hk : k = gone
  · rw [hk, AList.lookup_erase] at h
    cases h
  · rwa [AList.lookup_erase_ne hk] at h

/-- Making room only takes entries away. -/
theorem lookup_of_lookup_makeRoom {iteration : Iteration} {source : Source}
    (h : (p.makeRoom iteration now source sources).lookup k = some s) :
    sources.lookup k = some s := by
  unfold LockoutPolicy.makeRoom at h
  split at h
  · exact h
  · simp only at h
    split at h
    · unfold evictOldest at h
      split at h
      · exact (lookup_prune.mp (lookup_of_lookup_erase h)).1
      · exact (lookup_prune.mp h).1
    · exact (lookup_prune.mp h).1

theorem makeRoom_of_mem {iteration : Iteration} {source : Source} (h : source ∈ sources) :
    p.makeRoom iteration now source sources = sources := if_pos h

theorem evictOldest_length {iteration : Iteration} (h : 0 < sources.keys.length) :
    (evictOldest iteration sources).keys.length = sources.keys.length - 1 := by
  unfold evictOldest
  split
  · rename_i oldest holdest
    have hmem : oldest ∈ sources.entries :=
      (iteration.perm sources.entries).mem_iff.mp (List.argmin_mem holdest)
    have hkey : oldest.1 ∈ sources.keys := List.mem_map.mpr ⟨oldest, hmem, rfl⟩
    rw [AList.keys_erase, List.length_erase_of_mem hkey]
  · rename_i hnone
    have hempty : sources.entries = [] := by
      have hperm := iteration.perm sources.entries
      rw [List.argmin_eq_none.mp hnone] at hperm
      exact hperm.nil_eq.symm
    simp [AList.keys, hempty] at h

theorem insert_length_of_mem {entry : SourceState} {source : Source} (h : source ∈ sources) :
    (sources.insert source entry).keys.length = sources.keys.length := by
  have hkey : source ∈ sources.keys := AList.mem_keys.mp h
  rw [AList.keys_insert, List.length_cons, List.length_erase_of_mem hkey]
  have hpos := List.length_pos_of_mem hkey
  omega

theorem insert_length_le (source : Source) (entry : SourceState) :
    (sources.insert source entry).keys.length ≤ sources.keys.length + 1 := by
  rw [AList.keys_insert, List.length_cons]
  have hle := (List.erase_sublist (a := source) (l := sources.keys)).length_le
  omega

/-- The map has room for the source that attempts. -/
theorem makeRoom_insert_length (hp : p.Sound) (iteration : Iteration) (now : ℕ) (source : Source)
    (hcap : sources.keys.length ≤ p.maxSources) (entry : SourceState) :
    ((p.makeRoom iteration now source sources).insert source entry).keys.length ≤ p.maxSources := by
  by_cases hmem : source ∈ sources
  · rw [makeRoom_of_mem hmem, insert_length_of_mem hmem]
    exact hcap
  · have hpruned : (p.prune now sources).keys.length ≤ sources.keys.length := keys_prune_length
    have hpos := hp.maxSources_pos
    refine (insert_length_le source entry).trans ?_
    unfold LockoutPolicy.makeRoom
    rw [if_neg hmem]
    simp only
    split
    · rename_i hfull
      rw [evictOldest_length (hpos.trans_le hfull)]
      omega
    · omega

end Room

/-! ### What a call keeps -/

section Step
variable {p : LockoutPolicy}

theorem SourceState.Sound.seen {s : SourceState} (hs : s.Sound p) (now : ℕ) :
    SourceState.Sound p { s with lastSeen := now } := ⟨hs.failures_le, hs.unlocked, hs.locked⟩

theorem reopened_unlocked (now : ℕ) (s : SourceState) :
    (p.reopened now s).lockedUntil = none := by
  unfold LockoutPolicy.reopened
  split
  · rfl
  · rename_i hnone
    split <;> exact hnone

theorem SourceState.Sound.reopened {s : SourceState} (hp : p.Sound) (hs : s.Sound p)
    (now : ℕ) : (p.reopened now s).Sound p := by
  unfold LockoutPolicy.reopened
  split
  · exact ⟨Nat.zero_le _, fun _ => hp.budget_pos, fun _ h => nomatch h⟩
  · rename_i hnone
    split
    · refine ⟨Nat.zero_le _, fun _ => hp.budget_pos, ?_⟩
      intro until_ h
      rw [hnone] at h
      cases h
    · exact hs

theorem SourceState.Sound.countFailure {s : SourceState} (hs : s.Sound p)
    (hopen : s.lockedUntil = none) (now : ℕ) : (p.countFailure now s).Sound p := by
  have hlt := hs.unlocked hopen
  refine ⟨hlt, ?_, ?_⟩
  · intro h
    by_contra hspent
    have hbudget : p.budget ≤ s.failures + 1 := not_lt.mp hspent
    simp [LockoutPolicy.countFailure, hbudget] at h
  · intro until_ h
    simp only [LockoutPolicy.countFailure] at h ⊢
    split at h
    · exact (Option.mem_some_iff.mp h).symm
    · rw [hopen] at h
      cases h

theorem entryOr_of_lookup {sources : Sources} {source : Source} {s : SourceState}
    (h : sources.lookup source = some s) (now : ℕ) :
    entryOr sources source now = { s with lastSeen := now } := by
  rw [entryOr, h, Option.getD_some]

theorem entryOr_sound (hp : p.Sound) {sources : Sources} {source : Source}
    (h : ∀ s, sources.lookup source = some s → s.Sound p) (now : ℕ) :
    (entryOr sources source now).Sound p := by
  cases hl : sources.lookup source with
  | none =>
    rw [entryOr, hl, Option.getD_none]
    exact ⟨Nat.zero_le _, fun _ => hp.budget_pos, fun _ h => nomatch h⟩
  | some s =>
    obtain ⟨hle, hopen, hlocked⟩ := h s hl
    rw [entryOr_of_lookup hl]
    exact ⟨hle, hopen, hlocked⟩

/-- An attempt's three outcomes: a lockout's refusal, the ceiling's, or the count. -/
theorem beginAttempt_cases (iteration : Iteration) (now : ℕ) (source : Source)
    (st : TrackerState) :
    (∃ s until_, st.sources.lookup source = some s ∧ s.lockedUntil = some until_ ∧ now < until_ ∧
      p.beginAttempt iteration now source st =
        (⟨st.sources.insert source { s with lastSeen := now }, st.recentAttempts⟩,
          .refused (ceilSecs (until_ - now)) .source)) ∨
    ∃ room entry recent, room = p.makeRoom iteration now source st.sources ∧
      entry = entryOr room source now ∧ (∀ until_ ∈ entry.lockedUntil, until_ ≤ now) ∧
      recent.length ≤ st.recentAttempts.length ∧
      ((∃ secs, p.beginAttempt iteration now source st =
          (⟨room.insert source (p.reopened now entry), recent⟩, .refused secs .global)) ∨
        recent.length < p.globalCeiling ∧ p.beginAttempt iteration now source st =
          (⟨room.insert source (p.countFailure now (p.reopened now entry)), recent ++ [now]⟩,
            .allowed)) := by
  unfold LockoutPolicy.beginAttempt
  simp only
  generalize hroom : p.makeRoom iteration now source st.sources = room
  generalize hentry : entryOr room source now = entry
  split
  · rename_i until_ hlocked
    obtain ⟨hlock, hactive⟩ := Option.filter_eq_some_iff.mp hlocked
    left
    -- a fresh entry is never locked, so this one is stored
    cases hl : room.lookup source with
    | none =>
      rw [← hentry, entryOr, hl] at hlock
      cases hlock
    | some s =>
      have hseen := entryOr_of_lookup hl now
      have hs : st.sources.lookup source = some s := by
        rw [← hroom] at hl
        exact lookup_of_lookup_makeRoom hl
      have hmem : source ∈ st.sources := AList.lookup_isSome.mp (by rw [hs]; rfl)
      rw [← hentry, hseen] at hlock
      refine ⟨s, until_, hs, hlock, of_decide_eq_true hactive, ?_⟩
      rw [← hentry, hseen, ← hroom, makeRoom_of_mem hmem]
  · rename_i hserved
    right
    refine ⟨room, entry, st.recentAttempts.dropWhile fun made => p.globalWindow ≤ now - made,
      rfl, hentry.symm, ?_, (List.dropWhile_sublist _).length_le, ?_⟩
    · intro until_ hlock
      by_contra hactive
      have hkept : entry.lockedUntil.filter (fun until_ => decide (now < until_)) = some until_ :=
        Option.filter_eq_some_iff.mpr ⟨hlock, decide_eq_true (not_le.mp hactive)⟩
      rw [hserved] at hkept
      cases hkept
    · unfold LockoutPolicy.checkCeiling
      simp only
      split
      · exact Or.inl ⟨_, rfl⟩
      · rename_i hroom
        exact Or.inr ⟨not_le.mp hroom, rfl⟩

theorem TrackerState.Sound.insert {st : TrackerState} (hst : st.Sound p) {sources : Sources}
    {source : Source} {entry : SourceState} {recent : List ℕ}
    (hsources : ∀ k s, sources.lookup k = some s → st.sources.lookup k = some s)
    (hentry : entry.Sound p) (hcap : (sources.insert source entry).keys.length ≤ p.maxSources)
    (hrecent : recent.length ≤ p.globalCeiling) :
    TrackerState.Sound p ⟨sources.insert source entry, recent⟩ where
  entries := by
    intro k s hs
    by_cases hk : k = source
    · rw [hk, AList.lookup_insert] at hs
      cases hs
      exact hentry
    · rw [AList.lookup_insert_ne hk] at hs
      exact hst.entries k s (hsources k s hs)
  sources_le := hcap
  recent_le := hrecent

theorem TrackerState.Sound.beginAttempt (hp : p.Sound) {st : TrackerState} (hst : st.Sound p)
    (iteration : Iteration) (now : ℕ) (source : Source) :
    (p.beginAttempt iteration now source st).1.Sound p := by
  have hroom := makeRoom_insert_length hp iteration now source hst.sources_le
  have hkept : ∀ k s, (p.makeRoom iteration now source st.sources).lookup k = some s →
      st.sources.lookup k = some s := fun k s h => lookup_of_lookup_makeRoom h
  rcases beginAttempt_cases (p := p) iteration now source st with
    ⟨s, until_, hs, -, -, heq⟩ | ⟨_, entry, recent, rfl, rfl, -, hrecent, hout⟩
  · have hmem : source ∈ st.sources := AList.lookup_isSome.mp (by rw [hs]; rfl)
    rw [heq]
    exact hst.insert (fun _ _ h => h) ((hst.entries source s hs).seen now)
      ((insert_length_of_mem hmem).trans_le hst.sources_le) hst.recent_le
  · have hentry := (entryOr_sound hp (fun s hs => hst.entries source s (hkept source s hs))
      now).reopened hp now
    rcases hout with ⟨secs, heq⟩ | ⟨hlt, heq⟩
    · rw [heq]
      exact hst.insert hkept hentry (hroom _) (hrecent.trans hst.recent_le)
    · rw [heq]
      refine hst.insert hkept (hentry.countFailure (reopened_unlocked now _) now) (hroom _) ?_
      rw [List.length_append, List.length_singleton]
      exact hlt

theorem TrackerState.Sound.step (hp : p.Sound) {st : TrackerState} (hst : st.Sound p) (e : Event) :
    (p.step st e).1.Sound p := by
  unfold LockoutPolicy.step
  cases e.call with
  | beginAttempt source iteration => exact hst.beginAttempt hp iteration e.time source
  | recordSuccess source =>
    refine ⟨fun k s hs => hst.entries k s (lookup_of_lookup_erase hs), ?_, ?_⟩
    · have hle : (st.sources.erase source).keys.length ≤ st.sources.keys.length := by
        rw [AList.keys_erase]
        exact (List.erase_sublist).length_le
      exact hle.trans hst.sources_le
    · have hle := (List.dropLast_sublist st.recentAttempts).length_le
      exact hle.trans hst.recent_le

theorem new_sound (p : LockoutPolicy) : TrackerState.new.Sound p where
  entries := fun _ _ h => nomatch h
  sources_le := Nat.zero_le _
  recent_le := Nat.zero_le _

end Step

/-! ### What the lockout bounds -/

/-- Whether the call let an attempt from the source through. -/
def allows (source : Source) (m : Moment) : Bool :=
  match m.event.call with
  | .beginAttempt attempted _ => attempted = source && m.answer = some .allowed
  | .recordSuccess _ => false

/-- Whether the call recorded a success of the source. -/
def forgives (source : Source) (m : Moment) : Bool :=
  match m.event.call with
  | .beginAttempt _ _ => false
  | .recordSuccess succeeded => succeeded = source

/-- Whether the call evicted the source, which pruning had left. -/
def evicts (p : LockoutPolicy) (source : Source) (m : Moment) : Bool :=
  match m.event.call with
  | .beginAttempt attempted iteration =>
    source ∈ p.prune m.event.time m.before.sources &&
      !decide (source ∈ p.makeRoom iteration m.event.time attempted m.before.sources)
  | .recordSuccess _ => false

/-- What holds of the tracker around each call: no streak is past the budget, an
attempt under a lockout is refused and counted nowhere, and the map and the
queue are within their caps. -/
structure Bounded (p : LockoutPolicy) (m : Moment) : Prop where
  streaks : ∀ source s, m.after.sources.lookup source = some s → s.failures ≤ p.budget
  refuses : ∀ source iteration s until_, m.event.call = .beginAttempt source iteration →
    m.before.sources.lookup source = some s → s.lockedUntil = some until_ → m.event.time < until_ →
    (∃ secs, m.answer = some (.refused secs .source)) ∧
      m.after.recentAttempts = m.before.recentAttempts ∧
      ∀ k, (m.after.sources.lookup k).map SourceState.failures =
        (m.before.sources.lookup k).map SourceState.failures
  sources_le : m.after.sources.keys.length ≤ p.maxSources
  recent_le : m.after.recentAttempts.length ≤ p.globalCeiling

section Bounds
variable {p : LockoutPolicy}

/-- The source's entry counts at least `k` attempts made since `start`. -/
def Remembers (start : ℕ) (source : Source) (st : TrackerState) (k : ℕ) : Prop :=
  k = 0 ∨ ∃ s, st.sources.lookup source = some s ∧ start ≤ s.windowStarted ∧ k ≤ s.failures

/-- A call by another source leaves the entry where it does not evict it. -/
theorem Remembers.other {start : ℕ} {source attempted : Source} {st : TrackerState} {k : ℕ}
    (h : Remembers start source st k) (iteration : Iteration) {now : ℕ}
    (hne : attempted ≠ source) (hopen : start ≤ now) (hwindow : now < start + p.window)
    (hkept : source ∈ p.prune now st.sources →
      source ∈ p.makeRoom iteration now attempted st.sources) :
    Remembers start source (p.beginAttempt iteration now attempted st).1 k := by
  rcases h with rfl | ⟨s, hs, hstart, hk⟩
  · exact Or.inl rfl
  have hlive : p.live now s = true := by
    have hrecent : now - s.windowStarted < p.window := by omega
    simp [LockoutPolicy.live, hrecent]
  have hpruned : (p.prune now st.sources).lookup source = some s := lookup_prune.mpr ⟨hs, hlive⟩
  have hmem : source ∈ p.makeRoom iteration now attempted st.sources :=
    hkept (AList.lookup_isSome.mp (by rw [hpruned]; rfl))
  have hroom : (p.makeRoom iteration now attempted st.sources).lookup source = some s := by
    obtain ⟨s', hs'⟩ := Option.isSome_iff_exists.mp (AList.lookup_isSome.mpr hmem)
    have hsame := lookup_of_lookup_makeRoom hs'
    rw [hs] at hsame
    rw [hs', hsame]
  right
  refine ⟨s, ?_, hstart, hk⟩
  rcases beginAttempt_cases (p := p) iteration now attempted st with
    ⟨s', until_, -, -, -, heq⟩ | ⟨_, entry, recent, rfl, -, -, -, ⟨secs, heq⟩ | ⟨-, heq⟩⟩
  · rw [heq]
    exact (AList.lookup_insert_ne hne.symm).trans hs
  · rw [heq]
    exact (AList.lookup_insert_ne hne.symm).trans hroom
  · rw [heq]
    exact (AList.lookup_insert_ne hne.symm).trans hroom

/-- An attempt inside the cooldown of the window's start is remembered with
those before it. -/
theorem Remembers.attempt (hp : p.Sound) {start : ℕ} {source : Source} {st : TrackerState}
    (hst : st.Sound p) {k : ℕ} (h : Remembers start source st k) (iteration : Iteration)
    {now : ℕ} (hstart : start ≤ now) (hcooldown : now < start + p.cooldown) :
    Remembers start source (p.beginAttempt iteration now source st).1
      (if (p.beginAttempt iteration now source st).2 = .allowed then k + 1 else k) := by
  have hwindow := hp.cooldown_le_window
  -- no streak counted from the window's start is dropped within it
  have hreopen : ∀ s, st.sources.lookup source = some s → start ≤ s.windowStarted →
      (∀ until_ ∈ s.lockedUntil, until_ ≤ now) →
      p.reopened now { s with lastSeen := now } = { s with lastSeen := now } := by
    intro s hs hfrom hserved
    have hunlocked : s.lockedUntil = none := by
      cases hlock : s.lockedUntil with
      | none => rfl
      | some until_ =>
        have hends := (hst.entries source s hs).locked until_ hlock
        have hpast := hserved until_ hlock
        omega
    have hstill : ¬ p.window ≤ now - s.windowStarted := by omega
    simp only [LockoutPolicy.reopened, hunlocked, if_neg hstill]
  rcases beginAttempt_cases (p := p) iteration now source st with
    ⟨s, until_, hs, -, -, heq⟩ | ⟨_, entry, recent, rfl, hentry, hserved, -, hout⟩
  · rw [heq]
    simp only [reduceCtorEq, if_false]
    rcases h with rfl | ⟨s', hs', hfrom, hk⟩
    · exact Or.inl rfl
    · rw [hs] at hs'
      cases hs'
      exact Or.inr ⟨_, AList.lookup_insert _, hfrom, hk⟩
  · have hcount : k ≤ (p.reopened now entry).failures ∧
        (k = 0 ∨ start ≤ (p.reopened now entry).windowStarted) := by
      rcases h with rfl | ⟨s, hs, hstarted, hk⟩
      · exact ⟨Nat.zero_le _, Or.inl rfl⟩
      · have hmem : source ∈ st.sources := AList.lookup_isSome.mp (by rw [hs]; rfl)
        rw [makeRoom_of_mem hmem, entryOr_of_lookup hs] at hentry
        rw [hentry] at hserved ⊢
        rw [hreopen s hs hstarted hserved]
        exact ⟨hk, Or.inr hstarted⟩
    rcases hout with ⟨secs, heq⟩ | ⟨-, heq⟩
    · rw [heq]
      simp only [reduceCtorEq, if_false]
      rcases hcount with ⟨hk, rfl | hstarted⟩
      · exact Or.inl rfl
      · exact Or.inr ⟨_, AList.lookup_insert _, hstarted, hk⟩
    · rw [heq]
      simp only [if_true]
      exact Or.inr ⟨_, AList.lookup_insert _, hstart, Nat.succ_le_succ hcount.1⟩

theorem remembers_step (hp : p.Sound) {start finish : ℕ} (hshort : finish < start + p.cooldown)
    {source : Source} {st : TrackerState} {events : List Event} {m : Moment}
    (hm : m ∈ EventTrace.trace p.step st events) (hsound : m.before.Sound p)
    (hstart : start ≤ m.event.time) (hfinish : m.event.time ≤ finish)
    (hforgiven : forgives source m = false) (hevicted : evicts p source m = false) {k : ℕ}
    (h : Remembers start source m.before k) :
    Remembers start source m.after (if allows source m then k + 1 else k) := by
  obtain ⟨before, ⟨time, call⟩, after, answer⟩ := m
  obtain ⟨-, hafter, hanswer⟩ := EventTrace.mem_trace hm
  have hcooldown : time < start + p.cooldown := hfinish.trans_lt hshort
  simp only [LockoutPolicy.step] at hafter hanswer
  cases call with
  | recordSuccess succeeded =>
    have hne : source ≠ succeeded := fun heq => of_decide_eq_false hforgiven heq.symm
    simp only [allows]
    subst hafter
    rcases h with rfl | ⟨s, hs, hrest⟩
    · exact Or.inl rfl
    · exact Or.inr ⟨s, (AList.lookup_erase_ne hne).trans hs, hrest⟩
  | beginAttempt attempted iteration =>
    simp only at hafter hanswer
    subst hafter hanswer
    by_cases hne : attempted = source
    · subst hne
      have hstep := h.attempt hp hsound iteration hstart hcooldown
      simpa only [allows, decide_true, Bool.true_and, Option.some_inj, decide_eq_true_eq] using hstep
    · have hkept := h.other iteration hne hstart
        (hcooldown.trans_le (Nat.add_le_add_left hp.cooldown_le_window start)) (by
          intro hpruned
          simpa [evicts, hpruned] using hevicted)
      simpa only [allows, hne, decide_false, Bool.false_and, Bool.false_eq_true, if_false] using hkept

theorem trace_bounded (hp : p.Sound) {events : List Event} {m : Moment}
    (hm : m ∈ p.trace events) : Bounded p m := by
  have hbefore : m.before.Sound p :=
    EventTrace.invariant_before (fun _ e hs => hs.step hp e) (new_sound p) hm
  obtain ⟨before, ⟨time, call⟩, after, answer⟩ := m
  obtain ⟨-, hafter, hanswer⟩ := EventTrace.mem_trace hm
  simp only at hafter hanswer hbefore
  have hsound : after.Sound p := by
    rw [hafter]
    exact hbefore.step hp _
  refine ⟨fun source s hs => (hsound.entries source s hs).failures_le, ?_, hsound.sources_le,
    hsound.recent_le⟩
  intro source iteration s until_ hcall hs hlock hactive
  simp only at hcall hs hactive
  subst hcall
  simp only [LockoutPolicy.step] at hafter hanswer
  rcases beginAttempt_cases (p := p) iteration time source before with
    ⟨s', until', hs', -, -, heq⟩ | ⟨_, entry, recent, rfl, hentry, hserved, -, -⟩
  · rw [heq] at hafter hanswer
    rw [hs] at hs'
    cases hs'
    refine ⟨⟨_, hanswer⟩, by rw [hafter], fun k => ?_⟩
    by_cases hk : k = source
    · rw [hafter, hk, AList.lookup_insert, hs]
      rfl
    · rw [hafter, AList.lookup_insert_ne hk]
  · have hmem : source ∈ before.sources := AList.lookup_isSome.mp (by rw [hs]; rfl)
    rw [makeRoom_of_mem hmem, entryOr_of_lookup hs] at hentry
    rw [hentry] at hserved
    exact absurd hactive (not_lt.mpr (hserved until_ hlock))

end Bounds

/-- Over every interleaving of attempts and successes, a source that is neither
forgiven nor evicted in an interval shorter than the cooldown is let through at
most `budget` times in it, and the tracker is bounded at every call. -/
theorem lockout_bounds_guessing (p : LockoutPolicy) (hp : p.Sound) (events : List Event)
    (hordered : events.Pairwise fun e f => e.time ≤ f.time) :
    (∀ (source : Source) (start finish : ℕ), finish < start + p.cooldown →
      (∀ m ∈ p.trace events, start ≤ m.event.time → m.event.time ≤ finish →
        forgives source m = false ∧ evicts p source m = false) →
      (EventTrace.countedWithin Event.time start finish (allows source) (p.trace events)).length ≤
        p.budget) ∧
    ∀ m ∈ p.trace events, Bounded p m := by
  refine ⟨?_, fun m hm => trace_bounded hp hm⟩
  intro source start finish hshort hkept
  refine EventTrace.length_countedWithin_le (TrackerState.Sound p) (Remembers start source)
    (fun _ => Or.inl rfl) ?_ (new_sound p) hordered ?_ ?_
  · rintro st k hst (rfl | ⟨s, hs, -, hk⟩)
    · exact Nat.zero_le _
    · exact hk.trans (hst.entries source s hs).failures_le
  · intro m hm hs
    rw [(EventTrace.mem_trace hm).2.1]
    exact hs.step hp m.event
  · intro m hm hsound hstart hfinish k hk
    obtain ⟨hforgiven, hevicted⟩ := hkept m hm hstart hfinish
    exact remembers_step hp hshort hm hsound hstart hfinish hforgiven hevicted hk

/-- Seven guesses from one address a second apart. -/
def guesses : List Event :=
  (List.range 7).map fun n =>
    ⟨fromSecs n, .beginAttempt (.v4 3405803783) ⟨id, fun entries => List.Perm.refl entries⟩⟩

theorem lockout_bounds_guessing_seven :
    (EventTrace.countedWithin Event.time 0 (fromSecs 60) (allows (.v4 3405803783))
      (LockoutPolicy.production.trace guesses)).length ≤ LockoutPolicy.production.budget := by
  refine (lockout_bounds_guessing LockoutPolicy.production LockoutPolicy.production_sound guesses
    (by decide)).1 (.v4 3405803783) 0 (fromSecs 60) (by decide) ?_
  decide

end ShareTracker.Lockout
