import ShareTracker.LockoutTracker

/-!
The process-wide ceiling over whole logins: an attempt the gate lets through
stays in flight until its password is verified, and a success hands the newest
counted attempt back, whichever login that was.
-/
namespace ShareTracker.Lockout

/-- A login let through and not verified so far. -/
structure InFlight where
  login : ℕ
  source : Source
  begun : ℕ
  deriving DecidableEq

/-- The tracker, the logins in flight, how many were begun, and the latest instant seen. -/
structure LoginState where
  tracker : TrackerState
  inFlight : List InFlight
  logins : ℕ
  clock : ℕ

def LoginState.new : LoginState := ⟨.new, [], 0, 0⟩

/-- A login arrives, numbered in order, or one in flight turns out a success. -/
inductive LoginCall where
  | begin (source : Source) (iteration : Iteration)
  | verified (login : ℕ)

structure LoginEvent where
  time : ℕ
  call : LoginCall

def LoginState.get? (st : LoginState) (login : ℕ) : Option InFlight :=
  st.inFlight.find? fun l => l.login = login

/-- The handler's two calls on the tracker. -/
def LockoutPolicy.handle (p : LockoutPolicy) (st : LoginState) (e : LoginEvent) :
    LoginState × Option Attempt :=
  match e.call with
  | .begin source iteration =>
    let (tracker, answer) := p.beginAttempt iteration e.time source st.tracker
    ({ tracker
       inFlight := if answer = .allowed then st.inFlight ++ [⟨st.logins, source, e.time⟩]
         else st.inFlight
       logins := st.logins + 1
       clock := e.time }, some answer)
  | .verified login =>
    match st.get? login with
    | some l =>
      ({ st with
         tracker := recordSuccess l.source st.tracker
         inFlight := st.inFlight.filter fun l => l.login ≠ login
         clock := e.time }, none)
    | none => (st, none)

abbrev LoginMoment := EventTrace.Moment LoginState LoginEvent (Option Attempt)

def LockoutPolicy.logins (p : LockoutPolicy) (events : List LoginEvent) : List LoginMoment :=
  EventTrace.trace p.handle .new events

/-- The login that turned out a success at this moment. -/
def success (m : LoginMoment) : Option InFlight :=
  match m.event.call with
  | .begin _ _ => none
  | .verified login => m.before.get? login

/-- Whether the login turned out a success at some moment of the run. -/
def succeeded (ms : List LoginMoment) (login : ℕ) : Bool :=
  ms.any fun m => (success m).any fun l => l.login = login

/-- Whether a login of the run was let through here and never turned out a success. -/
def guess (ms : List LoginMoment) (m : LoginMoment) : Bool :=
  decide (m.answer = some .allowed) && !succeeded ms m.before.logins

/-- Whether a success finds no attempt counted that is newer than its own, the
attempt it hands back. -/
def handsBackOwn (m : LoginMoment) : Bool :=
  (success m).all fun l => m.before.tracker.recentAttempts.getLast?.all fun made => made ≤ l.begun

/-! ### What a call leaves of the counted attempts -/

section Step
variable {p : LockoutPolicy}

/-- The attempts still within the window. -/
def LockoutPolicy.recent (p : LockoutPolicy) (now : ℕ) (attempts : List ℕ) : List ℕ :=
  attempts.dropWhile fun made => p.globalWindow ≤ now - made

/-- A refused attempt only lets old ones go; one let through is counted below the ceiling. -/
theorem recentAttempts_beginAttempt (iteration : Iteration) (now : ℕ) (source : Source)
    (st : TrackerState) :
    ((p.beginAttempt iteration now source st).2 ≠ .allowed ∧
      ((p.beginAttempt iteration now source st).1.recentAttempts = st.recentAttempts ∨
        (p.beginAttempt iteration now source st).1.recentAttempts =
          p.recent now st.recentAttempts)) ∨
    ((p.beginAttempt iteration now source st).2 = .allowed ∧
      (p.recent now st.recentAttempts).length < p.globalCeiling ∧
      (p.beginAttempt iteration now source st).1.recentAttempts =
        p.recent now st.recentAttempts ++ [now]) := by
  unfold LockoutPolicy.beginAttempt
  simp only
  split
  · exact Or.inl ⟨nofun, Or.inl rfl⟩
  · unfold LockoutPolicy.checkCeiling
    simp only
    split
    · exact Or.inl ⟨nofun, Or.inr rfl⟩
    · rename_i hroom
      exact Or.inr ⟨rfl, not_le.mp hroom, rfl⟩

/-- The attempts counted since an instant. -/
def since (start : ℕ) (attempts : List ℕ) : ℕ := attempts.countP fun made => start ≤ made

/-- No attempt since the start of an open window is let go. -/
theorem since_recent (hwindow : 0 < p.globalWindow) {start now : ℕ}
    (hopen : now < start + p.globalWindow) (attempts : List ℕ) :
    since start (p.recent now attempts) = since start attempts := by
  induction attempts with
  | nil => rfl
  | cons made attempts ih =>
    unfold LockoutPolicy.recent at ih ⊢
    rw [List.dropWhile_cons]
    split
    · rename_i hold
      have hbefore : ¬ start ≤ made := by
        have hgone := of_decide_eq_true hold
        omega
      rw [ih, since, since, List.countP_cons_of_neg (by simpa using hbefore)]
    · rfl

/-- Dropping the newest attempt takes one off the counts up to it. -/
theorem since_dropLast {start begun : ℕ} {attempts : List ℕ}
    (hown : ∀ made ∈ attempts.getLast?, made ≤ begun) :
    since start attempts ≤ since start attempts.dropLast + if start ≤ begun then 1 else 0 := by
  rcases List.eq_nil_or_concat attempts with rfl | ⟨older, newest, rfl⟩
  · exact Nat.zero_le _
  · have hnewest : newest ≤ begun := hown newest (by simp)
    rw [List.concat_eq_append, List.dropLast_concat, since, List.countP_append, ← since]
    refine Nat.add_le_add_left ?_ _
    by_cases hs : start ≤ newest
    · rw [if_pos (hs.trans hnewest), List.countP_singleton]
      split <;> simp
    · simp [hs]

/-- The logins in flight since an instant that a test picks. -/
def LoginState.begunSince (st : LoginState) (start : ℕ) (picks : ℕ → Bool) : ℕ :=
  st.inFlight.countP fun l => decide (start ≤ l.begun) && picks l.login

/-- Every login in flight that an open window holds is still counted. -/
structure LoginState.Covered (p : LockoutPolicy) (st : LoginState) : Prop where
  recent_le : st.tracker.recentAttempts.length ≤ p.globalCeiling
  counted : 0 < p.globalWindow → ∀ start, st.clock < start + p.globalWindow →
    st.begunSince start (fun _ => true) ≤ since start st.tracker.recentAttempts

theorem covered_new (p : LockoutPolicy) : LoginState.new.Covered p :=
  ⟨Nat.zero_le _, fun _ _ _ => Nat.zero_le _⟩

theorem get?_mem {st : LoginState} {login : ℕ} {l : InFlight} (h : st.get? login = some l) :
    l ∈ st.inFlight ∧ l.login = login :=
  ⟨List.mem_of_find?_eq_some h, by simpa using List.find?_some h⟩

/-- A login that leaves the flight takes itself off the count. -/
theorem begunSince_filter {st : LoginState} {login : ℕ} {l : InFlight} (h : st.get? login = some l)
    (start : ℕ) :
    (st.inFlight.filter fun l => l.login ≠ login).countP
        (fun l => decide (start ≤ l.begun) && true) + (if start ≤ l.begun then 1 else 0) ≤
      st.begunSince start fun _ => true := by
  obtain ⟨hmem, hlogin⟩ := get?_mem h
  unfold LoginState.begunSince
  rw [List.countP_eq_countP_filter_add st.inFlight (fun l => decide (start ≤ l.begun) && true)
    fun l => decide (l.login ≠ login)]
  refine Nat.add_le_add_left ?_ _
  split
  · rename_i hs
    refine List.countP_pos_iff.mpr ⟨l, List.mem_filter.mpr ⟨hmem, by simp [hlogin]⟩, ?_⟩
    simpa using hs
  · exact Nat.zero_le _

theorem covered_handle {st : LoginState} {e : LoginEvent} (hst : st.Covered p)
    (hclock : st.clock ≤ e.time)
    (hown : handsBackOwn ⟨st, e, (p.handle st e).1, (p.handle st e).2⟩ = true) :
    (p.handle st e).1.Covered p := by
  unfold LockoutPolicy.handle handsBackOwn success at *
  cases hcall : e.call with
  | begin source iteration =>
    simp only
    rcases recentAttempts_beginAttempt (p := p) iteration e.time source st.tracker with
      ⟨hrefused, hrecent⟩ | ⟨hallowed, hroom, hrecent⟩
    · rw [if_neg hrefused]
      rcases hrecent with hrecent | hrecent
      · refine ⟨hrecent ▸ hst.recent_le, fun hwindow start hopen => ?_⟩
        rw [hrecent]
        exact hst.counted hwindow start (hclock.trans_lt hopen)
      · refine ⟨?_, fun hwindow start hopen => ?_⟩
        · rw [hrecent]
          exact (List.dropWhile_sublist _).length_le.trans hst.recent_le
        · rw [hrecent, since_recent hwindow hopen]
          exact hst.counted hwindow start (hclock.trans_lt hopen)
    · rw [if_pos hallowed]
      refine ⟨?_, fun hwindow start hopen => ?_⟩
      · rw [hrecent, List.length_append, List.length_singleton]
        exact hroom
      · have hcounted := hst.counted hwindow start (hclock.trans_lt hopen)
        unfold LoginState.begunSince at hcounted ⊢
        rw [hrecent, since, List.countP_append, List.countP_append, ← since,
          since_recent hwindow hopen]
        refine Nat.add_le_add hcounted (le_of_eq ?_)
        simp [List.countP_singleton]
  | verified login =>
    simp only [hcall] at hown
    simp only
    cases hl : st.get? login with
    | none => exact hst
    | some l =>
      rw [hl] at hown
      refine ⟨?_, fun hwindow start hopen => ?_⟩
      · exact (List.dropLast_sublist _).length_le.trans hst.recent_le
      · have hcounted := hst.counted hwindow start (hclock.trans_lt hopen)
        have hleaves := begunSince_filter hl start
        have hdrop : since start st.tracker.recentAttempts ≤
            since start st.tracker.recentAttempts.dropLast + if start ≤ l.begun then 1 else 0 :=
          since_dropLast fun made hmade => by
            rw [Option.mem_def.mp hmade] at hown
            exact of_decide_eq_true hown
        simp only [LoginState.begunSince, recordSuccess] at hcounted hleaves ⊢
        omega

theorem clock_le {st : LoginState} {events : List LoginEvent}
    (hst : ∀ e ∈ events, st.clock ≤ e.time) (hordered : events.Pairwise fun e f => e.time ≤ f.time)
    {m : LoginMoment} (hm : m ∈ EventTrace.trace p.handle st events) :
    m.before.clock ≤ m.event.time := by
  induction events generalizing st with
  | nil => exact absurd hm List.not_mem_nil
  | cons e events ih =>
    obtain ⟨hnext, hordered⟩ := List.pairwise_cons.mp hordered
    rcases List.mem_cons.mp hm with rfl | hm
    · exact hst e List.mem_cons_self
    · refine ih (fun f hf => ?_) hordered hm
      unfold LockoutPolicy.handle
      split
      · exact hnext f hf
      · split
        · exact hnext f hf
        · exact hst f (List.mem_cons_of_mem e hf)

/-- At least `k` logins begun since an instant are in flight and never succeed,
and the window since then is open. -/
def Guessed (p : LockoutPolicy) (ms : List LoginMoment) (start : ℕ) (st : LoginState) (k : ℕ) :
    Prop :=
  k = 0 ∨ 0 < p.globalWindow ∧ st.clock < start + p.globalWindow ∧
    k ≤ st.begunSince start fun login => !succeeded ms login

theorem Guessed.le {ms : List LoginMoment} {start : ℕ} {st : LoginState} {k : ℕ}
    (hst : st.Covered p) (h : Guessed p ms start st k) : k ≤ p.globalCeiling := by
  rcases h with rfl | ⟨hwindow, hopen, hk⟩
  · exact Nat.zero_le _
  · have hpicked : st.begunSince start (fun login => !succeeded ms login) ≤
        st.begunSince start fun _ => true := by
      refine List.countP_mono_left fun l _ hl => ?_
      rw [Bool.and_true]
      exact ((Bool.and_eq_true _ _).mp hl).1
    calc k ≤ st.begunSince start fun login => !succeeded ms login := hk
      _ ≤ st.begunSince start fun _ => true := hpicked
      _ ≤ since start st.tracker.recentAttempts := hst.counted hwindow start hopen
      _ ≤ st.tracker.recentAttempts.length := List.countP_le_length
      _ ≤ p.globalCeiling := hst.recent_le

/-- A login that succeeds was no guess, so every guess stays in flight. -/
theorem begunSince_succeed {ms : List LoginMoment} {login : ℕ} (h : succeeded ms login = true)
    (start : ℕ) (inFlight : List InFlight) :
    (inFlight.filter fun l => l.login ≠ login).countP
        (fun l => decide (start ≤ l.begun) && !succeeded ms l.login) =
      inFlight.countP fun l => decide (start ≤ l.begun) && !succeeded ms l.login := by
  rw [List.countP_filter]
  refine List.countP_congr fun l _ => ?_
  rw [Bool.and_eq_true, and_iff_left_iff_imp, decide_eq_true_eq]
  rintro hguess rfl
  simp [h] at hguess

/-- A call inside the window keeps the guesses in flight and adds its own. -/
theorem guessed_handle {ms : List LoginMoment} {start : ℕ} {st : LoginState} {e : LoginEvent}
    (hm : ⟨st, e, (p.handle st e).1, (p.handle st e).2⟩ ∈ ms) (hclock : st.clock ≤ e.time)
    (hstart : start ≤ e.time) (hopen : e.time < start + p.globalWindow) {k : ℕ}
    (h : Guessed p ms start st k) :
    Guessed p ms start (p.handle st e).1
      (if guess ms ⟨st, e, (p.handle st e).1, (p.handle st e).2⟩ then k + 1 else k) := by
  have hwindow : 0 < p.globalWindow := by omega
  have hk : k ≤ st.begunSince start fun login => !succeeded ms login := by
    rcases h with rfl | h
    · exact Nat.zero_le _
    · exact h.2.2
  have hafter : (p.handle st e).1.clock < start + p.globalWindow := by
    unfold LockoutPolicy.handle
    split
    · exact hopen
    · split
      · exact hopen
      · exact hclock.trans_lt hopen
  refine Or.inr ⟨hwindow, hafter, ?_⟩
  have hsucceeds : ∀ l, success ⟨st, e, (p.handle st e).1, (p.handle st e).2⟩ = some l →
      succeeded ms l.login = true :=
    fun l hl => List.any_eq_true.mpr ⟨_, hm, by simp [hl]⟩
  clear hm hafter
  simp only [LoginState.begunSince] at hk ⊢
  obtain ⟨time, call⟩ := e
  cases call with
  | begin source iteration =>
    simp only [LockoutPolicy.handle, guess, Option.some_inj]
    by_cases hallowed : (p.beginAttempt iteration time source st.tracker).2 = .allowed
    · simp only [hallowed, if_true, decide_true, Bool.true_and, List.countP_append,
        List.countP_singleton, decide_eq_true hstart]
      split <;> omega
    · simp only [hallowed, if_false, decide_false, Bool.false_and]
      exact hk
  | verified login =>
    cases hl : st.get? login with
    | none =>
      simp only [LockoutPolicy.handle, guess, hl]
      exact hk
    | some l =>
      have hsucceeded : succeeded ms login = true := (get?_mem hl).2 ▸ hsucceeds l hl
      simp only [LockoutPolicy.handle, guess, hl]
      rw [begunSince_succeed hsucceeded]
      exact hk

end Step

/-- In every run in which no success finds an attempt newer than its own still
counted, at most `globalCeiling` of the logins let through in an interval
shorter than the window are guesses. -/
theorem ceiling_bounds_guesses (p : LockoutPolicy) (events : List LoginEvent)
    (hordered : events.Pairwise fun e f => e.time ≤ f.time)
    (hown : ∀ m ∈ p.logins events, handsBackOwn m = true) (start finish : ℕ)
    (hshort : finish < start + p.globalWindow) :
    (EventTrace.countedWithin LoginEvent.time start finish (guess (p.logins events))
      (p.logins events)).length ≤ p.globalCeiling := by
  have hclock : ∀ m ∈ p.logins events, m.before.clock ≤ m.event.time :=
    fun m hm => clock_le (fun _ _ => Nat.zero_le _) hordered hm
  refine EventTrace.length_countedWithin_le (LoginState.Covered p)
    (Guessed p (p.logins events) start) (fun _ => Or.inl rfl) (fun _ _ hst h => h.le hst)
    (covered_new p) hordered (fun m hm hst => ?_) (fun m hm _ hstart hfinish k hk => ?_)
  · have hback := hown m hm
    rw [EventTrace.eq_of_mem_trace hm] at hback ⊢
    exact covered_handle hst (hclock m hm) hback
  · have hmem := hm
    rw [EventTrace.eq_of_mem_trace hm] at hmem ⊢
    exact guessed_handle hmem (hclock m hm) hstart (hfinish.trans_lt hshort) hk

theorem perm_asStored (entries : List (Sigma fun _ : Source => SourceState)) :
    (id entries).Perm entries := List.Perm.refl entries

def asStored : Iteration := ⟨id, perm_asStored⟩

/-- A login from one of the addresses after 203.0.113.0, four logins to each. -/
def loginFrom (secs n : ℕ) : LoginEvent :=
  ⟨fromSecs secs, .begin (.v4 (BitVec.ofNat 32 (3405803776 + n / 4))) asStored⟩

/-- A wrong password a second before the owner's right one. -/
def inTurn : List LoginEvent := [loginFrom 0 0, loginFrom 1 4, ⟨fromSecs 2, .verified 1⟩]

theorem ceiling_bounds_guesses_in_turn :
    (EventTrace.countedWithin LoginEvent.time 0 (fromSecs 60)
      (guess (LockoutPolicy.production.logins inTurn))
      (LockoutPolicy.production.logins inTurn)).length ≤
        LockoutPolicy.production.globalCeiling :=
  ceiling_bounds_guesses LockoutPolicy.production inTurn (by decide) (by decide) 0
    (fromSecs 60) (by decide)

/-- The owner's right password takes two seconds to verify; a guess arrives in
between and ninety-nine more at the end of the hour, and one as it ends. -/
def overlapping : List LoginEvent :=
  [loginFrom 0 0, loginFrom 1 4, ⟨fromSecs 2, .verified 0⟩] ++
    (List.range 99).map (fun n => loginFrom 3599 (n + 8)) ++ [loginFrom 3600 108]

theorem guesses_pass_ceiling :
    (overlapping.Pairwise fun e f => e.time ≤ f.time) ∧
      fromSecs 3600 < fromSecs 1 + LockoutPolicy.production.globalWindow ∧
      LockoutPolicy.production.globalCeiling <
        (EventTrace.countedWithin LoginEvent.time (fromSecs 1) (fromSecs 3600)
          (guess (LockoutPolicy.production.logins overlapping))
          (LockoutPolicy.production.logins overlapping)).length := by
  decide +kernel

end ShareTracker.Lockout
