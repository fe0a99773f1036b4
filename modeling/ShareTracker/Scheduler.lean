import ShareTracker.Lib.NextSearch

/-!
# The next run of a scheduled job

Instants count nanoseconds in UTC and wall times nanoseconds in a zone. The cron
library answers an occurrence in wall time; `nextRun` asks on from an answer
that is not one the entry asked for.
-/
namespace ShareTracker.Scheduler

def second : ℤ := 1000000000

def minute : ℤ := 60 * second

/-- A zone's offset from UTC, in seconds, at each second. -/
structure Zone where
  offset : ℤ → ℤ

def Zone.naiveLocal (z : Zone) (t : ℤ) : ℤ := t + z.offset (t / second) * second

/-- A five-field pattern, as which wall seconds match it. It fires on whole minutes. -/
structure Cron where
  isTimeMatching : ℤ → Bool
  on_minute : ∀ w, isTimeMatching w = true → w % 60 = 0

def Cron.matching (cron : Cron) (wall : ℤ) : Bool := cron.isTimeMatching (wall / second)

/-- The `while` loop, for at most so many steps. -/
def skippedMatches (cron : Cron) (wall : ℤ) : ℕ → ℤ → Bool
  | 0, _ => false
  | steps + 1, skipped =>
    if skipped < wall then
      if cron.matching skipped then true
      else skippedMatches cron wall steps (skipped + minute)
    else false

/-- The first wall time after the one a second before an instant. -/
def Zone.gapStart (z : Zone) (next : ℤ) : ℤ := z.naiveLocal (next - second) + second

def isGenuineOccurrence (cron : Cron) (z : Zone) (next : ℤ) : Bool :=
  let wall := z.naiveLocal next
  if cron.matching wall then true
  else
    let skipped := z.gapStart next
    skippedMatches cron wall ((wall - skipped) / minute + 1).toNat skipped

/-- The next run and the delay until it; the outer `none` is a loop still going. -/
def nextRun (findNextOccurrence : ℤ → Option ℤ) (cron : Cron) (z : Zone) (fuel : ℕ) (now : ℤ) :
    Option (Option (ℤ × ℤ)) :=
  (NextSearch.search findNextOccurrence (isGenuineOccurrence cron z) fuel now).map
    fun answer => answer.map fun next => (next, if 0 ≤ next - now then next - now else second)

/-! ## What an occurrence is -/

def OnSecond (t : ℤ) : Prop := t % second = 0

/-- The gap that ends at an instant skips a wall time. -/
def Zone.Skips (z : Zone) (t w : ℤ) : Prop := z.gapStart t ≤ w ∧ w < z.naiveLocal t

/-- A matching wall time occurs at the first instant that reads it; one that a gap
skips, at the first instant after the gap. -/
structure Occurrence (cron : Cron) (z : Zone) (t : ℤ) : Prop where
  on_second : OnSecond t
  asked : (cron.matching (z.naiveLocal t) = true ∧ ∀ s < t, z.naiveLocal s ≠ z.naiveLocal t) ∨
    ∃ w, z.Skips t w ∧ cron.matching w = true

/-- What the cron library documents: strictly later answers on whole seconds, the
first of a repeated wall time, and no occurrence passed over. It may also offer
the first instant after a gap that skipped nothing asked for. -/
structure FindsNext (cron : Cron) (z : Zone) (find : ℤ → Option ℤ) : Prop where
  later : ∀ {f t}, find f = some t → f < t
  on_second : ∀ {f t}, find f = some t → OnSecond t
  first_reading : ∀ {f t}, find f = some t → cron.matching (z.naiveLocal t) = true →
    ∀ s < t, z.naiveLocal s ≠ z.naiveLocal t
  no_jump : ∀ {f g}, Occurrence cron z g → f < g → ∃ t, find f = some t ∧ t ≤ g

variable {cron : Cron} {z : Zone} {find : ℤ → Option ℤ}

theorem FindsNext.finds (h : FindsNext cron z find) :
    NextSearch.Finds find (Occurrence cron z) := ⟨h.later, h.no_jump⟩

/-! ## The walk over the skipped wall times -/

theorem skippedMatches_iff {wall : ℤ} {steps : ℕ} {skipped : ℤ}
    (hsteps : (wall - skipped) / minute < steps) :
    skippedMatches cron wall steps skipped = true ↔
      ∃ k : ℕ, skipped + k * minute < wall ∧ cron.matching (skipped + k * minute) = true := by
  induction steps generalizing skipped with
  | zero =>
    simp only [skippedMatches, Bool.false_eq_true, false_iff]
    rintro ⟨k, hk, -⟩
    simp only [minute, second] at hsteps hk
    omega
  | succ steps ih =>
    rw [skippedMatches]
    by_cases hlt : skipped < wall
    · rw [if_pos hlt]
      by_cases hmatch : cron.matching skipped = true
      · rw [if_pos hmatch]
        simp only [true_iff]
        exact ⟨0, by simpa using hlt, by simpa using hmatch⟩
      · rw [if_neg hmatch, ih (by simp only [minute, second] at hsteps ⊢; omega)]
        constructor
        · rintro ⟨k, hk, hm⟩
          have hnext : skipped + minute + k * minute = skipped + (k + 1 : ℕ) * minute := by
            push_cast; ring
          rw [hnext] at hk hm
          exact ⟨k + 1, hk, hm⟩
        · rintro ⟨k, hk, hm⟩
          cases k with
          | zero => exact absurd (by simpa using hm) hmatch
          | succ k =>
            have hnext : skipped + minute + k * minute = skipped + (k + 1 : ℕ) * minute := by
              push_cast; ring
            rw [← hnext] at hk hm
            exact ⟨k, hk, hm⟩
    · rw [if_neg hlt]
      simp only [Bool.false_eq_true, false_iff]
      rintro ⟨k, hk, -⟩
      simp only [minute, second] at hk
      omega

theorem isGenuineOccurrence_iff {t : ℤ} : isGenuineOccurrence cron z t = true ↔
    cron.matching (z.naiveLocal t) = true ∨
      ∃ k : ℕ, z.gapStart t + k * minute < z.naiveLocal t ∧
        cron.matching (z.gapStart t + k * minute) = true := by
  unfold isGenuineOccurrence
  by_cases hmatch : cron.matching (z.naiveLocal t) = true
  · simp [hmatch]
  · simp only [hmatch]
    simp only [Bool.false_eq_true, if_false, false_or]
    apply skippedMatches_iff
    omega

/-- What the loop accepts of the library's answers is an occurrence. -/
theorem occurrence_of_genuine (h : FindsNext cron z find) {f t : ℤ} (hfind : find f = some t)
    (hgenuine : isGenuineOccurrence cron z t = true) : Occurrence cron z t := by
  refine ⟨h.on_second hfind, ?_⟩
  rcases isGenuineOccurrence_iff.mp hgenuine with hmatch | ⟨k, hlt, hmatch⟩
  · exact .inl ⟨hmatch, h.first_reading hfind hmatch⟩
  · refine .inr ⟨_, ⟨?_, hlt⟩, hmatch⟩
    simp only [minute, second]
    omega

/-- What the zone database keeps to from a second on: offsets of whole minutes,
changed only on whole minutes. -/
structure Zone.WholeMinutes (z : Zone) (since : ℤ) : Prop where
  offset : ∀ s, since ≤ s → z.offset s % 60 = 0
  changes : ∀ s, since ≤ s → z.offset (s + 1) ≠ z.offset s → (s + 1) % 60 = 0

/-- A gap then starts on a whole minute of wall time. -/
theorem Zone.WholeMinutes.gapStart {since t w : ℤ} (hz : z.WholeMinutes since) (ht : OnSecond t)
    (hsince : since * second < t) (hskip : z.Skips t w) : z.gapStart t % minute = 0 := by
  have hprevious : (t - second) / second = t / second - 1 := by
    simp only [second]
    omega
  have hfrom : since ≤ t / second - 1 := by
    simp only [OnSecond, second] at ht hsince ⊢
    omega
  have hwhole := hz.offset _ hfrom
  have hchange := hz.changes _ hfrom
  obtain ⟨hstart, hlt⟩ := hskip
  rw [Int.sub_add_cancel] at hchange
  simp only [OnSecond, Zone.gapStart, Zone.naiveLocal, hprevious] at ht hstart hlt ⊢
  have hmoved : z.offset (t / second) ≠ z.offset (t / second - 1) := by
    intro hsame
    rw [hsame] at hlt
    omega
  have hminute := hchange hmoved
  simp only [minute, second] at ht hminute hwhole ⊢
  omega

/-- From a gap's start on a whole minute, stepping by minutes meets every minute
that the gap skips. -/
theorem genuine_of_occurrence {since t : ℤ} (hz : z.WholeMinutes since)
    (hsince : since * second < t) (ht : Occurrence cron z t) :
    isGenuineOccurrence cron z t = true := by
  apply isGenuineOccurrence_iff.mpr
  rcases ht.asked with ⟨hmatch, -⟩ | ⟨w, hskip, hmatch⟩
  · exact .inl hmatch
  · right
    have hminute := hz.gapStart ht.on_second hsince hskip
    obtain ⟨hstart, hlt⟩ := hskip
    have hwhole := cron.on_minute _ hmatch
    simp only [minute, second] at hminute hwhole
    obtain ⟨k, hk⟩ : ∃ k : ℕ, z.gapStart t + k * minute = w / second * second := by
      refine ⟨((w / second * second - z.gapStart t) / minute).toNat, ?_⟩
      simp only [minute, second]
      omega
    refine ⟨k, ?_, ?_⟩
    · rw [hk]
      simp only [second]
      omega
    · have hsame : w / second * second / second = w / second := by
        simp only [second]
        omega
      rw [hk, Cron.matching, hsame]
      exact hmatch

/-! ## Following the schedule -/

/-- What `nextRun` answers from one instant, whatever fuel it takes. -/
def Next (find : ℤ → Option ℤ) (cron : Cron) (z : Zone) (now next : ℤ) : Prop :=
  ∃ fuel delay, nextRun find cron z fuel now = some (some (next, delay))

/-- `next_run` is exact from a second on: it answers whenever an occurrence is left,
with the first one and the delay to it, and runs that follow it repeat and skip
nothing. -/
structure Exact (find : ℤ → Option ℤ) (cron : Cron) (z : Zone) (since : ℤ) : Prop where
  answers : ∀ now, since * second ≤ now → (∃ g, Occurrence cron z g ∧ now < g) →
    ∃ next, Next find cron z now next
  first : ∀ fuel now next delay, since * second ≤ now →
    nextRun find cron z fuel now = some (some (next, delay)) →
      NextSearch.FirstAfter (Occurrence cron z) now next ∧ delay = next - now
  in_order : ∀ now runs, since * second ≤ now → (now :: runs).IsChain (Next find cron z) →
    (now :: runs).Pairwise (· < ·)
  no_skip : ∀ now runs, since * second ≤ now → (now :: runs).IsChain (Next find cron z) → ∀ g,
    g ∈ runs ↔ Occurrence cron z g ∧ now < g ∧ ∃ last ∈ runs, g ≤ last
  gap_once : ∀ now runs, since * second ≤ now → (now :: runs).IsChain (Next find cron z) →
    ∀ t, OnSecond t → (∃ w, z.Skips t w ∧ cron.matching w = true) → now < t →
      (∃ last ∈ runs, t ≤ last) → runs.count t = 1
  overlap_once : ∀ now runs, since * second ≤ now → (now :: runs).IsChain (Next find cron z) →
    ∀ s t, s < t → z.naiveLocal s = z.naiveLocal t → t ∈ runs →
      ∃ w, z.Skips t w ∧ cron.matching w = true

theorem search_of_nextRun {fuel : ℕ} {now next delay : ℤ}
    (h : nextRun find cron z fuel now = some (some (next, delay))) :
    NextSearch.search find (isGenuineOccurrence cron z) fuel now = some (some next) ∧
      delay = if 0 ≤ next - now then next - now else second := by
  obtain ⟨answer, hanswer, hmap⟩ := Option.map_eq_some_iff.mp h
  obtain ⟨found, rfl, hpair⟩ := Option.map_eq_some_iff.mp hmap
  obtain ⟨rfl, rfl⟩ := Prod.mk.inj hpair
  exact ⟨hanswer, rfl⟩

theorem Next.of_search {fuel : ℕ} {now next : ℤ}
    (h : NextSearch.search find (isGenuineOccurrence cron z) fuel now = some (some next)) :
    Next find cron z now next := by
  refine ⟨fuel, if 0 ≤ next - now then next - now else second, ?_⟩
  rw [nextRun, h]
  rfl

section WholeMinutes

variable {since : ℤ} (h : FindsNext cron z find) (hz : z.WholeMinutes since)

include h hz

theorem nextRun_first {fuel : ℕ} {now next delay : ℤ} (hnow : since * second ≤ now)
    (hrun : nextRun find cron z fuel now = some (some (next, delay))) :
    NextSearch.FirstAfter (Occurrence cron z) now next ∧ delay = next - now := by
  obtain ⟨hsearch, rfl⟩ := search_of_nextRun hrun
  have hfirst := NextSearch.search_first h.finds (fun _ _ => occurrence_of_genuine h)
    (fun g hg hlater => genuine_of_occurrence hz (hnow.trans_lt hlater) hg) hsearch
  have hafter := hfirst.after
  exact ⟨hfirst, if_pos (by omega)⟩

theorem Next.first {now next : ℤ} (hnow : since * second ≤ now)
    (hnext : Next find cron z now next) :
    NextSearch.FirstAfter (Occurrence cron z) now next := by
  obtain ⟨fuel, delay, hrun⟩ := hnext
  exact (nextRun_first h hz hnow hrun).1

theorem next_exists {now g : ℤ} (hnow : since * second ≤ now) (hg : Occurrence cron z g)
    (hlater : now < g) : ∃ next, Next find cron z now next := by
  obtain ⟨fuel, next, hsearch⟩ := NextSearch.search_answers h.finds
    (fun g hg hlater => genuine_of_occurrence hz (hnow.trans_lt hlater) hg) hg hlater
  exact ⟨next, .of_search hsearch⟩

/-- A run of answers stays after its start, so each is asked for from then on. -/
theorem isChain_first {now : ℤ} {runs : List ℤ} (hnow : since * second ≤ now)
    (hchain : (now :: runs).IsChain (Next find cron z)) :
    (now :: runs).IsChain (NextSearch.FirstAfter (Occurrence cron z)) := by
  induction runs generalizing now with
  | nil => exact List.isChain_singleton now
  | cons next runs ih =>
    obtain ⟨hnext, hrest⟩ := List.isChain_cons_cons.mp hchain
    have hfirst := Next.first h hz hnow hnext
    exact List.isChain_cons_cons.mpr ⟨hfirst, ih (hnow.trans hfirst.after.le) hrest⟩

/-- Where the zone's offsets are whole minutes from the clock's present on, every
answer of `next_run` from then on is exact. -/
theorem nextRun_exact : Exact find cron z since := by
  have hordered : ∀ now runs, since * second ≤ now → (now :: runs).IsChain (Next find cron z) →
      (now :: runs).Pairwise (· < ·) := fun _ _ hnow hchain =>
    NextSearch.pairwise_of_isChain (fun _ _ => id) (isChain_first h hz hnow hchain)
  have hmem : ∀ now runs g, since * second ≤ now → (now :: runs).IsChain (Next find cron z) →
      (g ∈ runs ↔ Occurrence cron z g ∧ now < g ∧ ∃ last ∈ runs, g ≤ last) :=
    fun _ _ _ hnow hchain =>
      NextSearch.mem_iff_of_isChain (fun _ _ => id) (isChain_first h hz hnow hchain)
  constructor
  · rintro now hnow ⟨g, hg, hlater⟩
    exact next_exists h hz hnow hg hlater
  · intro fuel now next delay hnow hrun
    exact nextRun_first h hz hnow hrun
  · intro now runs hnow hchain
    exact hordered now runs hnow hchain
  · intro now runs hnow hchain g
    exact hmem now runs g hnow hchain
  · intro now runs hnow hchain t ht hskip hlater hlast
    apply List.count_eq_one_of_mem
    · exact (hordered now runs hnow hchain).tail.imp fun hlt => hlt.ne
    · exact (hmem now runs t hnow hchain).mpr ⟨⟨ht, .inr hskip⟩, hlater, hlast⟩
  · intro now runs hnow hchain s t hst hwall ht
    have hoccurs := ((hmem now runs t hnow hchain).mp ht).1
    apply hoccurs.asked.resolve_left
    rintro ⟨-, honce⟩
    exact honce s hst hwall

end WholeMinutes

/-! ## A daily job in a zone with one gap -/

/-- The clock goes from one offset to the next at a UTC second. -/
def Zone.changing (change before after : ℤ) : Zone :=
  ⟨fun t => if t < change then before else after⟩

theorem daily_on_minute {time : ℤ} (h : time % 60 = 0) (w : ℤ)
    (hw : decide (w % 86400 = time) = true) : w % 60 = 0 := by
  have htime := of_decide_eq_true hw
  omega

def Cron.daily (time : ℤ) (h : time % 60 = 0) : Cron :=
  ⟨fun w => decide (w % 86400 = time), daily_on_minute h⟩

/-- The first wall second of a daily time after a wall second. -/
def nextDaily (time now : ℤ) : ℤ := (now - time) / 86400 * 86400 + 86400 + time

/-- The library's answer there: the next such wall time, or the instant after the
gap where the gap skips it. -/
def answerDaily (time change before after : ℤ) (f : ℤ) : ℤ :=
  let wall := nextDaily time ((Zone.changing change before after).naiveLocal f / second)
  if f < change * second then
    if wall - before < change then (wall - before) * second
    else if wall < change + after then change * second
    else (wall - after) * second
  else (wall - after) * second

def findDaily (time change before after : ℤ) (f : ℤ) : Option ℤ :=
  some (answerDaily time change before after f)

theorem lt_nextDaily (time now : ℤ) : now < nextDaily time now := by
  unfold nextDaily
  omega

theorem nextDaily_le {time now w : ℤ} (hlater : now < w) (hdaily : w % 86400 = time) :
    nextDaily time now ≤ w := by
  unfold nextDaily
  omega

section Daily

variable {time change before after : ℤ}

theorem naiveLocal_changing (t : ℤ) : (Zone.changing change before after).naiveLocal t =
    if t < change * second then t + before * second else t + after * second := by
  have hchange : t / second < change ↔ t < change * second := by
    simp only [second]
    omega
  simp only [Zone.naiveLocal, Zone.changing, hchange]
  split <;> rfl

theorem matching_daily {h : time % 60 = 0} {w : ℤ} :
    (Cron.daily time h).matching w = true ↔ w / second % 86400 = time := by
  simp [Cron.matching, Cron.daily]

theorem lt_answerDaily (f : ℤ) :
    f < answerDaily time change before after f := by
  have hlater := lt_nextDaily time ((Zone.changing change before after).naiveLocal f / second)
  unfold answerDaily
  generalize nextDaily time _ = wall at hlater ⊢
  simp only [naiveLocal_changing, second] at hlater ⊢
  split_ifs at hlater ⊢ <;> omega

theorem onSecond_answerDaily (f : ℤ) : OnSecond (answerDaily time change before after f) := by
  simp only [answerDaily, OnSecond, second]
  split_ifs <;> omega

/-- A daily wall time still to come, read at an instant, is answered by then. -/
theorem answerDaily_le_reading {f g : ℤ} (hsecond : OnSecond g) (hlater : f < g)
    (hgap : before ≤ after)
    (hdaily : (Zone.changing change before after).naiveLocal g / second % 86400 = time) :
    answerDaily time change before after f ≤ g := by
  have hwall : (Zone.changing change before after).naiveLocal f / second <
      (Zone.changing change before after).naiveLocal g / second := by
    simp only [OnSecond, naiveLocal_changing, second] at hsecond ⊢
    split_ifs <;> omega
  have hle := nextDaily_le hwall hdaily
  unfold answerDaily
  generalize nextDaily time _ = wall at hle ⊢
  simp only [OnSecond, naiveLocal_changing, second] at hsecond hle ⊢
  split_ifs at hle ⊢ <;> omega

/-- A daily wall time that the gap skips is answered by the gap's end. -/
theorem answerDaily_le_gap {f g w : ℤ} (hsecond : OnSecond g) (hlater : f < g)
    (hskips : (Zone.changing change before after).Skips g w)
    (hdaily : w / second % 86400 = time) : answerDaily time change before after f ≤ g := by
  obtain ⟨hstart, hlt⟩ := hskips
  have hends : g = change * second := by
    simp only [OnSecond, Zone.gapStart, naiveLocal_changing, second] at hsecond hstart hlt ⊢
    split_ifs at hstart hlt <;> omega
  subst hends
  have hwall : (Zone.changing change before after).naiveLocal f / second < w / second := by
    simp only [Zone.gapStart, naiveLocal_changing, second] at hlater hstart ⊢
    grind
  have hle := nextDaily_le hwall hdaily
  unfold answerDaily
  generalize nextDaily time _ = wall at hle ⊢
  simp only [naiveLocal_changing, second] at hlater hlt hle ⊢
  grind

theorem findsNext_daily (htime : time % 60 = 0) (hgap : before ≤ after) :
    FindsNext (.daily time htime) (.changing change before after)
      (findDaily time change before after) := by
  constructor
  · rintro f t ⟨⟩
    exact lt_answerDaily f
  · rintro f t ⟨⟩
    exact onSecond_answerDaily f
  · intro f t h hmatch s hs
    simp only [naiveLocal_changing, second]
    split_ifs <;> omega
  · intro f g hg hlater
    refine ⟨_, rfl, ?_⟩
    rcases hg.asked with ⟨hmatch, -⟩ | ⟨w, hskips, hmatch⟩
    · exact answerDaily_le_reading hg.on_second hlater hgap (matching_daily.mp hmatch)
    · exact answerDaily_le_gap hg.on_second hlater hskips (matching_daily.mp hmatch)

theorem wholeMinutes_changing {since : ℤ} (hchange : change % 60 = 0) (hbefore : before % 60 = 0)
    (hafter : after % 60 = 0) : (Zone.changing change before after).WholeMinutes since := by
  constructor
  · intro s _
    simp only [Zone.changing]
    split <;> assumption
  · intro s _ hne
    simp only [Zone.changing] at hne
    split_ifs at hne <;> omega

end Daily

/-- Sydney's clock goes from 02:00 to 03:00 on 2026-10-04, over a daily 02:30 job. -/
theorem nextRun_exact_sydney :
    Exact (findDaily 9000 1791043200 36000 39600) (.daily 9000 (by decide))
      (.changing 1791043200 36000 39600) 1790000000 :=
  nextRun_exact (findsNext_daily (by decide) (by decide))
    (wholeMinutes_changing (by decide) (by decide) (by decide))

end ShareTracker.Scheduler
