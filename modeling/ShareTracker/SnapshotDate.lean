import ShareTracker.HealthPrices
import ShareTracker.Lib.Descent

/-!
The latest date a snapshot can be taken of: from the latest complete trading day
of the most advanced market held, back to a date whose closes are all final.
-/
namespace ShareTracker.SnapshotDate
open HealthPrices ShareTracker.Valuation Checked

section
variable (s : Store) (clocks : Clocks) (held : List Market) (now : Instant)

def noTradingDay (m : Market) : String :=
  "listing " ++ m.ticker ++ " has no trading day in the past year"

/-- A market with its latest complete trading day. -/
def completeDay (m : Market) : Except String (Market × NaiveDate) := do
  let latest ← s.latestCompleteTradingDay clocks now m
  let day ← orRefuse latest (noTradingDay m)
  return (m, day)

def completeDays : Except String (List (Market × NaiveDate)) :=
  held.mapM (completeDay s clocks now)

def allFinal (pairs : List (Market × NaiveDate)) (candidate : NaiveDate) : Bool :=
  pairs.all fun p =>
    (p.1.latestTradingDayOnOrBefore candidate).any fun day => decide (day ≤ p.2)

/-- The candidates past the floor. -/
def turns (floor candidate : NaiveDate) : ℕ := (candidate.dayNumber - floor.dayNumber).toNat

def latestFinalDate (pairs : List (Market × NaiveDate)) : Option NaiveDate :=
  (pairs.map Prod.snd).max?.map fun candidate =>
    let floor := (pairs.map Prod.snd).min?.getD candidate
    (Descent.walk (allFinal pairs) (turns floor candidate) candidate).getD floor

def latestSnapshotDate : Except String (Option NaiveDate) := do
  let pairs ← completeDays s clocks held now
  return latestFinalDate pairs

end

/-! ### The walk back to a trading day -/

/-- A valuation day is the latest trading day up to its date. -/
theorem valuationDay_isGreatest {m : Market} {date day : NaiveDate}
    (h : m.latestTradingDayOnOrBefore date = some day) :
    IsGreatest {d | d ≤ date ∧ m.isTradingDay d = true} day :=
  Market.latestTradingDayWithin_isGreatest h

theorem valuationDay_mono {m : Market} {a b day day' : NaiveDate} (hab : a ≤ b)
    (h : m.latestTradingDayOnOrBefore a = some day)
    (h' : m.latestTradingDayOnOrBefore b = some day') : day ≤ day' :=
  (valuationDay_isGreatest h).mono (valuationDay_isGreatest h') fun _ hd => ⟨hd.1.trans hab, hd.2⟩

theorem pred_iterate_dayNumber (n : ℕ) (date : NaiveDate) :
    (Order.pred^[n] date).dayNumber = date.dayNumber - n := by
  induction n generalizing date with
  | zero => simp
  | succ n ih =>
    have hpred : (Order.pred date).dayNumber = date.dayNumber - 1 := NaiveDate.dayNumber_pred date
    rw [Function.iterate_succ_apply, ih, hpred]
    push_cast
    ring

theorem pred_iterate_turns {floor candidate : NaiveDate} (h : floor ≤ candidate) :
    Order.pred^[turns floor candidate] candidate = floor := by
  have hle := NaiveDate.dayNumber_le.mpr h
  apply NaiveDate.dayNumber_strictMono.injective
  rw [pred_iterate_dayNumber, turns]
  omega

/-! ### The greatest date -/

/-- A date no later than the most advanced market's latest complete trading day,
valued on each market at a day no later than the market's own. -/
structure Qualifies (pairs : List (Market × NaiveDate)) (date : NaiveDate) : Prop where
  advanced : ∃ p ∈ pairs, date ≤ p.2
  final : ∀ p ∈ pairs, ∃ day, p.1.latestTradingDayOnOrBefore date = some day ∧ day ≤ p.2

theorem allFinal_iff {pairs : List (Market × NaiveDate)} {date : NaiveDate} :
    allFinal pairs date = true ↔
      ∀ p ∈ pairs, ∃ day, p.1.latestTradingDayOnOrBefore date = some day ∧ day ≤ p.2 := by
  simp [allFinal, Option.any_eq_true]

/-- The dates that qualify are those up to the most advanced market's day that
the loop accepts. -/
theorem qualifies_iff {pairs : List (Market × NaiveDate)} {top date : NaiveDate}
    (htop : (pairs.map Prod.snd).max? = some top) :
    Qualifies pairs date ↔ date ≤ top ∧ allFinal pairs date = true := by
  obtain ⟨hmem, hmax⟩ := List.max?_eq_some_iff.mp htop
  constructor
  · intro h
    obtain ⟨p, hp, hle⟩ := h.advanced
    exact ⟨hle.trans (hmax _ (List.mem_map_of_mem hp)), allFinal_iff.mpr h.final⟩
  · rintro ⟨hle, hfinal⟩
    obtain ⟨p, hp, rfl⟩ := List.mem_map.mp hmem
    exact ⟨⟨p, hp, hle⟩, allFinal_iff.mp hfinal⟩

/-- The answer is the greatest date that qualifies just where one does that is
not before every market's latest complete trading day. -/
theorem latestFinalDate_spec {pairs : List (Market × NaiveDate)} (hne : pairs ≠ []) :
    ∃ date, latestFinalDate pairs = some date ∧ (∃ p ∈ pairs, p.2 ≤ date) ∧
      (IsGreatest {d | Qualifies pairs d} date ↔
        ∃ d, Qualifies pairs d ∧ ∃ p ∈ pairs, p.2 ≤ d) := by
  have hdays : pairs.map Prod.snd ≠ [] := by simpa using hne
  obtain ⟨top, htop⟩ := Option.ne_none_iff_exists'.mp (mt List.max?_eq_none_iff.mp hdays)
  obtain ⟨floor, hfloor⟩ := Option.ne_none_iff_exists'.mp (mt List.min?_eq_none_iff.mp hdays)
  obtain ⟨hmem, hmin⟩ := List.min?_eq_some_iff.mp hfloor
  obtain ⟨p, hp, hpFloor⟩ := List.mem_map.mp hmem
  have hwindow := pred_iterate_turns (hmin top (List.max?_eq_some_iff.mp htop).1)
  have hset : {d | Qualifies pairs d} = {d | d ≤ top ∧ allFinal pairs d = true} := by
    ext d
    exact qualifies_iff htop
  have hpast : ∀ d, (∃ p ∈ pairs, p.2 ≤ d) ↔ floor ≤ d := by
    intro d
    constructor
    · rintro ⟨p, hp, hle⟩
      exact (hmin _ (List.mem_map_of_mem hp)).trans hle
    · exact fun hle => ⟨p, hp, hpFloor.trans_le hle⟩
  refine ⟨(Descent.walk (allFinal pairs) (turns floor top) top).getD floor, ?_, ?_, ?_⟩
  · rw [latestFinalDate, htop, hfloor]
    rfl
  · rw [hpast]
    exact Descent.floor_le_getD hwindow
  · rw [hset, Descent.getD_isGreatest_iff hwindow]
    refine exists_congr fun d => ?_
    rw [hpast, qualifies_iff htop]
    exact and_comm

/-! ### Closes by the clock -/

instance : LE Instant :=
  ⟨fun a b => a.date < b.date ∨ a.date = b.date ∧ a.second ≤ b.second⟩

instance (a b : Instant) : Decidable (a ≤ b) :=
  inferInstanceAs (Decidable (a.date < b.date ∨ a.date = b.date ∧ a.second ≤ b.second))

section
variable (s : Store) (clocks : Clocks) (held : List Market)

/-- Whether the market's own clock has passed the close of a day. -/
def Closed (now : Instant) (m : Market) (day : NaiveDate) : Prop :=
  match s.currentExchange m with
  | none => day < now.date
  | some ex => ∃ close zone, clocks.closeTime ex.closeTime = some close ∧
      clocks.timezone ex.timezone = some zone ∧ (⟨day, close⟩ : Instant) ≤ zone now

/-- A date each market values at a day closed by its clock, and that is not past
every day closed. -/
structure AllClosed (now : Instant) (date : NaiveDate) : Prop where
  advanced : ∃ m ∈ held, ∃ day, date ≤ day ∧ m.isTradingDay day = true ∧ Closed s clocks now m day
  closed : ∀ m ∈ held, ∃ day, m.latestTradingDayOnOrBefore date = some day ∧
    Closed s clocks now m day

/-- Each market has a latest complete trading day. -/
def Complete (now : Instant) : Prop :=
  ∀ m ∈ held, ∃ latest, s.latestCompleteTradingDay clocks now m = .ok (some latest)

end

variable {s : Store} {clocks : Clocks} {held : List Market} {now : Instant}
  {pairs : List (Market × NaiveDate)}

theorem closed_iff {m : Market} {last day : NaiveDate}
    (h : lastClose clocks now (s.currentExchange m) = .ok last) :
    Closed s clocks now m day ↔ day ≤ last := by
  unfold Closed
  cases hex : s.currentExchange m with
  | none =>
    rw [hex] at h
    cases h
    exact NaiveDate.le_pred_iff.symm
  | some ex =>
    rw [hex] at h
    obtain ⟨close, hclose, h⟩ := bind_ok h
    obtain ⟨zone, hzone, h⟩ := bind_ok h
    have hclose' := orRefuse_ok.mp hclose
    have hzone' := orRefuse_ok.mp hzone
    cases h
    have hreads : (∃ c z, clocks.closeTime ex.closeTime = some c ∧
        clocks.timezone ex.timezone = some z ∧ (⟨day, c⟩ : Instant) ≤ z now) ↔
          (⟨day, close⟩ : Instant) ≤ zone now := by
      simp [hclose', hzone']
    refine hreads.trans ?_
    split
    · rename_i hpassed
      exact ⟨fun h => h.elim le_of_lt fun h => h.1.le,
        fun h => h.lt_or_eq.imp id fun h => ⟨h, hpassed⟩⟩
    · rename_i hbefore
      rw [NaiveDate.le_pred_iff]
      exact ⟨fun h => h.resolve_right fun h => hbefore h.2, Or.inl⟩

/-- The latest complete trading day is a trading day, the last one closed. -/
theorem complete_spec {m : Market} {latest : NaiveDate}
    (h : s.latestCompleteTradingDay clocks now m = .ok (some latest)) :
    m.isTradingDay latest = true ∧
      ∀ day, m.isTradingDay day = true → (Closed s clocks now m day ↔ day ≤ latest) := by
  obtain ⟨last, hlast, h⟩ := bind_ok h
  have hgreatest := valuationDay_isGreatest (Except.ok.inj h)
  refine ⟨hgreatest.1.2, fun day htrades => ?_⟩
  rw [closed_iff hlast]
  exact ⟨fun hle => hgreatest.2 ⟨hle, htrades⟩, fun hle => hle.trans hgreatest.1.1⟩

theorem completeDay_ok {m : Market} {p : Market × NaiveDate} :
    completeDay s clocks now m = .ok p ↔
      p.1 = m ∧ s.latestCompleteTradingDay clocks now m = .ok (some p.2) := by
  constructor
  · intro h
    obtain ⟨latest, hlatest, h⟩ := bind_ok h
    obtain ⟨day, hday, h⟩ := bind_ok h
    cases h
    exact ⟨rfl, by rw [hlatest, orRefuse_ok.mp hday]⟩
  · rintro ⟨rfl, h⟩
    rw [completeDay, h]
    rfl

theorem mem_completeDays (h : completeDays s clocks held now = .ok pairs)
    {p : Market × NaiveDate} :
    p ∈ pairs ↔ p.1 ∈ held ∧ s.latestCompleteTradingDay clocks now p.1 = .ok (some p.2) := by
  constructor
  · intro hp
    obtain ⟨m, hm, hday⟩ := mem_mapM_ok h hp
    obtain ⟨rfl, hlatest⟩ := completeDay_ok.mp hday
    exact ⟨hm, hlatest⟩
  · rintro ⟨hm, hlatest⟩
    obtain ⟨p', hp', hday⟩ := exists_mem_mapM h hm
    rw [completeDay_ok.mpr ⟨rfl, hlatest⟩] at hday
    cases hday
    exact hp'

theorem exists_completeDays :
    Complete s clocks held now ↔ ∃ pairs, completeDays s clocks held now = .ok pairs := by
  constructor
  · intro h
    refine exists_mapM fun m hm => ?_
    obtain ⟨latest, hlatest⟩ := h m hm
    exact ⟨(m, latest), completeDay_ok.mpr ⟨rfl, hlatest⟩⟩
  · rintro ⟨pairs, h⟩ m hm
    obtain ⟨p, -, hday⟩ := exists_mem_mapM h hm
    exact ⟨p.2, (completeDay_ok.mp hday).2⟩

/-- A date qualifies where its valuation days have closed by the markets' clocks. -/
theorem qualifies_iff_allClosed (h : completeDays s clocks held now = .ok pairs)
    {date : NaiveDate} : Qualifies pairs date ↔ AllClosed s clocks held now date := by
  have hcomplete : ∀ m ∈ held, ∃ latest, (m, latest) ∈ pairs := by
    intro m hm
    obtain ⟨latest, hlatest⟩ := exists_completeDays.mpr ⟨pairs, h⟩ m hm
    exact ⟨latest, (mem_completeDays h).mpr ⟨hm, hlatest⟩⟩
  constructor
  · intro hq
    constructor
    · obtain ⟨p, hp, hle⟩ := hq.advanced
      obtain ⟨hm, hlatest⟩ := (mem_completeDays h).mp hp
      have hspec := complete_spec hlatest
      exact ⟨p.1, hm, p.2, hle, hspec.1, (hspec.2 _ hspec.1).mpr le_rfl⟩
    · intro m hm
      obtain ⟨latest, hp⟩ := hcomplete m hm
      obtain ⟨day, hday, hle⟩ := hq.final _ hp
      have hspec := complete_spec ((mem_completeDays h).mp hp).2
      exact ⟨day, hday, (hspec.2 day (valuationDay_isGreatest hday).1.2).mpr hle⟩
  · intro hc
    constructor
    · obtain ⟨m, hm, day, hle, htrades, hclosed⟩ := hc.advanced
      obtain ⟨latest, hp⟩ := hcomplete m hm
      have hspec := complete_spec ((mem_completeDays h).mp hp).2
      exact ⟨(m, latest), hp, hle.trans ((hspec.2 day htrades).mp hclosed)⟩
    · intro p hp
      obtain ⟨hm, hlatest⟩ := (mem_completeDays h).mp hp
      obtain ⟨day, hday, hclosed⟩ := hc.closed p.1 hm
      exact ⟨day, hday,
        ((complete_spec hlatest).2 day (valuationDay_isGreatest hday).1.2).mp hclosed⟩

/-! ### The date is right and does not go back -/

section
variable (s clocks held)

/-- The greatest date that qualifies, of markets that each have a latest complete
trading day. -/
structure RightDay (now : Instant) : Prop where
  fails : ∀ e, completeDays s clocks held now = .error e →
    latestSnapshotDate s clocks held now = .error e
  nothing : completeDays s clocks held now = .ok [] →
    latestSnapshotDate s clocks held now = .ok none
  greatest : ∀ pairs, completeDays s clocks held now = .ok pairs → pairs ≠ [] →
    ∃ date, latestSnapshotDate s clocks held now = .ok (some date) ∧
      IsGreatest {d | Qualifies pairs d} date

def NeverBack (earlier later : Instant) : Prop :=
  ∀ date date', latestSnapshotDate s clocks held earlier = .ok (some date) →
    latestSnapshotDate s clocks held later = .ok (some date') → date ≤ date'

/-- Some date closed on every market is no earlier than the last day closed on one. -/
def FloorCloses (now : Instant) : Prop :=
  Complete s clocks held now → held ≠ [] → ∃ date, AllClosed s clocks held now date ∧
    ∃ m ∈ held, ∀ day, m.isTradingDay day = true → Closed s clocks now m day → day ≤ date

/-- What has closed on every market stays so. -/
def StaysClosed (earlier later : Instant) : Prop :=
  Complete s clocks held earlier → Complete s clocks held later →
    ∀ date, AllClosed s clocks held earlier date → AllClosed s clocks held later date

end

theorem completeDays_ne_nil (h : completeDays s clocks held now = .ok pairs) :
    pairs ≠ [] ↔ held ≠ [] := by
  rw [← List.length_pos_iff_ne_nil, ← (mapM_ok h).length_eq, List.length_pos_iff_ne_nil]

theorem latestSnapshotDate_eq (h : completeDays s clocks held now = .ok pairs) :
    latestSnapshotDate s clocks held now = .ok (latestFinalDate pairs) := by
  rw [latestSnapshotDate, h]
  rfl

/-- The last day closed on a market is its latest complete trading day. -/
theorem floor_iff (h : completeDays s clocks held now = .ok pairs) {date : NaiveDate} :
    (∃ m ∈ held, ∀ day, m.isTradingDay day = true → Closed s clocks now m day → day ≤ date) ↔
      ∃ p ∈ pairs, p.2 ≤ date := by
  constructor
  · rintro ⟨m, hm, hlast⟩
    obtain ⟨latest, hlatest⟩ := exists_completeDays.mpr ⟨pairs, h⟩ m hm
    obtain ⟨htrades, hspec⟩ := complete_spec hlatest
    exact ⟨(m, latest), (mem_completeDays h).mpr ⟨hm, hlatest⟩,
      hlast latest htrades ((hspec latest htrades).mpr le_rfl)⟩
  · rintro ⟨p, hp, hle⟩
    obtain ⟨hm, hlatest⟩ := (mem_completeDays h).mp hp
    obtain ⟨-, hspec⟩ := complete_spec hlatest
    exact ⟨p.1, hm, fun day htrades hclosed => ((hspec day htrades).mp hclosed).trans hle⟩

theorem rightDay_iff : RightDay s clocks held now ↔ FloorCloses s clocks held now := by
  have hfloor : ∀ {pairs}, completeDays s clocks held now = .ok pairs →
      ((∃ d, Qualifies pairs d ∧ ∃ p ∈ pairs, p.2 ≤ d) ↔
        ∃ date, AllClosed s clocks held now date ∧
          ∃ m ∈ held, ∀ day, m.isTradingDay day = true → Closed s clocks now m day → day ≤ date) := by
    intro pairs hpairs
    refine exists_congr fun d => ?_
    rw [qualifies_iff_allClosed hpairs, floor_iff hpairs]
  constructor
  · intro hright hcomplete hheld
    obtain ⟨pairs, hpairs⟩ := exists_completeDays.mp hcomplete
    have hne := (completeDays_ne_nil hpairs).mpr hheld
    obtain ⟨date, hdate, hgreatest⟩ := hright.greatest pairs hpairs hne
    obtain ⟨date', hfinal, -, hspec⟩ := latestFinalDate_spec hne
    rw [latestSnapshotDate_eq hpairs, hfinal] at hdate
    cases hdate
    exact (hfloor hpairs).mp (hspec.mp hgreatest)
  · intro hcloses
    constructor
    · intro e he
      rw [latestSnapshotDate, he]
      rfl
    · intro hnone
      rw [latestSnapshotDate_eq hnone]
      rfl
    · intro pairs hpairs hne
      obtain ⟨date, hfinal, -, hspec⟩ := latestFinalDate_spec hne
      have hheld := (completeDays_ne_nil hpairs).mp hne
      refine ⟨date, by rw [latestSnapshotDate_eq hpairs, hfinal], hspec.mpr ?_⟩
      exact (hfloor hpairs).mpr (hcloses (exists_completeDays.mpr ⟨pairs, hpairs⟩) hheld)

/-- Where it is right, what it answers is the greatest date closed on every market. -/
theorem RightDay.greatest_closed (h : RightDay s clocks held now) {date : NaiveDate}
    (hdate : latestSnapshotDate s clocks held now = .ok (some date)) :
    Complete s clocks held now ∧ IsGreatest {d | AllClosed s clocks held now d} date := by
  obtain ⟨pairs, hpairs, hfinal⟩ := bind_ok hdate
  have hne : pairs ≠ [] := by
    rintro rfl
    cases hfinal
  obtain ⟨date', hdate', hgreatest⟩ := h.greatest pairs hpairs hne
  rw [hdate] at hdate'
  cases hdate'
  have hset : {d | Qualifies pairs d} = {d | AllClosed s clocks held now d} := by
    ext d
    exact qualifies_iff_allClosed hpairs
  exact ⟨exists_completeDays.mpr ⟨pairs, hpairs⟩, hset ▸ hgreatest⟩

theorem RightDay.answers (h : RightDay s clocks held now) (hcomplete : Complete s clocks held now)
    (hheld : held ≠ []) : ∃ date, latestSnapshotDate s clocks held now = .ok (some date) := by
  obtain ⟨pairs, hpairs⟩ := exists_completeDays.mp hcomplete
  obtain ⟨date, hdate, -⟩ := h.greatest pairs hpairs ((completeDays_ne_nil hpairs).mpr hheld)
  exact ⟨date, hdate⟩

/-- A date closed on every market has closed where a later one has. -/
theorem AllClosed.of_le {earlier later : Instant} (hcomplete : Complete s clocks held later)
    {date date' : NaiveDate} (hle : date ≤ date')
    (h : AllClosed s clocks held earlier date) (h' : AllClosed s clocks held later date') :
    AllClosed s clocks held later date := by
  constructor
  · obtain ⟨m, hm, day, hday, hrest⟩ := h'.advanced
    exact ⟨m, hm, day, hle.trans hday, hrest⟩
  · intro m hm
    obtain ⟨latest, hlatest⟩ := hcomplete m hm
    obtain ⟨-, hspec⟩ := complete_spec hlatest
    obtain ⟨day, hday, -⟩ := h.closed m hm
    obtain ⟨day', hday', hclosed⟩ := h'.closed m hm
    have hlast := (hspec day' (valuationDay_isGreatest hday').1.2).mp hclosed
    have hbefore := valuationDay_mono hle hday hday'
    exact ⟨day, hday, (hspec day (valuationDay_isGreatest hday).1.2).mpr (hbefore.trans hlast)⟩

theorem neverBack_iff {earlier later : Instant} (hearlier : RightDay s clocks held earlier)
    (hlater : RightDay s clocks held later) :
    NeverBack s clocks held earlier later ↔ StaysClosed s clocks held earlier later := by
  constructor
  · intro hback hcomplete hcomplete' date hclosed
    obtain ⟨m, hm, -⟩ := hclosed.advanced
    have hheld := List.ne_nil_of_mem hm
    obtain ⟨first, hfirst⟩ := hearlier.answers hcomplete hheld
    obtain ⟨second, hsecond⟩ := hlater.answers hcomplete' hheld
    have hle := (hearlier.greatest_closed hfirst).2.2 hclosed
    exact AllClosed.of_le hcomplete' (hle.trans (hback first second hfirst hsecond)) hclosed
      (hlater.greatest_closed hsecond).2.1
  · intro hstays first second hfirst hsecond
    obtain ⟨hcomplete, hgreatest⟩ := hearlier.greatest_closed hfirst
    obtain ⟨hcomplete', hgreatest'⟩ := hlater.greatest_closed hsecond
    exact hgreatest'.2 (hstays hcomplete hcomplete' first hgreatest.1)

/-- The date is the right one at two instants and does not go back, just where at
each a date no earlier than some market's last day closed has closed on every
market, and what has closed on every market by the first stays so. -/
theorem snapshot_date_iff (s : Store) (clocks : Clocks) (held : List Market)
    (earlier later : Instant) :
    (RightDay s clocks held earlier ∧ RightDay s clocks held later ∧
        NeverBack s clocks held earlier later) ↔
      FloorCloses s clocks held earlier ∧ FloorCloses s clocks held later ∧
        StaysClosed s clocks held earlier later := by
  rw [← rightDay_iff, ← rightDay_iff]
  refine and_congr_right fun hearlier => and_congr_right fun hlater => ?_
  exact neverBack_iff hearlier hlater

/-! A market whose day closes within the hour its clock repeats, and one that
did not trade for over a year beside a token. -/

theorem cairo_identities_ne : [(⟨none, true, []⟩ : MarketIdentity)] ≠ [] := List.cons_ne_nil _ _

def xcai : Market where
  listing := 1
  ticker := "ABC"
  currency := ⟨"AUD"⟩
  unpricedFrom := none
  identities := [⟨none, true, []⟩]
  identities_ne := cairo_identities_ne

def suspendedIdentity : MarketIdentity := ⟨none, true, ClosingPrices.daysBetween (ymd 2023 10 31) (ymd 2024 10 30)⟩

theorem suspended_identities_ne : [suspendedIdentity] ≠ [] := List.cons_ne_nil _ _

def suspended : Market where
  listing := 2
  ticker := "XYZ"
  currency := ⟨"AUD"⟩
  unpricedFrom := none
  identities := [suspendedIdentity]
  identities_ne := suspended_identities_ne

theorem token_identities_ne : [(⟨none, false, []⟩ : MarketIdentity)] ≠ [] := List.cons_ne_nil _ _

def token : Market where
  listing := 3
  ticker := "BTC"
  currency := ⟨"AUD"⟩
  unpricedFrom := none
  identities := [⟨none, false, []⟩]
  identities_ne := token_identities_ne

theorem markets_listed : ([xcai, suspended, token].map Market.listing).Nodup := by decide

theorem no_parcels : ∀ p ∈ ([] : List Valuation.ParcelRow),
    ∃ m ∈ [xcai, suspended, token], m.listing = p.listing := by
  intro p hp
  cases hp

def onExchanges : Store where
  book := ClosingPrices.Book.empty
  markets := [xcai, suspended, token]
  parcels := []
  allocations := []
  fx := ⟨fun _ => none⟩
  exchange := fun listing =>
    if listing = 1 then ⟨"XCAI", "Africa/Cairo", "23:30"⟩
    else ⟨"XASX", "Australia/Sydney", "16:00"⟩
  markets_unique := markets_listed
  rates_pos := no_rates
  parcels_listed := no_parcels

def ahead (seconds : ℕ) (now : Instant) : Instant :=
  if now.second + seconds < secondsInDay then ⟨now.date, now.second + seconds⟩
  else ⟨now.date.succ, now.second + seconds - secondsInDay⟩

/-- Cairo's clock about the end of Thursday 31 October 2024, when it goes back an hour. -/
def cairo (now : Instant) : Instant :=
  if (⟨ymd 2024 10 31, 75600⟩ : Instant) ≤ now then ahead 7200 now else ahead 10800 now

def zones : Clocks where
  timezone := fun name =>
    if name = "Africa/Cairo" then some cairo
    else if name = "Australia/Sydney" then some (ahead 39600) else none
  closeTime := fun time =>
    if time = "23:30" then some 84600 else if time = "16:00" then some 57600 else none

/-- 23:45 in Cairo. -/
def beforeChange : Instant := ⟨ymd 2024 10 31, 74700⟩

/-- 23:10 in Cairo, 25 minutes later. -/
def afterChange : Instant := ⟨ymd 2024 10 31, 76200⟩

/-- 17:00 in Sydney. -/
def resumed : Instant := ⟨ymd 2024 10 31, 21600⟩

theorem date_before : latestSnapshotDate onExchanges zones [xcai] beforeChange =
    .ok (some (ymd 2024 10 31)) := by
  decide

theorem date_after : latestSnapshotDate onExchanges zones [xcai] afterChange =
    .ok (some (ymd 2024 10 30)) := by
  decide

theorem date_suspended : latestSnapshotDate onExchanges zones [suspended, token] resumed =
    .ok (some (ymd 2024 10 30)) := by
  decide +kernel

theorem turns_year : turns (ymd 2023 10 30) (ymd 2024 10 30) = 366 := by decide

theorem thirtieth_succ : (ymd 2023 10 30).succ = ymd 2023 10 31 := by decide

/-- No day of the year up to the floor is a trading day. -/
theorem not_valued : suspended.latestTradingDayOnOrBefore (ymd 2024 10 30) = none := by
  have hyear : Order.pred^[366] (ymd 2024 10 30) = ymd 2023 10 30 := by
    rw [← turns_year]
    exact pred_iterate_turns (by decide)
  rw [Market.latestTradingDayOnOrBefore, Market.latestTradingDayWithin_eq, Descent.walk_eq_none, hyear]
  intro day hafter hle
  have hstart : ymd 2023 10 31 ≤ day := by
    rw [← thirtieth_succ, NaiveDate.succ_le_iff]
    exact hafter
  have hholiday := ClosingPrices.mem_daysBetween.mpr ⟨hstart, hle⟩
  have hshut : suspendedIdentity.isTradingDay day = false := by
    simp [MarketIdentity.isTradingDay, suspendedIdentity, hholiday]
  exact hshut

theorem beforeChange_le : beforeChange ≤ afterChange := by decide

/-- The date goes back with the clock, and the floor need not qualify. -/
theorem snapshot_date_goes_back :
    (beforeChange ≤ afterChange ∧ ¬ NeverBack onExchanges zones [xcai] beforeChange afterChange) ∧
      ¬ RightDay onExchanges zones [suspended, token] resumed := by
  constructor
  · apply And.intro beforeChange_le
    intro h
    have hback : ymd 2024 10 31 ≤ ymd 2024 10 30 := h _ _ date_before date_after
    exact absurd hback (by decide)
  · intro h
    obtain ⟨day, hday, -⟩ := (h.greatest_closed date_suspended).2.1.closed _ List.mem_cons_self
    rw [not_valued] at hday
    cases hday

end ShareTracker.SnapshotDate
