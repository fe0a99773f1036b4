import ShareTracker.ExactCounts
import ShareTracker.ClosingPrices

/-!
Conversion ratios over adjoining windows. Each is multiplied up event by event
in decimal arithmetic, the quantity's kept in lowest terms and the price's not,
and composes where none of the products is rounded.
-/
namespace ShareTracker.WindowRatios
open ClosingPrices
open RangeGuard (Failure)

/-- `price_basis_ratio`, as the decimal arithmetic multiplies it. -/
def priceTerms {ε : Type} [Panics ε] (D : DecimalRounding) (events : List PriceBasisEvent)
    (since upTo : NaiveDate) : Attempt ε (ℚ × ℚ) :=
  events.foldlM (fun r e =>
    if e.date ≤ since ∨ upTo < e.date then pure r
    else do return (← D.op (r.1 * e.recoverNew), ← D.op (r.2 * e.recoverOld))) (1, 1)

/-- The terms of the events dated in `(since, upTo]`. -/
def windowTerms (splits : List SplitEvent) (since upTo : NaiveDate) : List (ℚ × ℚ) :=
  (splits.filter fun s => inWindow since (some upTo) s.date).map fun s => (s.newUnits, s.oldUnits)

/-- No running product, normalised at each step, needs more digits than a figure has. -/
def ProductsFit (norm : ℚ → ℚ → ℚ × ℚ) : ℚ × ℚ → List (ℚ × ℚ) → Prop
  | _, [] => True
  | r, e :: rest =>
    (holds (r.1 * e.1) = true ∧ holds (r.2 * e.2) = true) ∧
      ProductsFit norm (norm (r.1 * e.1) (r.2 * e.2)) rest

/-- Neither ratio over the window rounds. -/
def WindowFits (splits : List SplitEvent) (since upTo : NaiveDate) : Prop :=
  ProductsFit reduced (1, 1) (windowTerms splits since upTo) ∧
    ProductsFit Prod.mk (1, 1) (windowTerms splits since upTo)

/-- The window's ratios, nothing rounded: what restates a quantity forward and
back over it, and a price back. -/
structure Restates (D : DecimalRounding) (splits : List SplitEvent) (since upTo : NaiveDate)
    (forward back price : ℚ) : Prop where
  forward : ∃ r, (D.rebaseTerms splits since upTo : Attempt Failure _).Yields r ∧
    r.1 / r.2 = forward
  back : ∃ r, (D.rebaseTerms splits upTo since : Attempt Failure _).Yields r ∧ r.1 / r.2 = back
  price : ∃ r, (priceTerms D (splits.map .ofSplit) since upTo : Attempt Failure _).Yields r ∧
    r.1 / r.2 = price

/-- Over adjoining windows the ratios compose, and a price is restated by the
inverse of what restates a quantity the same way. -/
def Composes (D : DecimalRounding) (splits : List SplitEvent) (a b c : NaiveDate) : Prop :=
  ∃ forward back price : NaiveDate → NaiveDate → ℚ,
    (∀ w ∈ [(a, b), (b, c), (a, c)],
      Restates D splits w.1 w.2 (forward w.1 w.2) (back w.1 w.2) (price w.1 w.2) ∧
        price w.1 w.2 * back w.1 w.2 = 1) ∧
    forward a b * forward b c = forward a c ∧ price a b * price b c = price a c

/-! ### Running products -/

section Running
variable {D : DecimalRounding} {ε : Type} [Panics ε] {norm : ℚ → ℚ → ℚ × ℚ}

def runningTerms (D : DecimalRounding) (norm : ℚ → ℚ → ℚ × ℚ) (r : ℚ × ℚ) (l : List (ℚ × ℚ)) :
    Attempt ε (ℚ × ℚ) :=
  l.foldlM (fun r e => do return norm (← D.op (r.1 * e.1)) (← D.op (r.2 * e.2))) r

theorem exists_yields_iff {r : ℚ × ℚ} {l : List (ℚ × ℚ)} :
    (∃ t, (runningTerms D norm r l : Attempt ε _).Yields t) ↔ ProductsFit norm r l := by
  induction l generalizing r with
  | nil => exact ⟨fun _ => trivial, fun _ => ⟨r, yields_pure.mpr rfl⟩⟩
  | cons e l ih =>
    unfold runningTerms at ih ⊢
    simp only [List.foldlM_cons]
    constructor
    · rintro ⟨t, h⟩
      obtain ⟨mid, hmid, h⟩ := yields_bind.mp h
      obtain ⟨new, hnew, hmid⟩ := yields_bind.mp hmid
      obtain ⟨old, hold, hmid⟩ := yields_bind.mp hmid
      obtain ⟨rfl, hnewholds⟩ := DecimalRounding.of_yields_op hnew
      obtain ⟨rfl, holdholds⟩ := DecimalRounding.of_yields_op hold
      obtain rfl := yields_pure.mp hmid
      exact ⟨⟨hnewholds, holdholds⟩, ih.mp ⟨t, h⟩⟩
    · rintro ⟨⟨hnew, hold⟩, hrest⟩
      obtain ⟨t, ht⟩ := ih.mpr hrest
      refine ⟨t, yields_bind.mpr ⟨norm (r.1 * e.1) (r.2 * e.2), ?_, ht⟩⟩
      refine yields_bind.mpr ⟨_, DecimalRounding.yields_op hnew, ?_⟩
      exact yields_bind.mpr
        ⟨_, DecimalRounding.yields_op hold, yields_pure.mpr rfl⟩

/-- What a running ratio comes to where nothing rounds. -/
theorem runningTerms_value (hnorm : ∀ new old, (norm new old).1 / (norm new old).2 = new / old)
    {r t : ℚ × ℚ} {l : List (ℚ × ℚ)} (h : (runningTerms D norm r l : Attempt ε _).Yields t) :
    t.1 / t.2 = r.1 / r.2 * (l.map fun e => e.1 / e.2).prod := by
  induction l generalizing r with
  | nil =>
    obtain rfl := yields_pure.mp h
    simp
  | cons e l ih =>
    unfold runningTerms at h ih
    rw [List.foldlM_cons] at h
    obtain ⟨mid, hmid, h⟩ := yields_bind.mp h
    obtain ⟨new, hnew, hmid⟩ := yields_bind.mp hmid
    obtain ⟨old, hold, hmid⟩ := yields_bind.mp hmid
    obtain ⟨rfl, -⟩ := DecimalRounding.of_yields_op hnew
    obtain ⟨rfl, -⟩ := DecimalRounding.of_yields_op hold
    obtain rfl := yields_pure.mp hmid
    rw [ih h, hnorm, List.map_cons, List.prod_cons, mul_div_mul_comm, mul_assoc]

end Running

/-! ### Windows -/

section Windows
variable {D : DecimalRounding} {ε : Type} [Panics ε] {splits : List SplitEvent}

/-- The product of the events' ratios over a window. -/
def windowFactor (splits : List SplitEvent) (since upTo : NaiveDate) : ℚ :=
  ((windowTerms splits since upTo).map fun e => e.1 / e.2).prod

theorem windowFactor_pos (splits : List SplitEvent) (since upTo : NaiveDate) :
    0 < windowFactor splits since upTo := by
  apply List.prod_pos
  simp only [windowTerms, List.map_map, List.mem_map]
  rintro _ ⟨s, -, rfl⟩
  exact div_pos s.newUnits_pos s.oldUnits_pos

theorem windowFactor_cons (s : SplitEvent) (splits : List SplitEvent) (since upTo : NaiveDate) :
    windowFactor (s :: splits) since upTo =
      (if since < s.date ∧ s.date ≤ upTo then s.newUnits / s.oldUnits else 1) *
        windowFactor splits since upTo := by
  unfold windowFactor windowTerms
  by_cases h : since < s.date ∧ s.date ≤ upTo
  · have hin : inWindow since (some upTo) s.date = true := by
      simpa [inWindow] using h
    simp [hin, h]
  · have hout : inWindow since (some upTo) s.date = false := by
      simpa [inWindow] using h
    simp [hout, h]

/-- Half-open windows that adjoin share no event and miss none. -/
theorem windowFactor_mul {a b c : NaiveDate} (hab : a ≤ b) (hbc : b ≤ c) :
    windowFactor splits a b * windowFactor splits b c = windowFactor splits a c := by
  induction splits with
  | nil => simp [windowFactor, windowTerms]
  | cons s splits ih =>
    rw [windowFactor_cons, windowFactor_cons, windowFactor_cons, mul_mul_mul_comm, ih]
    congr 1
    by_cases hsb : s.date ≤ b
    · have hac : (a < s.date ∧ s.date ≤ c) ↔ a < s.date :=
        and_iff_left_of_imp fun _ => hsb.trans hbc
      simp [hsb, hac]
    · have hac : (a < s.date ∧ s.date ≤ c) ↔ s.date ≤ c :=
        and_iff_right_of_imp fun _ => hab.trans_lt (not_le.mp hsb)
      simp [hsb, hac, not_le.mp hsb]

theorem splitTerms_eq (since upTo : NaiveDate) :
    (D.splitTerms splits since (some upTo) : Attempt ε _) =
      runningTerms D reduced (1, 1) (windowTerms splits since upTo) := by
  unfold DecimalRounding.splitTerms runningTerms windowTerms
  rw [List.foldlM_map, List.foldlM_filter]
  rfl

theorem priceTerms_eq (since upTo : NaiveDate) :
    (priceTerms D (splits.map .ofSplit) since upTo : Attempt ε _) =
      runningTerms D Prod.mk (1, 1) (windowTerms splits since upTo) := by
  unfold priceTerms runningTerms windowTerms
  rw [List.foldlM_map, List.foldlM_map, List.foldlM_filter]
  congr 1
  funext r s
  by_cases h : s.date ≤ since ∨ upTo < s.date
  · have hout : inWindow since (some upTo) s.date = false := by
      simpa [inWindow, imp_iff_not_or] using h
    simp [PriceBasisEvent.ofSplit, h, hout]
  · have hin : inWindow since (some upTo) s.date = true := by
      simpa [inWindow] using h
    simp [PriceBasisEvent.ofSplit, h, hin]

theorem windowTerms_self (date : NaiveDate) : windowTerms splits date date = [] := by
  unfold windowTerms
  rw [List.map_eq_nil_iff, List.filter_eq_nil_iff]
  intro s _
  simp [inWindow]

/-- Backward over a window is its ratio with the terms exchanged. -/
theorem rebaseTerms_swap {f t : NaiveDate} (h : f ≤ t) :
    (D.rebaseTerms splits t f : Attempt ε _) =
      do return (← D.splitTerms splits f (some t)).swap := by
  unfold DecimalRounding.rebaseTerms
  split_ifs with hle
  · obtain rfl : f = t := le_antisymm h hle
    rw [splitTerms_eq, windowTerms_self]
    rfl
  · rfl

variable {f t : NaiveDate} {forward back price : ℚ}

theorem Restates.fits (hft : f ≤ t) (h : Restates D splits f t forward back price) :
    WindowFits splits f t := by
  obtain ⟨q, hq, -⟩ := h.forward
  obtain ⟨p, hp, -⟩ := h.price
  rw [DecimalRounding.rebaseTerms, if_pos hft, splitTerms_eq] at hq
  rw [priceTerms_eq] at hp
  exact ⟨exists_yields_iff.mp ⟨q, hq⟩, exists_yields_iff.mp ⟨p, hp⟩⟩

theorem WindowFits.restates (hft : f ≤ t) (h : WindowFits splits f t) :
    Restates D splits f t (windowFactor splits f t) (windowFactor splits f t)⁻¹
      (windowFactor splits f t) := by
  obtain ⟨q, hq⟩ := (exists_yields_iff (D := D) (ε := Failure)).mpr h.1
  obtain ⟨p, hp⟩ := (exists_yields_iff (D := D) (ε := Failure)).mpr h.2
  have hqvalue : q.1 / q.2 = windowFactor splits f t := by
    rw [runningTerms_value reduced_value hq, div_one, one_mul]
    rfl
  have hpvalue : p.1 / p.2 = windowFactor splits f t := by
    rw [runningTerms_value (fun _ _ => rfl) hp, div_one, one_mul]
    rfl
  have hsplit : (D.splitTerms splits f (some t) : Attempt Failure _).Yields q := by
    rw [splitTerms_eq]
    exact hq
  constructor
  · refine ⟨q, ?_, hqvalue⟩
    rw [DecimalRounding.rebaseTerms, if_pos hft]
    exact hsplit
  · refine ⟨q.swap, ?_, ?_⟩
    · rw [rebaseTerms_swap hft]
      exact yields_bind.mpr ⟨q, hsplit, yields_pure.mpr rfl⟩
    · rw [← hqvalue, inv_div]
      rfl
  · refine ⟨p, ?_, hpvalue⟩
    rw [priceTerms_eq]
    exact hp

end Windows

/-- The ratios over adjoining windows compose, exactly, where no product of the
terms over any of the three is rounded. -/
theorem composes_iff_windowsFit (D : DecimalRounding) (splits : List SplitEvent)
    (a b c : NaiveDate) (hab : a ≤ b) (hbc : b ≤ c) :
    Composes D splits a b c ↔
      WindowFits splits a b ∧ WindowFits splits b c ∧ WindowFits splits a c := by
  constructor
  · rintro ⟨forward, back, price, hwindows, -⟩
    simp only [List.forall_mem_cons] at hwindows
    obtain ⟨hfirst, hsecond, hwhole, -⟩ := hwindows
    exact ⟨hfirst.1.fits hab, hsecond.1.fits hbc, hwhole.1.fits (hab.trans hbc)⟩
  · rintro ⟨hfirst, hsecond, hwhole⟩
    refine ⟨windowFactor splits, fun f t => (windowFactor splits f t)⁻¹, windowFactor splits, ?_,
      windowFactor_mul hab hbc, windowFactor_mul hab hbc⟩
    have hinverse : ∀ f t, windowFactor splits f t * (windowFactor splits f t)⁻¹ = 1 := by
      intro f t
      exact mul_inv_cancel₀ (windowFactor_pos splits f t).ne'
    simp only [List.forall_mem_cons, List.not_mem_nil, false_imp_iff, implies_true, and_true]
    exact ⟨⟨hfirst.restates hab, hinverse a b⟩, ⟨hsecond.restates hbc, hinverse b c⟩,
      hwhole.restates (hab.trans hbc), hinverse a c⟩

/-! ### Two splits with long terms -/

theorem longTerms_pos : (0 : ℚ) < 1000000000000001 / 10 ^ 15 := by norm_num

/-- 1.000000000000001 units for every one. -/
def longSplit (date : NaiveDate) : SplitEvent :=
  .shareSplit date (1000000000000001 / 10 ^ 15) 1 longTerms_pos SplitRatio.unit_pos

def twoLongSplits : List SplitEvent := [longSplit (ymd 2024 3 1), longSplit (ymd 2024 9 1)]

theorem composes_iff_windowsFit_longSplit :
    Composes halfEvenRounding [longSplit (ymd 2024 3 1)] (ymd 2024 1 1) (ymd 2024 6 1)
        (ymd 2025 1 1) ↔
      WindowFits [longSplit (ymd 2024 3 1)] (ymd 2024 1 1) (ymd 2024 6 1) ∧
        WindowFits [longSplit (ymd 2024 3 1)] (ymd 2024 6 1) (ymd 2025 1 1) ∧
        WindowFits [longSplit (ymd 2024 3 1)] (ymd 2024 1 1) (ymd 2025 1 1) :=
  composes_iff_windowsFit halfEvenRounding [longSplit (ymd 2024 3 1)] (ymd 2024 1 1)
    (ymd 2024 6 1) (ymd 2025 1 1) (by decide) (by decide)

theorem twoLongSplits_answers :
    (halfEvenRounding.rebaseTerms twoLongSplits (ymd 2024 1 1) (ymd 2024 6 1) :
        Attempt Failure _).answer = .ok (1000000000000001 / 10 ^ 15, 1) ∧
      (halfEvenRounding.rebaseTerms twoLongSplits (ymd 2024 6 1) (ymd 2025 1 1) :
        Attempt Failure _).answer = .ok (1000000000000001 / 10 ^ 15, 1) ∧
      (halfEvenRounding.rebaseTerms twoLongSplits (ymd 2024 1 1) (ymd 2025 1 1) :
        Attempt Failure _).answer = .ok (1000000000000002 / 10 ^ 15, 1) := by
  decide +kernel

/-- Over both splits the product has 30 decimals, and is rounded. -/
theorem window_ratio_rounds :
    ¬ ∀ (splits : List SplitEvent) (a b c : NaiveDate), a ≤ b → b ≤ c →
      ∀ ab bc ac : ℚ × ℚ,
        (halfEvenRounding.rebaseTerms splits a b : Attempt Failure _).answer = .ok ab →
        (halfEvenRounding.rebaseTerms splits b c : Attempt Failure _).answer = .ok bc →
        (halfEvenRounding.rebaseTerms splits a c : Attempt Failure _).answer = .ok ac →
        ab.1 / ab.2 * (bc.1 / bc.2) = ac.1 / ac.2 := by
  intro h
  obtain ⟨hfirst, hsecond, hwhole⟩ := twoLongSplits_answers
  have hproduct := h twoLongSplits (ymd 2024 1 1) (ymd 2024 6 1) (ymd 2025 1 1) (by decide)
    (by decide) _ _ _ hfirst hsecond hwhole
  norm_num at hproduct

end ShareTracker.WindowRatios
