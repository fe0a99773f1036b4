import ShareTracker.RangeGuard

/-!
When the guard on re-based quantities is complete: whether the products of the
terms fit, and whether a rounded-up candidate of an allocation does.
-/
namespace ShareTracker.RangeGuard

/-! ### Operations -/

section Operations
variable {a b c q : ℚ}

theorem op_of_lt (h : |q| < 2 ^ 96) :
    (integerPart.op q : Attempt Failure ℚ).answer = .ok q := by
  have hin : integerPart.inRange q = true := decide_eq_true h
  rw [DecimalRounding.op, if_pos hin]
  rfl

theorem op_ok (h : (integerPart.op q : Attempt Failure ℚ).answer = .ok c) : |q| < 2 ^ 96 ∧ c = q := by
  rw [DecimalRounding.op] at h
  split at h
  · rename_i hin
    exact ⟨of_decide_eq_true hin, (Except.ok.inj h).symm⟩
  · cases h

theorem op_answers (hq : 0 ≤ q) :
    (∃ c, (integerPart.op q : Attempt Failure ℚ).answer = .ok c) ↔ q < 2 ^ 96 := by
  constructor
  · rintro ⟨c, h⟩
    rw [← abs_of_nonneg hq]
    exact (op_ok h).1
  · intro h
    rw [← abs_of_nonneg hq] at h
    exact ⟨q, op_of_lt h⟩

theorem printed_answers (hq : 0 ≤ q) :
    (∃ c, (integerPart.printed q : Attempt Failure ℚ).answer = .ok c) ↔ q < 2 ^ 96 := by
  rw [← op_answers hq, DecimalRounding.printed, DecimalRounding.op]
  split
  · exact ⟨fun _ => ⟨_, rfl⟩, fun _ => ⟨_, rfl⟩⟩
  · rfl

theorem printed_ok (h : (integerPart.printed q : Attempt Failure ℚ).answer = .ok c) : c = q :=
  DecimalRounding.answer_printed h

theorem checked_answer (hq : 0 ≤ q) : (integerPart.checked q : Attempt Failure _).answer =
    .ok (if q < 2 ^ 96 then some q else none) := by
  rw [DecimalRounding.checked]
  by_cases h : q < 2 ^ 96
  · have hin : integerPart.inRange q = true := by
      apply decide_eq_true
      rw [abs_of_nonneg hq]
      exact h
    rw [if_pos hin, if_pos h]
    rfl
  · have hout : ¬ integerPart.inRange q = true := by
      intro hin
      have hlt := of_decide_eq_true hin
      rw [abs_of_nonneg hq] at hlt
      exact h hlt
    rw [if_neg hout, if_neg h]

/-- Where a product does not fit but the whole result does, the division alone does. -/
theorem div_lt_of_mul (ha : 0 ≤ a) (hc : 0 < c) (hle : a ≤ 2 ^ 96)
    (hbig : ¬ a * b < 2 ^ 96) (hfits : a * b / c < 2 ^ 96) : a / c < 2 ^ 96 := by
  have hone : 1 ≤ b := by
    by_contra hlt
    have hsmall : a * b < a ∨ a = 0 := by
      rcases ha.eq_or_lt with hzero | hpos
      · exact .inr hzero.symm
      · exact .inl (mul_lt_of_lt_one_right hpos (not_le.mp hlt))
    rcases hsmall with hsmall | rfl
    · exact hbig (hsmall.trans_le hle)
    · exact hbig (by norm_num)
  calc a / c ≤ a * b / c := div_le_div_of_nonneg_right (le_mul_of_one_le_right ha hone) hc.le
    _ < 2 ^ 96 := hfits

theorem mulDiv_answers (ha : 0 ≤ a) (hb : 0 < b) (hc : 0 < c) (hle : a ≤ 2 ^ 96) :
    (∃ v, (integerPart.mulDiv a b c : Attempt Failure ℚ).answer = .ok v) ↔ a * b / c < 2 ^ 96 := by
  have hproduct : 0 ≤ a * b := mul_nonneg ha hb.le
  have hquotient : 0 ≤ a / c := div_nonneg ha hc.le
  have hresult : 0 ≤ a * b / c := div_nonneg hproduct hc.le
  have hswap : a / c * b = a * b / c := by ring
  rw [DecimalRounding.mulDiv]
  constructor
  · rintro ⟨v, h⟩
    obtain ⟨o, ho, h⟩ := answer_bind.mp h
    rw [checked_answer hproduct] at ho
    obtain rfl := Except.ok.inj ho
    split at h
    · rename_i product hsome
      split at hsome
      · obtain rfl := Option.some.inj hsome
        exact (op_answers hresult).mp ⟨v, h⟩
      · cases hsome
    · obtain ⟨share, hshare, h⟩ := answer_bind.mp h
      rw [(op_ok hshare).2, hswap] at h
      exact (op_answers hresult).mp ⟨v, h⟩
  · intro hfits
    by_cases hlt : a * b < 2 ^ 96
    · obtain ⟨v, hv⟩ := (op_answers hresult).mpr hfits
      refine ⟨v, answer_bind.mpr ⟨some (a * b), ?_, hv⟩⟩
      rw [checked_answer hproduct, if_pos hlt]
    · have hshare := op_of_lt (q := a / c)
        (by rw [abs_of_nonneg hquotient]; exact div_lt_of_mul ha hc hle hlt hfits)
      obtain ⟨v, hv⟩ := (op_answers hresult).mpr hfits
      refine ⟨v, answer_bind.mpr ⟨none, ?_, answer_bind.mpr ⟨a / c, hshare, ?_⟩⟩⟩
      · rw [checked_answer hproduct, if_neg hlt]
      · rw [hswap]
        exact hv

theorem mulDiv_ok {v : ℚ} (h : (integerPart.mulDiv a b c : Attempt Failure ℚ).answer = .ok v) :
    v = a * (b / c) := by
  rw [DecimalRounding.mulDiv] at h
  obtain ⟨o, ho, h⟩ := answer_bind.mp h
  cases o with
  | some product =>
    have hproduct : product = a * b := DecimalRounding.answer_checked ho product rfl
    rw [(op_ok h).2, hproduct, mul_div_assoc]
  | none =>
    obtain ⟨share, hshare, h⟩ := answer_bind.mp h
    rw [(op_ok h).2, (op_ok hshare).2]
    ring

theorem scaledQuantity_answer (ha : 0 ≤ a) (hle : a ≤ 2 ^ 96) (hb : 0 < b) (hc : 0 < c) :
    (scaledQuantity a b c).answer =
      .ok (if a * b / c < 2 ^ 96 then some (a * b / c) else none) := by
  have hproduct : 0 ≤ a * b := mul_nonneg ha hb.le
  have hquotient : 0 ≤ a / c := div_nonneg ha hc.le
  have hresult : 0 ≤ a * b / c := div_nonneg hproduct hc.le
  have hswap : a / c * b = a * b / c := by ring
  rw [scaledQuantity]
  by_cases hlt : a * b < 2 ^ 96
  · refine answer_bind.mpr ⟨some (a * b), ?_, checked_answer hresult⟩
    rw [checked_answer hproduct, if_pos hlt]
  · refine answer_bind.mpr ⟨none, ?_, ?_⟩
    · rw [checked_answer hproduct, if_neg hlt]
    · by_cases hdiv : a / c < 2 ^ 96
      · refine answer_bind.mpr ⟨some (a / c), ?_, ?_⟩
        · rw [checked_answer hquotient, if_pos hdiv]
        · change (integerPart.checked (a / c * b) : Attempt Failure _).answer = _
          rw [hswap]
          exact checked_answer hresult
      · have hout : ¬ a * b / c < 2 ^ 96 := fun hfits => hdiv (div_lt_of_mul ha hc hle hlt hfits)
        refine answer_bind.mpr ⟨none, ?_, ?_⟩
        · rw [checked_answer hquotient, if_neg hdiv]
        · rw [if_neg hout]
          rfl

theorem checkedRebasedQuantity_answer (units new old : String × ℚ) (hu : 0 ≤ units.2)
    (hle : units.2 ≤ 2 ^ 96) (hn : 0 < new.2) (ho : 0 < old.2) :
    (checkedRebasedQuantity units new old).answer =
      .ok (if units.2 * new.2 / old.2 < 2 ^ 96 then .ok (units.2 * new.2 / old.2)
        else .error ⟨units, new, old⟩) := by
  refine answer_bind.mpr ⟨_, scaledQuantity_answer hu hle hn ho, ?_⟩
  by_cases hfits : units.2 * new.2 / old.2 < 2 ^ 96
  · rw [if_pos hfits, if_pos hfits]
    rfl
  · rw [if_neg hfits, if_neg hfits]
    rfl

end Operations

/-! ### The walk over a parcel's splits -/

theorem value_le (d : Decimal) : d.value ≤ 2 ^ 96 := ((le_abs_self _).trans_lt (abs_value_lt d)).le

theorem walkSplits_cons {q : ℚ} {terms : ℚ × ℚ} {split : SplitEvent} {rest : List SplitEvent}
    {answer : Option UnrepresentableQuantity} (hq : 0 ≤ q) (hle : q ≤ 2 ^ 96)
    (hnew : 0 < terms.1) (hold : 0 < terms.2) :
    (walkSplits q terms (split :: rest)).answer = .ok answer ↔
      terms.1 * split.newUnits < 2 ^ 96 ∧ terms.2 * split.oldUnits < 2 ^ 96 ∧
        if q * (terms.1 * split.newUnits) / (terms.2 * split.oldUnits) < 2 ^ 96 then
          (walkSplits q (terms.1 * split.newUnits, terms.2 * split.oldUnits) rest).answer = .ok answer
        else answer = some ⟨("quantity", q), ("new units", terms.1 * split.newUnits),
          ("old units", terms.2 * split.oldUnits)⟩ := by
  have hnew' : 0 < terms.1 * split.newUnits := mul_pos hnew split.newUnits_pos
  have hold' : 0 < terms.2 * split.oldUnits := mul_pos hold split.oldUnits_pos
  have hchecked := checkedRebasedQuantity_answer ("quantity", q)
    ("new units", terms.1 * split.newUnits) ("old units", terms.2 * split.oldUnits)
    hq hle hnew' hold'
  rw [walkSplits]
  constructor
  · intro h
    obtain ⟨new, hn, h⟩ := answer_bind.mp h
    obtain ⟨hnlt, rfl⟩ := op_ok hn
    obtain ⟨old, ho, h⟩ := answer_bind.mp h
    obtain ⟨holt, rfl⟩ := op_ok ho
    obtain ⟨result, hresult, h⟩ := answer_bind.mp h
    rw [hchecked] at hresult
    obtain rfl := Except.ok.inj hresult
    refine ⟨(le_abs_self _).trans_lt hnlt, (le_abs_self _).trans_lt holt, ?_⟩
    split
    · rename_i hfits
      rw [if_pos hfits] at h
      exact h
    · rename_i hout
      rw [if_neg hout] at h
      exact (Except.ok.inj h).symm
  · rintro ⟨hnlt, holt, h⟩
    refine answer_bind.mpr ⟨_, op_of_lt (by rw [abs_of_pos hnew']; exact hnlt), ?_⟩
    refine answer_bind.mpr ⟨_, op_of_lt (by rw [abs_of_pos hold']; exact holt), ?_⟩
    refine answer_bind.mpr ⟨_, hchecked, ?_⟩
    split at h
    · rename_i hfits
      rw [if_pos hfits]
      exact h
    · rename_i hout
      rw [if_neg hout, h]
      rfl

/-- The walk answers exactly where the products fit up to the first refusal. -/
theorem walkSplits_answers {q : ℚ} (hq : 0 ≤ q) (hle : q ≤ 2 ^ 96) {terms : ℚ × ℚ}
    (hnew : 0 < terms.1) (hold : 0 < terms.2) (ss : List SplitEvent) :
    (∃ answer, (walkSplits q terms ss).answer = .ok answer) ↔ WalkFits q (products terms ss) := by
  induction ss generalizing terms with
  | nil => exact ⟨fun _ => trivial, fun _ => ⟨none, rfl⟩⟩
  | cons split rest ih =>
    have ih := @ih (terms.1 * split.newUnits, terms.2 * split.oldUnits)
      (mul_pos hnew split.newUnits_pos) (mul_pos hold split.oldUnits_pos)
    rw [products, WalkFits]
    constructor
    · rintro ⟨answer, h⟩
      obtain ⟨hn, ho, h⟩ := (walkSplits_cons hq hle hnew hold).mp h
      refine ⟨hn, ho, fun hfits => ?_⟩
      rw [if_pos hfits] at h
      exact ih.mp ⟨answer, h⟩
    · rintro ⟨hn, ho, hrest⟩
      by_cases hfits : q * (terms.1 * split.newUnits) / (terms.2 * split.oldUnits) < 2 ^ 96
      · obtain ⟨answer, h⟩ := ih.mpr (hrest hfits)
        refine ⟨answer, (walkSplits_cons hq hle hnew hold).mpr ⟨hn, ho, ?_⟩⟩
        rw [if_pos hfits]
        exact h
      · refine ⟨some ⟨("quantity", q), ("new units", terms.1 * split.newUnits),
          ("old units", terms.2 * split.oldUnits)⟩, (walkSplits_cons hq hle hnew hold).mpr ⟨hn, ho, ?_⟩⟩
        rw [if_neg hfits]

/-- It finds nothing exactly where every product and every quantity fits. -/
theorem walkSplits_none {q : ℚ} (hq : 0 ≤ q) (hle : q ≤ 2 ^ 96) {terms : ℚ × ℚ}
    (hnew : 0 < terms.1) (hold : 0 < terms.2) (ss : List SplitEvent) :
    (walkSplits q terms ss).answer = .ok none ↔
      WalkFits q (products terms ss) ∧ ∀ t ∈ products terms ss, q * t.1 / t.2 < 2 ^ 96 := by
  induction ss generalizing terms with
  | nil => exact ⟨fun _ => ⟨trivial, fun _ h => absurd h List.not_mem_nil⟩, fun _ => rfl⟩
  | cons split rest ih =>
    have ih := @ih (terms.1 * split.newUnits, terms.2 * split.oldUnits)
      (mul_pos hnew split.newUnits_pos) (mul_pos hold split.oldUnits_pos)
    rw [walkSplits_cons hq hle hnew hold, products, WalkFits, List.forall_mem_cons]
    constructor
    · rintro ⟨hn, ho, h⟩
      split at h
      · rename_i hfits
        obtain ⟨hwalk, hall⟩ := ih.mp h
        exact ⟨⟨hn, ho, fun _ => hwalk⟩, hfits, hall⟩
      · cases h
    · rintro ⟨⟨hn, ho, hwalk⟩, hfits, hall⟩
      refine ⟨hn, ho, ?_⟩
      rw [if_pos hfits]
      exact ih.mpr ⟨hwalk hfits, hall⟩

/-- Where every quantity fits, so do all the products. -/
theorem WalkFits.all {q : ℚ} {l : List (ℚ × ℚ)} (h : WalkFits q l)
    (hall : ∀ t ∈ l, q * t.1 / t.2 < 2 ^ 96) : ∀ t ∈ l, t.1 < 2 ^ 96 ∧ t.2 < 2 ^ 96 := by
  induction l with
  | nil => exact fun t ht => absurd ht List.not_mem_nil
  | cons first rest ih =>
    obtain ⟨hnew, hold, hrest⟩ := h
    intro t ht
    rcases List.mem_cons.mp ht with rfl | ht
    · exact ⟨hnew, hold⟩
    · exact ih (hrest (hall first List.mem_cons_self))
        (fun t ht => hall t (List.mem_cons_of_mem first ht)) t ht

/-! ### A list of checks -/

section Checks
variable {α β : Type} {check : α → Attempt Failure (Option β)}

theorem firstRefusal_cons {a : α} {rest : List α} {answer : Option β} :
    (firstRefusal check (a :: rest)).answer = .ok answer ↔
      (∃ b, (check a).answer = .ok (some b) ∧ answer = some b) ∨
        ((check a).answer = .ok none ∧ (firstRefusal check rest).answer = .ok answer) := by
  rw [firstRefusal, answer_bind]
  constructor
  · rintro ⟨o, ho, h⟩
    cases o with
    | none => exact .inr ⟨ho, h⟩
    | some b => exact .inl ⟨b, ho, (answer_pure.mp h).symm⟩
  · rintro (⟨b, hb, rfl⟩ | ⟨hnone, h⟩)
    · exact ⟨some b, hb, rfl⟩
    · exact ⟨none, hnone, h⟩

theorem firstRefusal_none {l : List α} :
    (firstRefusal check l).answer = .ok none ↔ ∀ a ∈ l, (check a).answer = .ok none := by
  induction l with
  | nil => exact ⟨fun _ a ha => absurd ha List.not_mem_nil, fun _ => rfl⟩
  | cons a rest ih =>
    rw [firstRefusal_cons, ih, List.forall_mem_cons]
    constructor
    · rintro (⟨b, -, hb⟩ | h)
      · cases hb
      · exact h
    · exact .inr

theorem firstRefusal_answers {l : List α} (h : ∀ a ∈ l, ∃ answer, (check a).answer = .ok answer) :
    ∃ answer, (firstRefusal check l).answer = .ok answer := by
  induction l with
  | nil => exact ⟨none, rfl⟩
  | cons a rest ih =>
    obtain ⟨o, ho⟩ := h a List.mem_cons_self
    cases o with
    | some b => exact ⟨some b, firstRefusal_cons.mpr (.inl ⟨b, ho, rfl⟩)⟩
    | none =>
      obtain ⟨answer, hrest⟩ := ih fun a ha => h a (List.mem_cons_of_mem _ ha)
      exact ⟨answer, firstRefusal_cons.mpr (.inr ⟨ho, hrest⟩)⟩

end Checks

theorem checkParcel_none {splits : List SplitEvent} {p : Parcel} :
    (checkParcel splits p).answer = .ok none ↔
      WalkFits p.quantity.value (p.terms splits) ∧ p.QuantityFits splits :=
  walkSplits_none p.pos.le (value_le p.quantity) one_pos one_pos _

theorem checkParcels_answer {splits : List SplitEvent} (parcels : List Parcel) :
    (∃ answer, (firstRefusal (checkParcel splits) parcels).answer = .ok answer) ↔
      ParcelsFit splits parcels := by
  induction parcels with
  | nil => exact ⟨fun _ => trivial, fun _ => ⟨none, rfl⟩⟩
  | cons p rest ih =>
    have hwalk : (∃ answer, (checkParcel splits p).answer = .ok answer) ↔
        WalkFits p.quantity.value (p.terms splits) :=
      walkSplits_answers p.pos.le (value_le p.quantity) one_pos one_pos _
    rw [ParcelsFit, ← ih]
    constructor
    · rintro ⟨answer, h⟩
      rcases firstRefusal_cons.mp h with ⟨b, hb, -⟩ | ⟨hnone, hrest⟩
      · refine ⟨hwalk.mp ⟨some b, hb⟩, fun hfits => ?_⟩
        have hnone := checkParcel_none.mpr ⟨hwalk.mp ⟨some b, hb⟩, hfits⟩
        rw [hb] at hnone
        cases hnone
      · exact ⟨(checkParcel_none.mp hnone).1, fun _ => ⟨answer, hrest⟩⟩
    · rintro ⟨hfits, hrest⟩
      obtain ⟨o, ho⟩ := hwalk.mpr hfits
      cases o with
      | some b => exact ⟨some b, firstRefusal_cons.mpr (.inl ⟨b, ho, rfl⟩)⟩
      | none =>
        obtain ⟨answer, hanswer⟩ := hrest (checkParcel_none.mp ho).2
        exact ⟨answer, firstRefusal_cons.mpr (.inr ⟨ho, hanswer⟩)⟩

/-! ### The ratio of a window -/

theorem reduced_le {a b : ℚ} (ha : 0 ≤ a) (hb : 0 ≤ b) : (reduced a b).1 ≤ a ∧ (reduced a b).2 ≤ b := by
  rw [reduced]
  split
  · rename_i hg
    exact ⟨div_le_self ha hg.le, div_le_self hb hg.le⟩
  · exact ⟨le_rfl, le_rfl⟩

theorem times_le (r : SplitRatio) (s : SplitEvent) :
    (r.times s).new ≤ r.new * s.newUnits ∧ (r.times s).old ≤ r.old * s.oldUnits := by
  have hnew := (mul_pos r.new_pos s.newUnits_pos).le
  have hold := (mul_pos r.old_pos s.oldUnits_pos).le
  have hle := reduced_le hnew hold
  rw [reduced_eq ⟨r.new * s.newUnits, r.old * s.oldUnits, _, _⟩] at hle
  exact hle

/-- The terms of the last of some products. -/
def lastTerms (terms : ℚ × ℚ) (ss : List SplitEvent) : ℚ × ℚ :=
  ss.foldl (fun terms split => (terms.1 * split.newUnits, terms.2 * split.oldUnits)) terms

theorem lastTerms_mem {terms : ℚ × ℚ} {ss : List SplitEvent} (h : ss ≠ []) (more : List SplitEvent) :
    lastTerms terms ss ∈ products terms (ss ++ more) := by
  induction ss generalizing terms with
  | nil => exact absurd rfl h
  | cons split rest ih =>
    rw [List.cons_append, products, lastTerms, List.foldl_cons]
    by_cases hrest : rest = []
    · rw [hrest]
      exact List.mem_cons_self
    · exact List.mem_cons_of_mem _ (ih hrest)

theorem products_append_left {terms : ℚ × ℚ} {xs ys : List SplitEvent} {t : ℚ × ℚ}
    (h : t ∈ products terms xs) : t ∈ products terms (xs ++ ys) := by
  induction xs generalizing terms with
  | nil => exact absurd h List.not_mem_nil
  | cons split rest ih =>
    rw [List.cons_append, products]
    rcases List.mem_cons.mp h with rfl | h
    · exact List.mem_cons_self
    · exact List.mem_cons_of_mem _ (ih h)

/-- Where the products fit, the reduced terms do, and the ratio is theirs. -/
theorem foldlM_timesEvent_answer {ss : List SplitEvent} {r : SplitRatio} {terms : ℚ × ℚ}
    (hnew : r.new ≤ terms.1) (hold : r.old ≤ terms.2)
    (hfits : ∀ t ∈ products terms ss, t.1 < 2 ^ 96 ∧ t.2 < 2 ^ 96) :
    (ss.foldlM integerPart.timesEvent (r.new, r.old) : Attempt Failure _).answer =
      .ok ((ss.foldl SplitRatio.times r).new, (ss.foldl SplitRatio.times r).old) := by
  induction ss generalizing r terms with
  | nil => rfl
  | cons split rest ih =>
    rw [products, List.forall_mem_cons] at hfits
    obtain ⟨hnewle, holdle⟩ := times_le r split
    have hnewmul : r.new * split.newUnits ≤ terms.1 * split.newUnits :=
      mul_le_mul_of_nonneg_right hnew split.newUnits_pos.le
    have holdmul : r.old * split.oldUnits ≤ terms.2 * split.oldUnits :=
      mul_le_mul_of_nonneg_right hold split.oldUnits_pos.le
    rw [List.foldlM_cons, List.foldl_cons]
    refine answer_bind.mpr ⟨((r.times split).new, (r.times split).old), ?_,
      ih (hnewle.trans hnewmul) (holdle.trans holdmul) hfits.2⟩
    rw [DecimalRounding.timesEvent]
    refine answer_bind.mpr ⟨r.new * split.newUnits, op_of_lt ?_, ?_⟩
    · rw [abs_of_pos (mul_pos r.new_pos split.newUnits_pos)]
      exact hnewmul.trans_lt hfits.1.1
    refine answer_bind.mpr ⟨r.old * split.oldUnits, op_of_lt ?_, ?_⟩
    · rw [abs_of_pos (mul_pos r.old_pos split.oldUnits_pos)]
      exact holdmul.trans_lt hfits.1.2
    · exact congrArg Except.ok (reduced_eq ⟨r.new * split.newUnits, r.old * split.oldUnits, _, _⟩)

theorem foldl_times_factor {ss : List SplitEvent} {r : SplitRatio} {terms : ℚ × ℚ}
    (h : r.factor = terms.1 / terms.2) :
    (ss.foldl SplitRatio.times r).factor = (lastTerms terms ss).1 / (lastTerms terms ss).2 := by
  induction ss generalizing r terms with
  | nil => exact h
  | cons split rest ih =>
    rw [List.foldl_cons, lastTerms, List.foldl_cons]
    apply ih
    rw [SplitRatio.times_factor, h]
    exact (mul_div_mul_comm _ _ _ _).symm

section Window
variable {splits : List SplitEvent} {acquired date : NaiveDate}

def window (splits : List SplitEvent) (acquired date : NaiveDate) : List SplitEvent :=
  splits.filter fun split => inWindow acquired (some date) split.date

/-- In date order a window is where the splits after its start begin. -/
theorem splitsAfter_window (hsorted : splits.Pairwise fun a b => a.date ≤ b.date) :
    ∃ more, splitsAfter splits acquired = window splits acquired date ++ more := by
  have hafter : (splitsAfter splits acquired).Pairwise fun a b =>
      decide (b.date ≤ date) = true → decide (a.date ≤ date) = true := by
    refine (hsorted.sublist List.filter_sublist).imp ?_
    intro a b hab hb
    exact decide_eq_true (hab.trans (of_decide_eq_true hb))
  obtain ⟨htake, -⟩ := StableSort.takeWhile_dropWhile_eq_filter hafter
  refine ⟨(splitsAfter splits acquired).dropWhile fun split => decide (split.date ≤ date), ?_⟩
  have hwindow : window splits acquired date =
      (splitsAfter splits acquired).takeWhile fun split => decide (split.date ≤ date) := by
    rw [htake, window, splitsAfter, List.filter_filter]
    apply List.filter_congr
    intro split _
    rw [Bool.eq_iff_iff]
    simp [inWindow, and_comm]
  rw [hwindow, List.takeWhile_append_dropWhile]

theorem splitRatio_window :
    splitRatio splits acquired (some date) =
      (window splits acquired date).foldl SplitRatio.times .identity := by
  rw [splitRatio, window, List.foldl_filter]

/-- The terms a read of a window works with, where the products after its start fit. -/
theorem splitTerms_answer (date : NaiveDate) (hsorted : splits.Pairwise fun a b => a.date ≤ b.date)
    (hfits : ∀ t ∈ products (1, 1) (splitsAfter splits acquired), t.1 < 2 ^ 96 ∧ t.2 < 2 ^ 96) :
    (integerPart.splitTerms splits acquired (some date) : Attempt Failure _).answer =
      .ok ((splitRatio splits acquired (some date)).new, (splitRatio splits acquired (some date)).old) := by
  obtain ⟨more, hmore⟩ : ∃ more, splitsAfter splits acquired =
      window splits acquired date ++ more := splitsAfter_window hsorted
  have hwindow : ∀ t ∈ products (1, 1) (window splits acquired date), t.1 < 2 ^ 96 ∧ t.2 < 2 ^ 96 := by
    intro t ht
    apply hfits
    rw [hmore]
    exact products_append_left ht
  rw [splitRatio_window, DecimalRounding.splitTerms, ← List.foldlM_filter]
  exact foldlM_timesEvent_answer (r := .identity) le_rfl le_rfl hwindow

/-- A quantity that fits after every split fits at the end of any window. -/
theorem factor_fits {q : ℚ} (hsorted : splits.Pairwise fun a b => a.date ≤ b.date)
    (hq : q < 2 ^ 96)
    (hfits : ∀ t ∈ products (1, 1) (splitsAfter splits acquired), q * t.1 / t.2 < 2 ^ 96) :
    q * (splitRatio splits acquired (some date)).factor < 2 ^ 96 := by
  obtain ⟨more, hmore⟩ : ∃ more, splitsAfter splits acquired =
      window splits acquired date ++ more := splitsAfter_window hsorted
  rw [splitRatio_window]
  by_cases hempty : window splits acquired date = []
  · rw [hempty, List.foldl_nil, SplitRatio.identity_factor, mul_one]
    exact hq
  · have hlast := hfits _ (hmore ▸ lastTerms_mem hempty more)
    rw [@foldl_times_factor _ _ (1, 1) rfl, ← mul_div_assoc]
    exact hlast

end Window

/-! ### Reads -/

theorem checked_exists (q : ℚ) :
    ∃ o, (integerPart.checked q : Attempt Failure _).answer = .ok o ∧ ∀ r ∈ o, r = q := by
  rw [DecimalRounding.checked]
  split
  · refine ⟨some q, rfl, ?_⟩
    rintro r ⟨⟩
    rfl
  · exact ⟨none, rfl, fun r hr => nomatch hr⟩

theorem timesRatio_exists (u : AcquiredUnits) (new old : ℚ) :
    ∃ o, (u.timesRatio integerPart new old : Attempt Failure _).answer = .ok o ∧
      ∀ p ∈ o, p.1 / p.2 = u.value * (new / old) := by
  have hvalue : (reduced u.num old).1 * (reduced new u.den).1 /
      ((reduced new u.den).2 * (reduced u.num old).2) = u.value * (new / old) := by
    calc (reduced u.num old).1 * (reduced new u.den).1 /
          ((reduced new u.den).2 * (reduced u.num old).2)
        = (reduced u.num old).1 / (reduced u.num old).2 *
            ((reduced new u.den).1 / (reduced new u.den).2) := by
          rw [mul_comm (reduced new u.den).2, mul_div_mul_comm]
      _ = u.num / old * (new / u.den) := by rw [reduced_value, reduced_value]
      _ = u.value * (new / old) := by
          rw [AcquiredUnits.value, div_mul_div_comm, div_mul_div_comm, mul_comm old]
  obtain ⟨num, hnum, hnumeq⟩ := checked_exists ((reduced u.num old).1 * (reduced new u.den).1)
  obtain ⟨den, hden, hdeneq⟩ := checked_exists ((reduced new u.den).2 * (reduced u.num old).2)
  rw [AcquiredUnits.timesRatio]
  cases num with
  | none => exact ⟨none, answer_bind.mpr ⟨none, hnum, rfl⟩, by simp⟩
  | some num =>
    cases den with
    | none =>
      refine ⟨none, answer_bind.mpr ⟨some num, hnum, ?_⟩, by simp⟩
      exact answer_bind.mpr ⟨none, hden, rfl⟩
    | some den =>
      refine ⟨some (num, den), answer_bind.mpr ⟨some num, hnum, ?_⟩, ?_⟩
      · exact answer_bind.mpr ⟨some den, hden, rfl⟩
      · intro p hp
        obtain rfl := Option.some.inj hp
        rw [hnumeq num rfl, hdeneq den rfl]
        exact hvalue

section Forward
variable {splits : List SplitEvent} {acquired date : NaiveDate} {c : ℚ} {r : SplitRatio}

/-- A forward read answers exactly where the quantity it comes to fits. -/
theorem splitAdjustedQuantity_answers (hdate : acquired ≤ date) (hc : 0 ≤ c) (hle : c ≤ 2 ^ 96)
    (hterms : (integerPart.splitTerms splits acquired (some date) : Attempt Failure _).answer =
      .ok (r.new, r.old)) :
    (∃ figure, (integerPart.splitAdjustedQuantity (.new c) splits acquired date :
      Attempt Failure ℚ).answer = .ok figure) ↔ c * r.factor < 2 ^ 96 := by
  have hrebase : (integerPart.rebaseTerms splits acquired date : Attempt Failure _).answer =
      .ok (r.new, r.old) := by
    rw [DecimalRounding.rebaseTerms, if_pos hdate]
    exact hterms
  have hfactor : c * r.new / r.old = c * r.factor := mul_div_assoc _ _ _
  have hnonneg : 0 ≤ c * r.factor := mul_nonneg hc r.factor_pos.le
  rw [DecimalRounding.splitAdjustedQuantity, answer_bind_of hrebase]
  simp only
  by_cases heq : r.new = r.old
  · rw [if_pos heq, AcquiredUnits.new_value, printed_answers hc, r.new_eq_old.mp heq, mul_one]
  · rw [if_neg heq]
    obtain ⟨o, ho, hvalue⟩ := timesRatio_exists (.new c) r.new r.old
    rw [answer_bind_of ho]
    cases o with
    | some p =>
      have hp : p.1 / p.2 = c * r.factor := by
        rw [hvalue p rfl, AcquiredUnits.new_value]
        rfl
      rw [← hp] at hnonneg ⊢
      exact printed_answers hnonneg
    | none =>
      rw [← hfactor]
      exact mulDiv_answers hc r.new_pos r.old_pos hle

theorem splitAdjustedQuantity_ok (hdate : acquired ≤ date)
    (hterms : (integerPart.splitTerms splits acquired (some date) : Attempt Failure _).answer =
      .ok (r.new, r.old)) {figure : ℚ}
    (h : (integerPart.splitAdjustedQuantity (.new c) splits acquired date :
      Attempt Failure ℚ).answer = .ok figure) : figure = c * r.factor := by
  have hrebase : (integerPart.rebaseTerms splits acquired date : Attempt Failure _).answer =
      .ok (r.new, r.old) := by
    rw [DecimalRounding.rebaseTerms, if_pos hdate]
    exact hterms
  rw [DecimalRounding.splitAdjustedQuantity, answer_bind_of hrebase] at h
  simp only at h
  by_cases heq : r.new = r.old
  · rw [if_pos heq] at h
    rw [printed_ok h, AcquiredUnits.new_value, r.new_eq_old.mp heq, mul_one]
  · rw [if_neg heq] at h
    obtain ⟨o, ho, hvalue⟩ := timesRatio_exists (.new c) r.new r.old
    rw [answer_bind_of ho] at h
    cases o with
    | some p =>
      rw [printed_ok h, hvalue p rfl, AcquiredUnits.new_value]
      rfl
    | none => exact mulDiv_ok h

end Forward

theorem candidates_bounds {approx : ℚ} (h : 0 ≤ approx) (hle : approx ≤ 2 ^ 96) :
    ∀ c ∈ DecimalRounding.candidates approx, 0 ≤ c ∧ c ≤ 2 ^ 96 := by
  intro c hc
  obtain ⟨dp, -, rfl⟩ := List.mem_map.mp hc
  refine ⟨ScaledRounding.atScale_nonneg dp h, ?_⟩
  have hbound := ScaledRounding.atScale_mono dp hle
  have hkept : ScaledRounding.atScale dp (2 ^ 96) = 2 ^ 96 := by
    have hmultiple := ScaledRounding.atScale_of_multiple (Nat.zero_le dp) (2 ^ 96)
    norm_num at hmultiple ⊢
    exact hmultiple
  rwa [hkept] at hbound

theorem fraction_exists {num den : ℚ} (hnum : 0 ≤ num) (hden : 0 < den)
    (hfits : num / den < 2 ^ 96) :
    ∃ u, (AcquiredUnits.fraction integerPart num den : Attempt Failure _).answer = .ok u ∧
      u.value = num / den := by
  rw [AcquiredUnits.fraction]
  by_cases hone : den = 1
  · rw [if_pos hone]
    refine ⟨_, rfl, ?_⟩
    rw [AcquiredUnits.new_value, hone, div_one]
  · rw [if_neg hone]
    by_cases hwhole : (num / den).den = 1
    · rw [if_pos hwhole]
      refine ⟨.new (num / den), answer_bind.mpr ⟨num / den, op_of_lt ?_, rfl⟩,
        AcquiredUnits.new_value _⟩
      rw [abs_of_nonneg (div_nonneg hnum hden.le)]
      exact hfits
    · rw [if_neg hwhole]
      exact ⟨_, rfl, reduced_value num den⟩

section Backward
variable {splits : List SplitEvent} {acquired : NaiveDate} {sale : UnitsAt} {r : SplitRatio}

/-- The search answers exactly where every candidate it tries fits. -/
theorem shortestRestating_answers (hdate : acquired ≤ sale.basis)
    (hterms : (integerPart.splitTerms splits acquired (some sale.basis) : Attempt Failure _).answer =
      .ok (r.new, r.old)) {cs : List ℚ} (hcs : ∀ c ∈ cs, 0 ≤ c ∧ c ≤ 2 ^ 96) :
    (∃ o, (integerPart.shortestRestating sale splits acquired cs : Attempt Failure _).answer =
      .ok o) ↔ CandidatesFit sale.quantity.value r.factor cs := by
  induction cs with
  | nil => exact ⟨fun _ => trivial, fun _ => ⟨none, rfl⟩⟩
  | cons c rest ih =>
    obtain ⟨hc, hle⟩ := hcs c List.mem_cons_self
    have ih := ih fun c hc => hcs c (List.mem_cons_of_mem _ hc)
    have hread := splitAdjustedQuantity_answers hdate hc hle hterms
    rw [CandidatesFit, ← hread, ← ih, DecimalRounding.shortestRestating]
    constructor
    · rintro ⟨o, h⟩
      obtain ⟨figure, hfigure, h⟩ := answer_bind.mp h
      refine ⟨⟨figure, hfigure⟩, fun hne => ?_⟩
      rw [if_neg (splitAdjustedQuantity_ok hdate hterms hfigure ▸ hne)] at h
      exact ⟨o, h⟩
    · rintro ⟨⟨figure, hfigure⟩, hrest⟩
      rw [answer_bind_of hfigure]
      by_cases heq : figure = sale.quantity.value
      · rw [if_pos heq]
        exact ⟨some c, rfl⟩
      · rw [if_neg heq]
        exact hrest (splitAdjustedQuantity_ok hdate hterms hfigure ▸ heq)

theorem rebaseTerms_back (hdate : acquired ≤ sale.basis)
    (hterms : (integerPart.splitTerms splits acquired (some sale.basis) : Attempt Failure _).answer =
      .ok (r.new, r.old)) :
    (integerPart.rebaseTerms splits sale.basis acquired : Attempt Failure _).answer =
      .ok (r.old, r.new) := by
  rw [DecimalRounding.rebaseTerms]
  by_cases hle : sale.basis ≤ acquired
  · have heq : sale.basis = acquired := le_antisymm hle hdate
    have hnone : (splits.filter fun s => inWindow acquired (some acquired) s.date) = [] := by
      rw [List.filter_eq_nil_iff]
      intro s _
      simp [inWindow]
    have hwindow : (integerPart.splitTerms splits acquired (some acquired) : Attempt Failure _) =
        pure (1, 1) := by
      rw [DecimalRounding.splitTerms, ← List.foldlM_filter, hnone]
      rfl
    rw [heq, hwindow] at hterms
    rw [if_pos hle, heq, hwindow]
    obtain ⟨hnew, hold⟩ := Prod.mk.inj (Except.ok.inj hterms)
    rw [← hnew, ← hold]
    rfl
  · rw [if_neg hle, answer_bind_of hterms]
    rfl

/-- A backward read of a quantity that fits answers, but where a full-precision
one tries a candidate that does not. -/
theorem asAcquiredQuantity_answers (hdate : acquired ≤ sale.basis) (hpos : 0 < sale.quantity.value)
    (hterms : (integerPart.splitTerms splits acquired (some sale.basis) : Attempt Failure _).answer =
      .ok (r.new, r.old))
    (hfits : sale.quantity.value / r.factor < 2 ^ 96) :
    (∃ u, (integerPart.asAcquiredQuantity sale splits acquired : Attempt Failure _).answer =
      .ok u) ↔
      (10 ^ 27 ≤ sale.quantity.mantissa.natAbs → r.factor ≠ 1 → sale.quantity.value * r.old < 2 ^ 96 →
        CandidatesFit sale.quantity.value r.factor
          (DecimalRounding.candidates (sale.quantity.value / r.factor))) := by
  have hvalue : sale.quantity.value * r.old / r.new = sale.quantity.value / r.factor := by
    rw [SplitRatio.factor, div_div_eq_mul_div]
  have hproduct : 0 ≤ sale.quantity.value * r.old := (mul_pos hpos r.old_pos).le
  have happrox : 0 ≤ sale.quantity.value / r.factor := (div_pos hpos r.factor_pos).le
  rw [DecimalRounding.asAcquiredQuantity, answer_bind_of (rebaseTerms_back hdate hterms)]
  simp only
  by_cases heq : r.old = r.new
  · rw [if_pos heq]
    exact ⟨fun _ _ hne => absurd (r.new_eq_old.mp heq.symm) hne, fun _ => ⟨_, rfl⟩⟩
  · have hne : r.factor ≠ 1 := fun h => heq (r.new_eq_old.mpr h).symm
    rw [if_neg heq, answer_bind_of (checked_answer hproduct)]
    by_cases hlt : sale.quantity.value * r.old < 2 ^ 96
    · rw [if_pos hlt]
      obtain ⟨u, hu, huvalue⟩ := fraction_exists hproduct r.new_pos (hvalue ▸ hfits)
      rw [hvalue] at huvalue
      simp only
      rw [answer_bind_of hu]
      by_cases hfull : sale.quantity.mantissa.natAbs < DecimalRounding.fullPrecision
      · rw [if_pos hfull]
        exact ⟨fun _ hbig => absurd hfull (not_lt.mpr hbig), fun _ => ⟨u, rfl⟩⟩
      · obtain ⟨approx, happroxok⟩ := (printed_answers happrox).mpr hfits
        have happroxeq := printed_ok happroxok
        rw [← huvalue] at happroxok
        have hsearch := shortestRestating_answers hdate hterms
          (candidates_bounds happrox hfits.le)
        rw [if_neg hfull, answer_bind_of happroxok, happroxeq]
        constructor
        · rintro ⟨w, h⟩ - - -
          obtain ⟨o, ho, -⟩ := answer_bind.mp h
          exact hsearch.mp ⟨o, ho⟩
        · intro h
          obtain ⟨o, ho⟩ := hsearch.mpr (h (not_lt.mp hfull) hne hlt)
          rw [answer_bind_of ho]
          cases o with
          | some candidate => exact ⟨_, rfl⟩
          | none => exact ⟨u, rfl⟩
    · rw [if_neg hlt]
      simp only
      obtain ⟨v, hv⟩ := (mulDiv_answers hpos.le r.old_pos r.new_pos (value_le _)).mpr (hvalue ▸ hfits)
      rw [answer_bind_of hv]
      exact ⟨fun _ _ _ h => absurd h hlt, fun _ => ⟨_, rfl⟩⟩

end Backward

/-! ### The guard -/

theorem event_answers (row : Rebasing) :
    (∃ split, row.event.answer = .ok split) ↔ row.TermsFit := by
  cases row with
  | shareSplit date new old => exact ⟨fun _ => trivial, fun _ => ⟨_, rfl⟩⟩
  | bonusIssue date bonus held =>
    have hsum : (0 : ℚ) ≤ held + bonus := add_nonneg held.2.le bonus.2.le
    rw [Rebasing.TermsFit, ← op_answers hsum]
    constructor
    · rintro ⟨split, h⟩
      obtain ⟨c, hc, -⟩ := answer_bind.mp h
      exact ⟨c, hc⟩
    · rintro ⟨c, hc⟩
      exact ⟨_, answer_bind.mpr ⟨c, hc, rfl⟩⟩

theorem event_ok {row : Rebasing} {split : SplitEvent} (h : row.event.answer = .ok split) :
    split = row.announced := by
  cases row with
  | shareSplit date new old => exact (Except.ok.inj h).symm
  | bonusIssue date bonus held =>
    obtain ⟨_, -, h⟩ := answer_bind.mp h
    exact (Except.ok.inj h).symm

theorem mapM_event {rows : List Rebasing} {splits : List SplitEvent} :
    (rows.mapM Rebasing.event).answer = .ok splits ↔
      (∀ row ∈ rows, row.TermsFit) ∧ splits = rows.map Rebasing.announced := by
  induction rows generalizing splits with
  | nil =>
    rw [List.mapM_nil, answer_pure, List.map_nil]
    exact ⟨fun h => ⟨fun _ hr => absurd hr List.not_mem_nil, h.symm⟩, fun h => h.2.symm⟩
  | cons row rows ih =>
    rw [List.mapM_cons, answer_bind, List.forall_mem_cons, List.map_cons]
    constructor
    · rintro ⟨split, hsplit, h⟩
      obtain ⟨rest, hrest, h⟩ := answer_bind.mp h
      obtain ⟨hall, rfl⟩ := ih.mp hrest
      rw [← answer_pure.mp h, event_ok hsplit]
      exact ⟨⟨(event_answers row).mp ⟨split, hsplit⟩, hall⟩, rfl⟩
    · rintro ⟨⟨hrow, hall⟩, rfl⟩
      obtain ⟨split, hsplit⟩ := (event_answers row).mpr hrow
      refine ⟨split, hsplit, answer_bind.mpr ⟨_, ih.mpr ⟨hall, rfl⟩, ?_⟩⟩
      rw [event_ok hsplit]
      rfl

theorem announced_date (row : Rebasing) : row.announced.date = row.date := by
  cases row <;> rfl

namespace Listing

variable {l : Listing}

theorem splits_sorted (l : Listing) : l.splits.Pairwise fun a b => a.date ≤ b.date := by
  rw [splits, List.pairwise_map]
  refine (StableSort.sortBy_sorted Rebasing.date l.rebasings).imp ?_
  intro a b hab
  rwa [announced_date, announced_date]

theorem dbSplits_ok {splits : List SplitEvent} :
    l.dbSplits.answer = .ok splits ↔ (∀ row ∈ l.rebasings, row.TermsFit) ∧ splits = l.splits := by
  rw [dbSplits, mapM_event, Listing.splits]
  simp only [(StableSort.sortBy_perm Rebasing.date l.rebasings).mem_iff]

end Listing

/-- The products fit for the parcel of every allocation the guard comes to. -/
theorem products_fit {splits : List SplitEvent} {p : Parcel} (h : (checkParcel splits p).answer = .ok none) :
    ∀ t ∈ products (1, 1) (splitsAfter splits p.date), t.1 < 2 ^ 96 ∧ t.2 < 2 ^ 96 := by
  obtain ⟨hwalk, hfits⟩ := checkParcel_none.mp h
  exact hwalk.all hfits

theorem Allocation.factor_eq (splits : List SplitEvent) (a : Allocation) :
    a.factor splits = (splitRatio splits a.parcel.date (some a.saleDate)).factor :=
  basisFactor_of_le splits a.acquired_le

section Checked
variable {splits : List SplitEvent} {a : Allocation}

theorem checkAllocation_answer (hsorted : splits.Pairwise fun x y => x.date ≤ y.date)
    (hparcel : (checkParcel splits a.parcel).answer = .ok none) :
    (∃ answer, (checkAllocation splits a).answer = .ok answer) ∧
      ((checkAllocation splits a).answer = .ok none ↔ a.QuantityFits splits) := by
  have hterms := splitTerms_answer a.saleDate hsorted (products_fit hparcel)
  rw [Allocation.QuantityFits, a.factor_eq]
  generalize splitRatio splits a.parcel.date (some a.saleDate) = r at hterms ⊢
  have hchecked := checkedRebasedQuantity_answer ("quantity_allocated", a.quantity.value)
    ("old units", r.old) ("new units", r.new) a.pos.le (value_le a.quantity) r.old_pos r.new_pos
  have hvalue : a.quantity.value * r.old / r.new = a.quantity.value / r.factor := by
    rw [SplitRatio.factor, div_div_eq_mul_div]
  simp only [hvalue] at hchecked
  rw [checkAllocation, answer_bind_of hterms]
  simp only
  rw [answer_bind_of hchecked]
  by_cases hfits : a.quantity.value / r.factor < 2 ^ 96
  · rw [if_pos hfits]
    exact ⟨⟨none, rfl⟩, fun _ => hfits, fun _ => rfl⟩
  · rw [if_neg hfits]
    refine ⟨⟨_, rfl⟩, iff_of_false ?_ hfits⟩
    intro h
    cases Option.some_ne_none _ (Except.ok.inj h)

/-- What the guard lets through reads forward to any date. -/
theorem forward_answers (hsorted : splits.Pairwise fun x y => x.date ≤ y.date) {p : Parcel}
    (hparcel : (checkParcel splits p).answer = .ok none) {date : NaiveDate} (hdate : p.date ≤ date) :
    ∃ figure, (integerPart.splitAdjustedQuantity (.new p.quantity.value) splits p.date date :
      Attempt Failure ℚ).answer = .ok figure := by
  have hterms := splitTerms_answer date hsorted (products_fit hparcel)
  have hlt : p.quantity.value < 2 ^ 96 := (le_abs_self _).trans_lt (abs_value_lt p.quantity)
  apply (splitAdjustedQuantity_answers hdate p.pos.le (value_le p.quantity) hterms).mpr
  exact factor_fits hsorted hlt (checkParcel_none.mp hparcel).2

theorem backward_answers (hsorted : splits.Pairwise fun x y => x.date ≤ y.date)
    (hparcel : (checkParcel splits a.parcel).answer = .ok none) (hfits : a.QuantityFits splits) :
    (∃ units, (integerPart.asAcquiredQuantity ⟨a.quantity, a.saleDate⟩ splits a.parcel.date :
      Attempt Failure AcquiredUnits).answer = .ok units) ↔ a.RestatesInRange splits := by
  have hterms := splitTerms_answer a.saleDate hsorted (products_fit hparcel)
  rw [Allocation.QuantityFits, a.factor_eq] at hfits
  rw [Allocation.RestatesInRange, a.factor_eq]
  exact @asAcquiredQuantity_answers splits a.parcel.date ⟨a.quantity, a.saleDate⟩ _ a.acquired_le
    a.pos hterms hfits

end Checked

theorem ParcelsFit.walks {splits : List SplitEvent} {parcels : List Parcel}
    (h : ParcelsFit splits parcels) (hfits : ∀ p ∈ parcels, p.QuantityFits splits) :
    ∀ p ∈ parcels, (checkParcel splits p).answer = .ok none := by
  induction parcels with
  | nil => exact fun p hp => absurd hp List.not_mem_nil
  | cons first rest ih =>
    obtain ⟨hwalk, hrest⟩ := h
    obtain ⟨hfirst, hall⟩ := List.forall_mem_cons.mp hfits
    rw [List.forall_mem_cons]
    exact ⟨checkParcel_none.mpr ⟨hwalk, hfirst⟩, ih (hrest hfirst) hall⟩

namespace Listing

variable {l : Listing}

theorem checkAll_none : (l.checkAll l.splits).answer = .ok none ↔
    (∀ p ∈ l.parcels, (checkParcel l.splits p).answer = .ok none) ∧
      ∀ a ∈ l.allocations, a.QuantityFits l.splits := by
  rw [checkAll, answer_bind]
  constructor
  · rintro ⟨o, ho, h⟩
    cases o with
    | some e => cases h
    | none =>
      have hparcels := firstRefusal_none.mp ho
      refine ⟨hparcels, fun a ha => ?_⟩
      have hcheck := firstRefusal_none.mp h a ha
      exact (checkAllocation_answer l.splits_sorted (hparcels _ (l.drawn a ha))).2.mp hcheck
  · rintro ⟨hparcels, hfits⟩
    refine ⟨none, firstRefusal_none.mpr hparcels, firstRefusal_none.mpr fun a ha => ?_⟩
    exact (checkAllocation_answer l.splits_sorted (hparcels _ (l.drawn a ha))).2.mpr (hfits a ha)

theorem checkAll_answers :
    (∃ answer, (l.checkAll l.splits).answer = .ok answer) ↔ ParcelsFit l.splits l.parcels := by
  rw [← checkParcels_answer]
  constructor
  · rintro ⟨answer, h⟩
    obtain ⟨o, ho, -⟩ := answer_bind.mp h
    exact ⟨o, ho⟩
  · rintro ⟨o, ho⟩
    rw [checkAll, answer_bind_of ho]
    cases o with
    | some e => exact ⟨_, rfl⟩
    | none =>
      have hparcels := firstRefusal_none.mp ho
      apply firstRefusal_answers
      intro a ha
      exact (checkAllocation_answer l.splits_sorted (hparcels _ (l.drawn a ha))).1

/-- A listing with nothing to re-base is answered as the checks would. -/
theorem guard_answer (hterms : ∀ row ∈ l.rebasings, row.TermsFit) :
    l.rebasedQuantityBeyondRange.answer = (l.checkAll l.splits).answer := by
  rw [rebasedQuantityBeyondRange, answer_bind_of (dbSplits_ok.mpr ⟨hterms, rfl⟩)]
  by_cases hempty : l.splits = []
  · rw [if_pos hempty]
    refine (checkAll_none.mpr ⟨fun p _ => ?_, fun a _ => ?_⟩).symm
    · rw [hempty]
      rfl
    · rw [Allocation.QuantityFits, a.factor_eq, hempty, splitRatio, List.foldl_nil,
        SplitRatio.identity_factor, div_one]
      exact (le_abs_self _).trans_lt (abs_value_lt a.quantity)
  · rw [if_neg hempty]

end Listing

/-- The guard is complete and safe exactly where the units of every bonus issue
add up in range, the products of the terms fit for every parcel up to the
first quantity refused, and where nothing is refused every full-precision allocation
finds the count it was rounded from among candidates that fit. -/
theorem complete_iff (l : Listing) : l.Complete ↔
    (∀ row ∈ l.rebasings, row.TermsFit) ∧ ParcelsFit l.splits l.parcels ∧
      ((∀ p ∈ l.parcels, p.QuantityFits l.splits) →
        (∀ a ∈ l.allocations, a.QuantityFits l.splits) →
          ∀ a ∈ l.allocations, a.RestatesInRange l.splits) := by
  constructor
  · rintro ⟨⟨answer, hanswer⟩, hreads⟩
    have hterms : ∀ row ∈ l.rebasings, row.TermsFit := by
      obtain ⟨splits, hsplits, -⟩ := answer_bind.mp hanswer
      exact (Listing.dbSplits_ok.mp hsplits).1
    rw [Listing.guard_answer hterms] at hanswer hreads
    have hparcels := Listing.checkAll_answers.mp ⟨answer, hanswer⟩
    refine ⟨hterms, hparcels, fun hquantities hallocations a ha => ?_⟩
    have hchecks := hparcels.walks hquantities
    obtain ⟨splits, hsplits, -, hback⟩ := hreads (Listing.checkAll_none.mpr ⟨hchecks, hallocations⟩)
    obtain ⟨-, rfl⟩ := Listing.dbSplits_ok.mp hsplits
    exact (backward_answers l.splits_sorted (hchecks _ (l.drawn a ha)) (hallocations a ha)).mp
      (hback a ha)
  · rintro ⟨hterms, hparcels, hrestates⟩
    rw [Listing.Complete, Listing.guard_answer hterms]
    refine ⟨Listing.checkAll_answers.mpr hparcels, fun hnone => ?_⟩
    obtain ⟨hchecks, hallocations⟩ := Listing.checkAll_none.mp hnone
    refine ⟨l.splits, Listing.dbSplits_ok.mpr ⟨hterms, rfl⟩, ?_, ?_⟩
    · intro p hp date hdate
      exact forward_answers l.splits_sorted (hchecks p hp) hdate
    · intro a ha
      apply (backward_answers l.splits_sorted (hchecks _ (l.drawn a ha)) (hallocations a ha)).mpr
      exact hrestates (fun p hp => (checkParcel_none.mp (hchecks p hp)).2) hallocations a ha

theorem tenTo15_pos : (0 : ℚ) < 10 ^ 15 := by norm_num

theorem half_pos : (0 : ℚ) < 1 / 2 := by norm_num

theorem manyUnits_pos : (0 : ℚ) < 42 * 10 ^ 27 := by norm_num

theorem oneUnit_pos : 0 < (Decimal.new 1 0).value := by decide +kernel

theorem sixTenths_pos : 0 < (Decimal.new 6 1).value := by decide +kernel

theorem soldUnits_pos : 0 < (Decimal.new (504 * 10 ^ 26) 0).value := by decide +kernel

theorem sold_later : ymd 2019 1 1 ≤ ymd 2022 1 1 := by decide

theorem drawn_none (parcels : List Parcel) : ∀ a ∈ ([] : List Allocation), a.parcel ∈ parcels :=
  fun _ h => absurd h List.not_mem_nil

/-- One unit held through two restructures of 10^15 units for as many. -/
def restructured : Listing where
  rebasings := [
    .shareSplit (ymd 2020 1 1) ⟨10 ^ 15, tenTo15_pos⟩ ⟨10 ^ 15, tenTo15_pos⟩,
    .shareSplit (ymd 2021 1 1) ⟨10 ^ 15, tenTo15_pos⟩ ⟨10 ^ 15, tenTo15_pos⟩]
  parcels := [⟨ymd 2019 1 1, Decimal.new 1 0, oneUnit_pos⟩]
  allocations := []
  drawn := drawn_none _

def sixTenths : Parcel := ⟨ymd 2019 1 1, Decimal.new 6 1, sixTenths_pos⟩

def soldOut : Allocation :=
  ⟨sixTenths, ymd 2022 1 1, Decimal.new (504 * 10 ^ 26) 0, soldUnits_pos, sold_later⟩

theorem drawn_sixTenths : ∀ a ∈ [soldOut], a.parcel ∈ [sixTenths] := by
  intro a ha
  rw [List.mem_singleton.mp ha]
  exact List.mem_singleton_self _

/-- Six tenths of a unit, after a split the whole of which is sold. -/
def splitFar : Listing where
  rebasings := [.shareSplit (ymd 2020 1 1) ⟨42 * 10 ^ 27, manyUnits_pos⟩ ⟨1 / 2, half_pos⟩]
  parcels := [sixTenths]
  allocations := [soldOut]
  drawn := drawn_sixTenths

/-- Ratios that cancel make the guard itself panic, and a quantity it lets
through is read back by way of a whole unit that does not fit. -/
theorem guard_incomplete : ¬ restructured.Complete ∧
    splitFar.rebasedQuantityBeyondRange.answer.toOption.map Option.isSome = some false ∧
      ¬ splitFar.Complete := by
  have hnone : splitFar.rebasedQuantityBeyondRange.answer.toOption.map Option.isSome = some false := by
    decide +kernel
  refine ⟨?_, hnone, ?_⟩
  · rintro ⟨⟨answer, h⟩, -⟩
    have hpanics : restructured.rebasedQuantityBeyondRange.answer.toOption.isSome = false := by
      decide +kernel
    rw [h] at hpanics
    cases hpanics
  · rintro ⟨⟨answer, h⟩, hreads⟩
    have hanswer : answer = none := by
      rw [h] at hnone
      cases answer with
      | none => rfl
      | some e => cases hnone
    obtain ⟨splits, hsplits, -, hback⟩ := hreads (hanswer ▸ h)
    obtain ⟨-, rfl⟩ := Listing.dbSplits_ok.mp hsplits
    obtain ⟨units, hunits⟩ := hback soldOut (List.mem_singleton_self _)
    have hpanics : (integerPart.asAcquiredQuantity ⟨soldOut.quantity, soldOut.saleDate⟩
        splitFar.splits soldOut.parcel.date : Attempt Failure AcquiredUnits).answer.toOption.isSome =
          false := by
      decide +kernel
    rw [hunits] at hpanics
    cases hpanics

end ShareTracker.RangeGuard
