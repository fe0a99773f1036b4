import ShareTracker.TradeDesk
import ShareTracker.DrpConservation

/-!
Every stored trade follows the rules of one entered by hand, in exactly the runs
whose reinvestments and exercises are dated within the rules' bounds, whose
reinvestments have cash to reinvest, and whose substitutions round no parcel away.
-/
namespace ShareTracker.TradeDesk
open Checked TradeAmounts ParcelSources CorporateActions

namespace Desk

/-- A reinvestment's rules: one whose cash bought no whole unit has none. -/
def Reinvested (today : NaiveDate) (t : Drp.DrpTrade) : Prop :=
  (0 < t.quantity ∨ t.quantity = 0 ∧ t.computed = true) ∧ (reinvestedParcel t).figures.Sane today

/-- Every stored trade follows the rules. -/
structure Sound (s : Desk) : Prop where
  trades : ∀ r ∈ s.trades, 0 < r.figures.quantity ∧ r.figures.Sane s.today
  reinvested : ∀ t ∈ s.plan.trades, Reinvested s.today t

theorem Sound.figures {s : Desk} (hs : s.Sound) {c : AmountsCheck} (hc : c ∈ s.figures) :
    0 < c.quantity ∧ c.Sane s.today := by
  obtain ⟨r, hr, rfl⟩ := List.mem_map.mp hc
  exact hs.trades r hr

theorem Sound.tick {s : Desk} (hs : s.Sound) (days : ℕ) : (s.tick days).Sound where
  trades := fun r hr => ⟨(hs.trades r hr).1, (hs.trades r hr).2.later (le_addDays s.today days)⟩
  reinvested := fun t ht =>
    ⟨(hs.reinvested t ht).1, (hs.reinvested t ht).2.later (le_addDays s.today days)⟩

/-- Any stored trade can be read for a carried cost base. -/
theorem Sound.row {s : Desk} (hs : s.Sound) {r : Row} (hr : r ∈ s.rows) :
    0 ≤ r.figures.quantity ∧ r.figures.Sane s.today := by
  rcases List.mem_append.mp hr with hr | hr
  · exact ⟨(hs.trades r hr).1.le, (hs.trades r hr).2⟩
  · obtain ⟨t, ht, rfl⟩ := List.mem_map.mp hr
    obtain ⟨hquantity, hsane⟩ := hs.reinvested t ht
    refine ⟨?_, hsane⟩
    rcases hquantity with hpos | ⟨hnil, -⟩
    · exact hpos.le
    · exact hnil.symm.le

/-! ### What a write stores -/

/-- A write to the trades table: the figures it stores beside those it keeps. -/
structure Stores (s s' : Desk) (new : List AmountsCheck) : Prop where
  today : s'.today = s.today
  kept : ∀ c ∈ s'.figures, c ∈ s.figures ∨ c ∈ new
  stored : ∀ c ∈ new, c ∈ s'.figures
  plan : s'.plan.trades = s.plan.trades

theorem Stores.sound_iff {s s' : Desk} {new : List AmountsCheck} (h : Stores s s' new)
    (hs : s.Sound) : s'.Sound ↔ ∀ c ∈ new, 0 < c.quantity ∧ c.Sane s.today := by
  constructor
  · intro hs' c hc
    exact h.today ▸ hs'.figures (h.stored c hc)
  · intro hnew
    refine ⟨fun r hr => ?_, fun t ht => ?_⟩
    · rw [h.today]
      exact (h.kept r.figures (List.mem_map_of_mem hr)).elim (fun hold => hs.figures hold) (hnew _)
    · rw [h.today]
      exact hs.reinvested t (h.plan ▸ ht)

/-- A write that leaves nothing but what was stored. -/
theorem Sound.of_subset {s s' : Desk} (hs : s.Sound) (htoday : s'.today = s.today)
    (htrades : ∀ r ∈ s'.trades, r ∈ s.trades) (hplan : s'.plan = s.plan) : s'.Sound where
  trades := fun r hr => htoday ▸ hs.trades r (htrades r hr)
  reinvested := fun t ht => htoday ▸ hs.reinvested t (hplan ▸ ht)

theorem figures_insertRow (s : Desk) (draft : Row) :
    (s.insertRow draft).figures = s.figures ++ [draft.figures] := by
  rw [figures, insertRow, List.map_append]
  rfl

theorem insertRows_frame (s : Desk) (drafts : List Row) :
    (s.insertRows drafts).figures = s.figures ++ drafts.map Row.figures ∧
      (s.insertRows drafts).today = s.today ∧ (s.insertRows drafts).plan.trades = s.plan.trades := by
  unfold insertRows
  induction drafts generalizing s with
  | nil => simp
  | cons d ds ih =>
    obtain ⟨hfigures, htoday, hplan⟩ := ih (s.insertRow d)
    refine ⟨?_, htoday, hplan⟩
    rw [List.foldl_cons, hfigures, figures_insertRow, List.append_assoc]
    rfl

theorem stores_insertRows (s : Desk) (drafts : List Row) :
    Stores s (s.insertRows drafts) (drafts.map Row.figures) := by
  obtain ⟨hfigures, htoday, hplan⟩ := s.insertRows_frame drafts
  exact
    { today := htoday
      kept := fun c hc => List.mem_append.mp (hfigures ▸ hc)
      stored := fun c hc => hfigures ▸ List.mem_append_right _ hc
      plan := hplan }

theorem stores_insertRow (s : Desk) (draft : Row) : Stores s (s.insertRow draft) [draft.figures] :=
  s.stores_insertRows [draft]

/-- Rows inserted behind one that follows the rules. -/
theorem insertRows_exact {s : Desk} {row : Row} {drafts : List Row} (hs : s.Sound)
    (hrow : 0 < row.figures.quantity ∧ row.figures.Sane s.today) :
    (s.insertRows (row :: drafts)).Sound ↔
      ∀ r ∈ drafts, 0 < r.figures.quantity ∧ r.figures.Sane s.today := by
  rw [(s.stores_insertRows _).sound_iff hs, List.forall_mem_map, List.forall_mem_cons,
    and_iff_right hrow]

theorem stores_storeRow {s s' : Desk} {id : TradeId} {draft : Row}
    (hok : s.storeRow id draft = .ok s') : Stores s s' [draft.figures] := by
  unfold storeRow at hok
  obtain ⟨plan, hplan, hok⟩ := bind_ok hok
  obtain rfl := Except.ok.inj hok
  have hplan := mapError_ok.mp hplan
  unfold Drp.Register.writeTrade at hplan
  obtain ⟨_, -, hplan⟩ := bind_ok hplan
  obtain rfl := Except.ok.inj hplan
  refine ⟨rfl, fun c hc => ?_, fun c hc => ?_, rfl⟩
  · obtain ⟨r, hr, rfl⟩ := List.mem_map.mp hc
    rcases Keyed.mem_put.mp hr with ⟨hold, -⟩ | rfl
    · exact Or.inl (List.mem_map_of_mem hold)
    · exact Or.inr List.mem_cons_self
  · rw [List.mem_singleton.mp hc]
    exact List.mem_map.mpr ⟨_, Keyed.mem_put.mpr (Or.inr rfl), rfl⟩

/-! ### Trades and Sells -/

section Bodies
variable {b : TradeBody} {today : NaiveDate} {env : Surroundings}

theorem settlement_le (b : TradeBody) (env : Surroundings)
    (h : ∀ d ∈ b.settlementDate, b.date ≤ d) : b.date ≤ b.settlement env := by
  rw [TradeBody.settlement]
  cases hd : b.settlementDate with
  | none => exact le_addDays b.date _
  | some d => exact h d hd

theorem checkSell_sane (provenance : Option Provenance) (hok : b.checkSell today env = .ok ()) :
    (0 < (b.row provenance env).figures.quantity ∧ (b.row provenance env).figures.Sane today) ∧
      ∀ a ∈ b.allocations, 0 < a.2 := by
  unfold TradeBody.checkSell at hok
  obtain ⟨_, halloc, hok⟩ := bind_ok hok
  obtain ⟨_, -, hok⟩ := bind_ok hok
  exact ⟨checkAmounts_ok.mp (mapError_ok.mp hok), fun a ha =>
    not_le.mp fun hle => refuseIf_ok.mp halloc ⟨a, ha, hle⟩⟩

theorem check_sane (hok : b.check today env = .ok ()) :
    0 < (b.row none env).figures.quantity ∧ (b.row none env).figures.Sane today := by
  unfold TradeBody.check at hok
  split at hok
  · exact (checkSell_sane _ hok).1
  · obtain ⟨hquantity, hsane⟩ := checkAmounts_ok.mp (mapError_ok.mp hok)
    refine ⟨hquantity, { hsane with settlement := settlement_le b env fun d hd => ?_ }⟩
    have hle := hsane.settlement
    rw [TradeBody.figures, Option.mem_def.mp hd] at hle
    exact hle

end Bodies

theorem putTrade_sound {s s' : Desk} {id : Option TradeId} {body : TradeBody} {env : Surroundings}
    (hs : s.Sound) (hok : s.putTrade id body env = .ok s') : s'.Sound := by
  unfold putTrade at hok
  obtain ⟨_, hcheck, hok⟩ := bind_ok hok
  obtain ⟨_, -, hok⟩ := bind_ok hok
  refine ((stores_storeRow hok).sound_iff hs).mpr fun c hc => ?_
  rw [List.mem_singleton.mp hc]
  exact check_sane hcheck

theorem deleteTrades_sound {s : Desk} (hs : s.Sound) (gone : List TradeId) :
    (s.deleteTrades gone).Sound :=
  hs.of_subset rfl (fun _ hr => (List.mem_filter.mp hr).1) rfl

theorem recomputeSettlements_sound {s : Desk} (hs : s.Sound) (env : Surroundings) :
    (s.recomputeSettlements env).Sound := by
  refine ⟨fun r hr => ?_, hs.reinvested⟩
  obtain ⟨old, hold, rfl⟩ := List.mem_map.mp hr
  obtain ⟨hquantity, hsane⟩ := hs.trades old hold
  unfold resettle
  split
  · exact ⟨hquantity, { hsane with settlement := le_addDays old.figures.date _ }⟩
  · exact ⟨hquantity, hsane⟩

theorem operationSell_sound {s s' : Desk} {provenance : Provenance} {body : TradeBody}
    {env : Surroundings} (hs : s.Sound) (hok : s.operationSell provenance body env = .ok s') :
    s'.Sound := by
  unfold operationSell at hok
  obtain ⟨_, hcheck, hok⟩ := bind_ok hok
  obtain rfl := Except.ok.inj hok
  refine ((s.stores_insertRow _).sound_iff hs).mpr fun c hc => ?_
  rw [List.mem_singleton.mp hc]
  exact (checkSell_sane _ hcheck).1

/-! ### Parcels -/

/-- A parcel's figures follow the rules where the operation's own do: its
settlement, its GST and the currency of its costs are the parcel's own. -/
theorem NewParcel.sane {p : NewParcel} {today : NaiveDate} (hprice : 0 ≤ p.averagePrice)
    (hcosts : 0 ≤ p.brokerage) (hrate : 0 < p.fxRate) (hcgt : cgtStart ≤ p.date)
    (hfuture : p.date ≤ today)
    (hrep : representable (p.averagePrice * p.quantity + p.brokerage) = true) :
    p.figures.Sane today where
  price := hprice
  brokerage := hcosts
  gst := le_rfl
  brokerageCurrency := sameCurrency_self p.currency
  fxRate := hrate
  settlement := le_rfl
  cgt := hcgt
  notFuture := hfuture
  representable := by
    rw [AmountsCheck.costBase]
    exact (add_zero (p.averagePrice * p.quantity + p.brokerage)).symm ▸ hrep

theorem costBase_nonneg {c : AmountsCheck} {today : NaiveDate} (hc : c.Sane today)
    (hquantity : 0 ≤ c.quantity) : 0 ≤ c.costBase :=
  add_nonneg (add_nonneg (mul_nonneg hc.price hquantity) hc.brokerage) hc.gst

/-- A carried cost base is never negative. -/
theorem carriedCostBase_nonneg {c : AmountsCheck} {today : NaiveDate} (hc : c.Sane today)
    (hquantity : 0 ≤ c.quantity) (units : Positive) (reductions : List ℚ) :
    0 ≤ carriedCostBase c units.val reductions := by
  refine FlooredWalk.final_nonneg id ?_ reductions
  split
  · rename_i hpos
    rw [proratedInitialCost_eq hpos]
    exact div_nonneg (mul_nonneg (costBase_nonneg hc hquantity) units.property.le) hpos.le
  · exact le_rfl

theorem carry_ok {s : Desk} {d : Drawn} {carried : Row × ℚ} (hs : s.Sound)
    (hok : s.carry d = .ok carried) :
    0 < carried.1.figures.fxRate ∧ 0 ≤ carried.2 ∧ representable carried.2 = true := by
  unfold carry at hok
  obtain ⟨source, hsource, hok⟩ := bind_ok hok
  obtain ⟨_, -, hok⟩ := bind_ok hok
  obtain ⟨cost, hcost, hok⟩ := bind_ok hok
  obtain rfl := Except.ok.inj hok
  obtain ⟨hquantity, hsane⟩ := hs.row (List.mem_of_find?_eq_some (orRefuse_ok.mp hsource))
  obtain ⟨hrep, rfl⟩ := checked_eq_some.mp (orRefuse_ok.mp hcost)
  exact ⟨hsane.fxRate, carriedCostBase_nonneg hsane hquantity d.units d.reductions, hrep⟩

/-- A replacement dated where its closing Sell is follows the rules but for its quantity. -/
theorem replacementBuy_sane {source : Row} {provenance : Provenance} {date today : NaiveDate}
    {listing : ListingId} {account : HoldingAccountId} {quantity costBase : ℚ}
    (hrate : 0 < source.figures.fxRate) (hcost : 0 ≤ costBase)
    (hrep : representable costBase = true) (hcgt : cgtStart ≤ date) (hfuture : date ≤ today) :
    (replacementBuy source provenance date listing account quantity costBase).figures.Sane today := by
  refine NewParcel.sane le_rfl hcost hrate hcgt hfuture ?_
  rw [replacementBuy, zero_mul, zero_add]
  exact hrep

theorem representable_of_le {a b : ℚ} (ha : 0 ≤ a) (hab : a ≤ b) (hb : representable b = true) :
    representable a = true :=
  (representable_iff ha).mpr (hab.trans ((representable_iff (ha.trans hab)).mp hb))

/-! ### Transfers -/

theorem transferIn_ok {s : Desk} {body : TransferBody} {d : Drawn} {p : NewParcel} (hs : s.Sound)
    (hok : s.transferIn body d = .ok p) (hcgt : cgtStart ≤ body.date) (hfuture : body.date ≤ s.today) :
    p.quantity = d.quantity ∧ p.figures.Sane s.today := by
  unfold transferIn at hok
  obtain ⟨carried, hcarry, hok⟩ := bind_ok hok
  obtain ⟨_, -, hok⟩ := bind_ok hok
  obtain rfl := Except.ok.inj hok
  obtain ⟨hrate, hcost, hrep⟩ := carry_ok hs hcarry
  exact ⟨rfl, replacementBuy_sane hrate hcost hrep hcgt hfuture⟩

theorem feeSale_ok {body : TransferBody} {today : NaiveDate} {env : Surroundings}
    {fee : List TradeBody} (hok : feeSale body today env = .ok fee) :
    ∀ b ∈ fee, 0 < (b.row none env).figures.quantity ∧ (b.row none env).figures.Sane today := by
  unfold feeSale at hok
  split at hok
  · obtain rfl := Except.ok.inj hok
    exact fun b hb => absurd hb List.not_mem_nil
  · obtain ⟨_, -, hok⟩ := bind_ok hok
    obtain ⟨_, -, hok⟩ := bind_ok hok
    obtain ⟨_, hcheck, hok⟩ := bind_ok hok
    obtain rfl := Except.ok.inj hok
    intro b hb
    rw [List.mem_singleton.mp hb]
    exact (checkSell_sane _ hcheck).1

/-- What a closing Sell's check says of the operation: its date is within the
bounds, and every parcel it draws gives units. -/
theorem closingSell_ok {date today : NaiveDate} {listing : ListingId} {account : HoldingAccountId}
    {price fxRate : ℚ} {currency : CurrencyCode} {parcels : List Drawn} {env : Surroundings}
    (hok : (closingSell date listing account price currency fxRate (draws parcels)).checkSell today
      env = .ok ()) :
    (cgtStart ≤ date ∧ date ≤ today) ∧ ∀ d ∈ parcels, 0 < d.quantity := by
  obtain ⟨⟨-, hsane⟩, halloc⟩ := checkSell_sane none hok
  exact ⟨⟨hsane.cgt, hsane.notFuture⟩, fun d hd => halloc _ (List.mem_map_of_mem hd)⟩

theorem transfer_sound {s s' : Desk} {body : TransferBody} {env : Surroundings} (hs : s.Sound)
    (hok : s.transfer body env = .ok s') : s'.Sound := by
  unfold transfer at hok
  obtain ⟨_, -, hok⟩ := bind_ok hok
  obtain ⟨_, -, hok⟩ := bind_ok hok
  obtain ⟨ins, hins, hok⟩ := bind_ok hok
  obtain ⟨_, hsell, hok⟩ := bind_ok hok
  obtain ⟨fee, hfee, hok⟩ := bind_ok hok
  obtain rfl := Except.ok.inj hok
  obtain ⟨⟨hcgt, hfuture⟩, hpos⟩ := closingSell_ok hsell
  refine ((s.stores_insertRows _).sound_iff hs).mpr fun c hc => ?_
  obtain ⟨r, hr, rfl⟩ := List.mem_map.mp hc
  rcases List.mem_append.mp hr with hr | hr
  · rcases List.mem_cons.mp hr with rfl | hr
    · exact (checkSell_sane _ hsell).1
    · obtain ⟨p, hp, rfl⟩ := List.mem_map.mp hr
      obtain ⟨d, hd, hin⟩ := mem_mapM_ok hins hp
      obtain ⟨hquantity, hsane⟩ := transferIn_ok hs hin hcgt hfuture
      have hdrawn : p.row.figures.quantity = d.quantity := hquantity
      exact ⟨hdrawn ▸ hpos d hd, hsane⟩
  · obtain ⟨b, hb, rfl⟩ := List.mem_map.mp hr
    exact feeSale_ok hfee b hb

/-! ### Substitutions -/

section Substitution
variable {D : DecimalRounding}

theorem checkedOp_nonneg {q r : ℚ} (hq : 0 ≤ q) (h : checkedOp D q = some r) : 0 ≤ r := by
  unfold checkedOp at h
  split at h
  · obtain rfl := Option.some.inj h
    exact DecimalRounding.round_nonneg hq
  · cases h

theorem checkedRebasedQuantity_nonneg {units new old q : ℚ} (hu : 0 ≤ units) (hn : 0 ≤ new)
    (ho : 0 ≤ old) (h : checkedRebasedQuantity D units new old = some q) : 0 ≤ q := by
  unfold checkedRebasedQuantity at h
  split at h
  · rename_i product hproduct
    exact checkedOp_nonneg (div_nonneg (checkedOp_nonneg (mul_nonneg hu hn) hproduct) ho) h
  · obtain ⟨divided, hdivided, h⟩ := Option.bind_eq_some_iff.mp h
    exact checkedOp_nonneg (mul_nonneg (checkedOp_nonneg (div_nonneg hu ho) hdivided) hn) h

/-- A parcel's replacement has units where the registry rounded its holding, or
the ratio does not round it away. -/
def leavesUnits (D : DecimalRounding) (new old : ℚ) (p : Replaced) : Bool :=
  p.rounded.isSome || checkedRebasedQuantity D p.drawn.quantity new old ≠ some 0

theorem becomes_pos_iff {p : Replaced} {new old q : ℚ} (hu : 0 < p.drawn.quantity) (hn : 0 < new)
    (ho : 0 < old) (h : becomes D p.drawn p.rounded new old = some q) :
    0 < q ↔ leavesUnits D new old p = true := by
  unfold becomes at h
  unfold leavesUnits
  cases hr : p.rounded with
  | some count =>
    rw [hr] at h
    obtain rfl := Option.some.inj h
    exact iff_of_true count.property rfl
  | none =>
    rw [hr] at h
    have h : checkedRebasedQuantity D p.drawn.quantity new old = some q := h
    have hnonneg := checkedRebasedQuantity_nonneg hu.le hn.le ho.le h
    rw [h, Option.isSome_none, Bool.false_or, decide_eq_true_eq, ne_eq, Option.some_inj]
    exact ⟨fun hpos => hpos.ne', fun hne => lt_of_le_of_ne hnonneg (Ne.symm hne)⟩

theorem Terms.carries_nonneg {t : Terms} {cost : ℚ} (hcost : 0 ≤ cost) (hnew : 0 < t.newUnits)
    (hold : 0 < t.oldUnits) (hcash : ∀ c ∈ t.cash, 0 < c.cashPerUnit ∧ 0 < c.marketValue) :
    0 ≤ t.carries cost ∧ t.carries cost ≤ cost := by
  unfold carries
  cases hc : t.cash with
  | none => exact ⟨hcost, le_rfl⟩
  | some c =>
    obtain ⟨hper, hmv⟩ := hcash c hc
    have hnum : 0 < c.cashPerUnit * t.oldUnits := mul_pos hper hold
    have hscrip : 0 < c.marketValue * t.newUnits := mul_pos hmv hnew
    obtain ⟨hshare, hrest⟩ := apportion_nonneg hcost hnum.le
      (le_add_of_nonneg_right hscrip.le) (add_pos hnum hscrip)
    exact ⟨hrest, sub_le_self cost hshare⟩

theorem exchangeTerms_positive {a : Recorded} {t : Terms} (h : exchangeTerms a.val.kind = some t) :
    0 < t.newUnits ∧ 0 < t.oldUnits ∧ ∀ c ∈ t.cash, 0 < c.cashPerUnit ∧ 0 < c.marketValue := by
  obtain ⟨a, ha⟩ := a
  unfold exchangeTerms at h
  split at h
  · rename_i cash _ _ hkind
    obtain rfl := Option.some.inj h
    rw [hkind] at ha
    simp only [termsPositive, Bool.and_eq_true, decide_eq_true_eq] at ha
    obtain ⟨⟨hnew, hold⟩, hcash⟩ := ha
    refine ⟨hnew, hold, fun c hc => ?_⟩
    have hc : cash = some c := hc
    rw [hc, Option.all_some] at hcash
    simpa only [Bool.and_eq_true, decide_eq_true_eq] using hcash
  · cases h

theorem exchanged_iff {s : Desk} {a : Recorded} {t : Terms} {p : Replaced} {n : NewParcel}
    (hs : s.Sound) (ht : exchangeTerms a.val.kind = some t) (hu : 0 < p.drawn.quantity)
    (hcgt : cgtStart ≤ a.val.date) (hfuture : a.val.date ≤ s.today)
    (hok : s.exchanged D a.val t p = .ok n) :
    (0 < n.figures.quantity ∧ n.figures.Sane s.today) ↔
      leavesUnits D t.newUnits t.oldUnits p = true := by
  unfold exchanged at hok
  obtain ⟨carried, hcarry, hok⟩ := bind_ok hok
  obtain ⟨quantity, hquantity, hok⟩ := bind_ok hok
  obtain rfl := Except.ok.inj hok
  obtain ⟨hnew, hold, hcash⟩ := exchangeTerms_positive ht
  obtain ⟨hrate, hcost, hrep⟩ := carry_ok hs hcarry
  obtain ⟨hcarries, hle⟩ := Terms.carries_nonneg hcost hnew hold hcash
  have hsane : (replacementBuy carried.1 (.scripAction a.val.id) a.val.date t.listing
      carried.1.account quantity (t.carries carried.2)).figures.Sane s.today :=
    replacementBuy_sane hrate hcarries (representable_of_le hcarries hle hrep) hcgt hfuture
  exact (and_iff_left hsane).trans (becomes_pos_iff hu hnew hold (orRefuse_ok.mp hquantity))

/-- Whether an exchange's ratio leaves every parcel consumed with units. -/
def exchangeLeaves (D : DecimalRounding) (s : Desk) (actionId : ℤ) (parcels : List Replaced) : Bool :=
  (s.action? actionId).all fun a => (exchangeTerms a.val.kind).all fun t =>
    parcels.all (leavesUnits D t.newUnits t.oldUnits)

theorem exchange_exact {s s' : Desk} {actionId : ℤ} {parcels : List Replaced} {env : Surroundings}
    (hs : s.Sound) (hok : s.exchange D actionId parcels env = .ok s') :
    s'.Sound ↔ s.exchangeLeaves D actionId parcels = true := by
  unfold exchange at hok
  obtain ⟨a, haction, hok⟩ := bind_ok hok
  obtain ⟨t, hterms, hok⟩ := bind_ok hok
  obtain ⟨_, -, hok⟩ := bind_ok hok
  obtain ⟨ns, hns, hok⟩ := bind_ok hok
  obtain ⟨_, -, hok⟩ := bind_ok hok
  obtain ⟨_, hsell, hok⟩ := bind_ok hok
  obtain rfl := Except.ok.inj hok
  have hterms := orRefuse_ok.mp hterms
  obtain ⟨⟨hcgt, hfuture⟩, hpos⟩ := closingSell_ok hsell
  refine (insertRows_exact hs (checkSell_sane _ hsell).1).trans ?_
  rw [exchangeLeaves, orRefuse_ok.mp haction, Option.all_some, hterms, Option.all_some,
    List.all_eq_true, List.forall_mem_map]
  exact mapM_forall_iff hns fun p hp n hn =>
    exchanged_iff hs hterms (hpos p.drawn (List.mem_map_of_mem hp)) hcgt hfuture hn

theorem demergerTerms_positive {a : Recorded} {t : DemergerTerms}
    (h : demergerTerms a.val.kind = some t) :
    (0 < t.newUnits ∧ 0 < t.heldUnits) ∧ 0 < t.costBasePct ∧ t.costBasePct < 100 := by
  obtain ⟨a, ha⟩ := a
  unfold demergerTerms at h
  split at h
  · rename_i hkind
    obtain rfl := Option.some.inj h
    rw [hkind] at ha
    simp only [termsPositive, Bool.and_eq_true, decide_eq_true_eq] at ha
    obtain ⟨⟨hunits, hpct⟩, hlt⟩ := ha
    exact ⟨hunits, hpct, hlt⟩
  · cases h

theorem demerged_iff {s : Desk} {a : Recorded} {t : DemergerTerms} {p : Replaced}
    {n : NewParcel × NewParcel} (hs : s.Sound) (ht : demergerTerms a.val.kind = some t)
    (hu : 0 < p.drawn.quantity) (hcgt : cgtStart ≤ a.val.date) (hfuture : a.val.date ≤ s.today)
    (hok : s.demerged D a.val t p = .ok n) :
    (∀ r ∈ [n.1.row, n.2.row], 0 < r.figures.quantity ∧ r.figures.Sane s.today) ↔
      leavesUnits D t.newUnits t.heldUnits p = true := by
  unfold demerged at hok
  obtain ⟨carried, hcarry, hok⟩ := bind_ok hok
  obtain ⟨quantity, hquantity, hok⟩ := bind_ok hok
  obtain rfl := Except.ok.inj hok
  obtain ⟨⟨hnew, hheld⟩, hpct, hlt⟩ := demergerTerms_positive ht
  obtain ⟨hrate, hcost, hrep⟩ := carry_ok hs hcarry
  obtain ⟨hshare, hrest⟩ := apportion_nonneg hcost hpct.le hlt.le (by norm_num)
  have hsum := apportion_sum carried.2 t.costBasePct 100
  have hhead : (replacementBuy carried.1 (.demergerAction a.val.id) a.val.date a.val.listing
      carried.1.account p.drawn.quantity
      (apportion carried.2 t.costBasePct 100).rest).figures.Sane s.today :=
    replacementBuy_sane hrate hrest (representable_of_le hrest (by linarith) hrep) hcgt hfuture
  have hspun : (replacementBuy carried.1 (.demergerAction a.val.id) a.val.date t.listing
      carried.1.account quantity
      (apportion carried.2 t.costBasePct 100).share).figures.Sane s.today :=
    replacementBuy_sane hrate hshare (representable_of_le hshare (by linarith) hrep) hcgt hfuture
  rw [List.forall_mem_cons, List.forall_mem_singleton]
  refine (and_iff_right ⟨hu, hhead⟩).trans ((and_iff_left hspun).trans ?_)
  exact becomes_pos_iff hu hnew hheld (orRefuse_ok.mp hquantity)

/-- Whether a demerger's ratio leaves every parcel consumed with spun-off units. -/
def demergerLeaves (D : DecimalRounding) (s : Desk) (actionId : ℤ) (parcels : List Replaced) : Bool :=
  (s.action? actionId).all fun a => (demergerTerms a.val.kind).all fun t =>
    parcels.all (leavesUnits D t.newUnits t.heldUnits)

theorem demerge_exact {s s' : Desk} {actionId : ℤ} {parcels : List Replaced} {env : Surroundings}
    (hs : s.Sound) (hok : s.demerge D actionId parcels env = .ok s') :
    s'.Sound ↔ s.demergerLeaves D actionId parcels = true := by
  unfold demerge at hok
  obtain ⟨a, haction, hok⟩ := bind_ok hok
  obtain ⟨t, hterms, hok⟩ := bind_ok hok
  obtain ⟨_, -, hok⟩ := bind_ok hok
  obtain ⟨ns, hns, hok⟩ := bind_ok hok
  obtain ⟨_, hsell, hok⟩ := bind_ok hok
  obtain rfl := Except.ok.inj hok
  have hterms := orRefuse_ok.mp hterms
  obtain ⟨⟨hcgt, hfuture⟩, hpos⟩ := closingSell_ok hsell
  refine (insertRows_exact hs (checkSell_sane _ hsell).1).trans ?_
  rw [demergerLeaves, orRefuse_ok.mp haction, Option.all_some, hterms, Option.all_some,
    List.all_eq_true, ← mapM_forall_iff hns fun p hp n hn =>
      demerged_iff hs hterms (hpos p.drawn (List.mem_map_of_mem hp)) hcgt hfuture hn]
  exact List.forall_mem_flatMap

end Substitution

/-! ### Parcels from a record -/

theorem resolveRate_pos {rates : ImportedRates} {currency : CurrencyCode} {date : NaiveDate} {r : ℚ}
    (h : rates.resolveRate currency date .none = .ok r) : 0 < r := by
  unfold FxRates.resolveRate at h
  split at h
  · obtain rfl := Except.ok.inj h
    exact one_pos
  · cases hrate : rates.rates (currency, .of date) with
    | none =>
      rw [hrate] at h
      cases h
    | some stored =>
      rw [hrate] at h
      obtain rfl := Except.ok.inj h
      exact rates.positive _ _ hrate

theorem sellRate_pos {env : Surroundings} {currency : CurrencyCode} {date : NaiveDate} {nil : Bool}
    {r : ℚ} (h : sellRate env currency date nil = .ok r) : 0 < r := by
  unfold sellRate at h
  split at h
  · rename_i rate hrate
    obtain rfl := Except.ok.inj h
    exact resolveRate_pos hrate
  · split at h
    · obtain rfl := Except.ok.inj h
      exact one_pos
    · cases h

/-- A rate stated, where it is checked, or else one looked up is positive. -/
theorem statedRate_pos {stated : Option ℚ} {lookup : Except Refusal ℚ} {r : ℚ}
    (hstated : ∀ q ∈ stated, 0 < q) (hlookup : ∀ q, lookup = .ok q → 0 < q)
    (h : stated.elim lookup .ok = .ok r) : 0 < r := by
  cases stated with
  | none => exact hlookup r h
  | some q =>
    obtain rfl := Except.ok.inj h
    exact hstated q rfl

/-- Whether a date is one `checkAmounts` takes. -/
def bounded (today date : NaiveDate) : Bool := cgtStart ≤ date && date ≤ today

theorem bounded_iff {today date : NaiveDate} :
    bounded today date = true ↔ cgtStart ≤ date ∧ date ≤ today := by
  rw [bounded, Bool.and_eq_true, decide_eq_true_eq, decide_eq_true_eq]

theorem rightsTerms_positive {a : Recorded} {t : RightsTerms} (h : rightsTerms a.val.kind = some t) :
    0 ≤ t.exercisePrice := by
  obtain ⟨a, ha⟩ := a
  unfold rightsTerms at h
  split at h
  · rename_i hkind
    obtain rfl := Option.some.inj h
    rw [hkind] at ha
    simp only [termsPositive, Bool.and_eq_true, decide_eq_true_eq] at ha
    exact ha.2.le
  · cases h

/-- An exercise follows every rule but the date's, which nothing bounds. -/
theorem exercise_exact {s s' : Desk} {actionId : ℤ} {body : ExerciseBody} {entitled : Bool}
    {env : Surroundings} (hs : s.Sound) (hok : s.exercise actionId body entitled env = .ok s') :
    s'.Sound ↔ bounded s.today body.date = true := by
  unfold exercise at hok
  obtain ⟨_, hunits, hok⟩ := bind_ok hok
  obtain ⟨_, hstated, hok⟩ := bind_ok hok
  obtain ⟨_, hcost, hok⟩ := bind_ok hok
  obtain ⟨a, -, hok⟩ := bind_ok hok
  obtain ⟨t, hterms, hok⟩ := bind_ok hok
  obtain ⟨_, -, hok⟩ := bind_ok hok
  obtain ⟨_, -, hok⟩ := bind_ok hok
  obtain ⟨_, -, hok⟩ := bind_ok hok
  obtain ⟨cost, hsum, hok⟩ := bind_ok hok
  obtain ⟨rate, hrate, hok⟩ := bind_ok hok
  obtain rfl := Except.ok.inj hok
  have hpos : 0 < rate := by
    refine statedRate_pos (fun q hq => not_le.mp fun hle => ?_) (fun q hq => sellRate_pos hq) hrate
    exact refuseIf_ok.mp hstated ⟨q, hq, hle⟩
  obtain ⟨hrep, hcosts⟩ := checkedCostBase_some (orRefuse_ok.mp hsum)
  have hprice : 0 ≤ t.exercisePrice := rightsTerms_positive (orRefuse_ok.mp hterms)
  rw [(s.stores_insertRow _).sound_iff hs, List.forall_mem_singleton, bounded_iff]
  constructor
  · intro hnew
    exact ⟨hnew.2.cgt, hnew.2.notFuture⟩
  · rintro ⟨hcgt, hfuture⟩
    refine ⟨not_le.mp (refuseIf_ok.mp hunits), NewParcel.sane hprice
      (not_lt.mp (refuseIf_ok.mp hcost)) hpos hcgt hfuture ?_⟩
    rw [hcosts] at hrep
    simpa [Term.figure] using hrep

theorem putStatement_sound {s s' : Desk} {e : EssStatement} {env : Surroundings} (hs : s.Sound)
    (hok : s.putStatement e env = .ok s') : s'.Sound := by
  unfold putStatement at hok
  obtain ⟨_, -, hok⟩ := bind_ok hok
  obtain rfl := Except.ok.inj hok
  exact hs.of_subset rfl (fun _ hr => hr) rfl

/-- A vest's parcel follows the rules by its statement's own checks. -/
theorem vest_sound {s s' : Desk} {id : ℤ} {env : Surroundings} (hs : s.Sound)
    (hok : s.vest id env = .ok s') : s'.Sound := by
  unfold vest at hok
  obtain ⟨e, he, hok⟩ := bind_ok hok
  obtain ⟨_, -, hok⟩ := bind_ok hok
  obtain ⟨_, hprices, hok⟩ := bind_ok hok
  obtain ⟨rate, hrate, hok⟩ := bind_ok hok
  obtain rfl := Except.ok.inj hok
  have hv := s.vestable e (List.mem_of_find?_eq_some (orRefuse_ok.mp he))
  have hprices := Bool.eq_true_of_not_eq_false (refuseIf_ok.mp hprices)
  obtain ⟨hquantity, hvalue⟩ := (Bool.and_eq_true _ _).mp hprices
  have hpos : 0 < rate :=
    statedRate_pos hv.fxRate (fun q hq => resolveRate_pos (mapError_ok.mp hq)) hrate
  refine ((s.stores_insertRow _).sound_iff hs).mpr (List.forall_mem_singleton.mpr ⟨?_, ?_⟩)
  · exact of_decide_eq_true hquantity
  · refine NewParcel.sane (of_decide_eq_true hvalue).le le_rfl hpos hv.cgt hv.notFuture ?_
    simpa only [add_zero] using hv.representable hprices

theorem putInheritance_sound {s s' : Desk} {i : Inheritance} {env : Surroundings} (hs : s.Sound)
    (hok : s.putInheritance i env = .ok s') : s'.Sound := by
  unfold putInheritance at hok
  obtain ⟨_, hvalid, hok⟩ := bind_ok hok
  obtain ⟨_, -, hok⟩ := bind_ok hok
  obtain ⟨total, htotal, hok⟩ := bind_ok hok
  have hi := Inheritance.recordable_of_validate (mapError_ok.mp hvalid)
  obtain ⟨hrep, rfl⟩ := Inheritance.totalCostBase_some (orRefuse_ok.mp htotal)
  refine ((stores_storeRow hok).sound_iff hs).mpr (List.forall_mem_singleton.mpr ⟨hi.quantity, ?_⟩)
  refine NewParcel.sane le_rfl (add_nonneg hi.costBase hi.lprExpenditure) hi.fxRate hi.cgt
    hi.notFuture ?_
  rw [zero_mul, zero_add]
  exact hrep

theorem putAction_sound {s s' : Desk} {a : Action} (hs : s.Sound) (hok : s.putAction a = .ok s') :
    s'.Sound := by
  unfold putAction at hok
  obtain ⟨_, -, hok⟩ := bind_ok hok
  obtain rfl := Except.ok.inj hok
  exact hs.of_subset rfl (fun _ hr => hr) rfl

/-! ### The reinvestment plan -/

/-- Moving a leftover changes no figure the rules read. -/
theorem reinvested_resplit (today : NaiveDate) (p : Drp.DrpEnrolment) (walk : List Drp.Payment)
    (t : Drp.DrpTrade) : Reinvested today (Drp.Register.resplit p walk t) ↔ Reinvested today t := by
  unfold Drp.Register.resplit
  split
  · exact Iff.rfl
  · exact Iff.rfl

theorem reinvested_recompute {s : Drp.Register} {p : Drp.DrpEnrolment} {today : NaiveDate} :
    (∀ t ∈ (s.recomputeResiduals p).trades, Reinvested today t) ↔
      ∀ t ∈ s.trades, Reinvested today t := by
  refine List.forall_mem_map.trans (forall₂_congr fun t _ => ?_)
  exact reinvested_resplit today p _ t

/-- A plan's write that brings no reinvestment. -/
theorem withPlan_sound {s s' : Desk} {plan : Except Drp.WriteError Drp.Register} (hs : s.Sound)
    (hkeeps : ∀ plan', plan = .ok plan' → ∀ t ∈ plan'.trades, Reinvested s.today t)
    (hok : s.withPlan plan = .ok s') : s'.Sound := by
  unfold withPlan at hok
  obtain ⟨plan', hplan, hok⟩ := bind_ok hok
  obtain rfl := Except.ok.inj hok
  exact ⟨hs.trades, hkeeps plan' (mapError_ok.mp hplan)⟩

theorem reinvest_checked {s s' : Drp.Register} {id : ℤ} {body : Drp.ReinvestBody}
    {env : Drp.Surroundings} (hok : s.reinvest id body env = .ok s') :
    0 < body.reinvestmentPrice ∧ 0 < body.fxRate.getD 1 ∧ ∀ u ∈ body.units, 0 < u.value := by
  obtain ⟨_, hprice, hok⟩ := bind_ok hok
  obtain ⟨_, hfx, hok⟩ := bind_ok hok
  obtain ⟨_, hunits, -⟩ := bind_ok hok
  refine ⟨not_le.mp (refuseIf_ok.mp hprice), ?_, fun u hu => not_le.mp fun hle => ?_⟩
  · cases hrate : body.fxRate with
    | none => exact one_pos
    | some rate =>
      rw [refuseIf_ok, hrate, Option.any_some, decide_eq_true_eq] at hfx
      exact not_le.mp hfx
  · rw [refuseIf_ok, Option.mem_def.mp hu, Option.any_some, decide_eq_true_eq] at hunits
    exact hunits hle

/-- What the units of a reinvestment are: as stated, within the bound on their
cost, or those its cash buys. -/
theorem allot_cases {env : Drp.Surroundings} {body : Drp.ReinvestBody} {cash : ℚ}
    {a : Drp.Allotment} (hok : Drp.allot env body cash = .ok a) :
    (∃ u ∈ body.units, a.quantity = u.value ∧
      env.unrepresentableCost body.reinvestmentPrice u.value = false) ∨
    body.units = none ∧ a.quantity = ⌊cash / body.reinvestmentPrice⌋ ∧ a.computed = true := by
  unfold Drp.allot at hok
  cases hu : body.units with
  | none =>
    rw [hu] at hok
    obtain rfl := Except.ok.inj hok
    exact Or.inr ⟨rfl, rfl, rfl⟩
  | some u =>
    rw [hu] at hok
    obtain ⟨_, hrep, hok⟩ := bind_ok hok
    obtain ⟨_, -, hok⟩ := bind_ok hok
    obtain rfl := Except.ok.inj hok
    exact Or.inl ⟨u, rfl, rfl, Bool.eq_false_iff.mpr (refuseIf_ok.mp hrep)⟩

theorem units_nonneg_iff {cash price : ℚ} (hprice : 0 < price) :
    0 ≤ ((⌊cash / price⌋ : ℤ) : ℚ) ↔ 0 ≤ cash := by
  rw [Int.cast_nonneg_iff, Int.floor_nonneg, le_div_iff₀ hprice, zero_mul]

/-- Cash that is not negative buys units that cost no more than it. -/
theorem representable_bought {cash price : ℚ} (hprice : 0 < price) (hcash : 0 ≤ cash)
    (hrep : representable cash = true) :
    representable (price * ((⌊cash / price⌋ : ℤ) : ℚ)) = true := by
  have hunits := (units_nonneg_iff hprice).mpr hcash
  refine representable_of_le (mul_nonneg hprice.le hunits) ?_ hrep
  rw [mul_comm, ← le_div_iff₀ hprice]
  exact Int.floor_le _

/-- A reinvestment's parcel follows the rules exactly where it is dated within
their bounds and its units are stated or bought with cash. -/
theorem parcel_reinvested {today date : NaiveDate} {i : Drp.Income} {currency : CurrencyCode}
    {env : Drp.Surroundings} {body : Drp.ReinvestBody} {cash forward : ℚ} {a : Drp.Allotment}
    {split : Drp.ResidualSplit} {id : TradeId} (hprice : 0 < body.reinvestmentPrice)
    (hrate : 0 < body.fxRate.getD 1) (hunits : ∀ u ∈ body.units, 0 < u.value)
    (hbound : ∀ price units, env.unrepresentableCost price units = !representable (price * units))
    (hfits : representable cash = true) (hallot : Drp.allot env body cash = .ok a) :
    Reinvested today { Drp.Register.parcel i currency date body a forward split with id } ↔
      bounded today date = true ∧ (body.units.isSome = true ∨ 0 ≤ cash) := by
  have hsane : ∀ hdate : bounded today date = true,
      representable (body.reinvestmentPrice * a.quantity) = true →
      (reinvestedParcel { Drp.Register.parcel i currency date body a forward split with
        id }).figures.Sane today := by
    intro hdate hrep
    obtain ⟨hcgt, hfuture⟩ := bounded_iff.mp hdate
    refine NewParcel.sane hprice.le le_rfl hrate hcgt hfuture ?_
    exact (add_zero (body.reinvestmentPrice * a.quantity)).symm ▸ hrep
  have hdated : ∀ h : Reinvested today { Drp.Register.parcel i currency date body a forward split with
      id }, bounded today date = true := fun h => bounded_iff.mpr ⟨h.2.cgt, h.2.notFuture⟩
  rcases allot_cases hallot with ⟨u, hu, hquantity, hrep⟩ | ⟨hu, hquantity, hcomputed⟩
  · -- stated units are positive, and their cost was bounded as they were read
    rw [hbound, Bool.not_eq_false'] at hrep
    constructor
    · exact fun h => ⟨hdated h, Or.inl (Option.mem_def.mp hu ▸ rfl)⟩
    · rintro ⟨hdate, -⟩
      exact ⟨Or.inl (lt_of_lt_of_eq (hunits u hu) hquantity.symm), hsane hdate (hquantity ▸ hrep)⟩
  · -- units worked out are negative exactly where the cash is
    rw [hu, Option.isSome_none]
    constructor
    · intro h
      refine ⟨hdated h, Or.inr ((units_nonneg_iff hprice).mp ?_)⟩
      rw [← hquantity]
      rcases h.1 with hpos | ⟨hnil, -⟩
      · exact le_of_lt hpos
      · exact le_of_eq hnil.symm
    · rintro ⟨hdate, hcash⟩
      have hcash := hcash.resolve_left Bool.false_ne_true
      have hnonneg : 0 ≤ a.quantity := hquantity ▸ (units_nonneg_iff hprice).mpr hcash
      refine ⟨?_, hsane hdate (hquantity ▸ representable_bought hprice hcash hfits)⟩
      rcases hnonneg.lt_or_eq with hpos | hnil
      · exact Or.inl hpos
      · exact Or.inr ⟨hnil.symm, hcomputed⟩

theorem join_exact {s : Desk} (hs : s.Sound) {id : ℤ} {draft : Drp.DrpTrade}
    {period : Drp.DrpEnrolment} (i : Drp.Income) :
    ({ s with plan := (s.plan.join id draft).recomputeResiduals period } : Desk).Sound ↔
      Reinvested s.today (s.plan.joined i draft).trade := by
  constructor
  · intro hs'
    exact reinvested_recompute.mp hs'.reinvested _ (Drp.Register.mem_join_trades.mpr (Or.inr rfl))
  · intro hnew
    refine ⟨hs.trades, reinvested_recompute.mpr fun t ht => ?_⟩
    have hmem : t ∈ s.plan.trades ∨ t = (s.plan.joined i draft).trade :=
      Drp.Register.mem_join_trades.mp ht
    rcases hmem with hold | rfl
    · exact hs.reinvested t hold
    · exact hnew

/-- Whether a reinvestment is dated within the rules' bounds and, where its
units are worked out, has cash to buy them with. -/
def reinvestKeeps (s : Desk) (income : ℤ) (body : Drp.ReinvestBody) : Bool :=
  (reinvestedOn s.plan income body).all (bounded s.today) &&
    (body.units.isSome || (available s.plan income body).all fun cash => 0 ≤ cash)

theorem reinvest_exact {s s' : Desk} {income : ℤ} {body : Drp.ReinvestBody} {env : Drp.Surroundings}
    (hs : s.Sound) (hok : s.reinvest income body env = .ok s') :
    s'.Sound ↔ s.reinvestKeeps income body = true := by
  unfold reinvest at hok
  obtain ⟨_, hfits, hok⟩ := bind_ok hok
  obtain ⟨plan, hplan, hok⟩ := bind_ok hok
  obtain rfl := Except.ok.inj hok
  have hplan := mapError_ok.mp hplan
  obtain ⟨hprice, hrate, hunits⟩ := reinvest_checked hplan
  obtain ⟨i, period, a, hincome, -, hperiod, -, hallot, rfl⟩ := Drp.Register.reinvest_ok hplan
  have hcash : available s.plan income body =
      some (i.netCashReceived + s.plan.broughtForward period (body.date.getD i.datePaid)) := by
    rw [available, hincome, Option.bind_some, hperiod, Option.map_some]
  have hfits : representable (i.netCashReceived +
      s.plan.broughtForward period (body.date.getD i.datePaid)) = true :=
    Bool.eq_true_of_not_eq_false fun h => refuseIf_ok.mp hfits ⟨_, hcash, h⟩
  rw [reinvestKeeps, reinvestedOn, hincome, Option.map_some, Option.all_some, hcash, Option.all_some,
    Bool.and_eq_true, Bool.or_eq_true, decide_eq_true_eq]
  refine (join_exact hs i).trans ?_
  exact parcel_reinvested hprice hrate hunits (fun _ _ => rfl) hfits hallot

theorem unreinvest_keeps {s : Desk} (hs : s.Sound) {income : ℤ} {env : Drp.Surroundings}
    {plan : Drp.Register} (hok : s.plan.unreinvest income env = .ok plan) :
    ∀ t ∈ plan.trades, Reinvested s.today t := by
  obtain ⟨_, trade, -, -, -, -, rfl⟩ := Drp.Register.unreinvest_ok hok
  exact fun t ht => hs.reinvested t (List.mem_filter.mp ht).1

theorem recordIncome_keeps {s : Desk} (hs : s.Sound) {body : Drp.Income} {plan : Drp.Register}
    (hok : s.plan.recordIncome body = .ok plan) : ∀ t ∈ plan.trades, Reinvested s.today t := by
  obtain ⟨row, rfl, -⟩ := Drp.Register.recordIncome_ok hok
  exact hs.reinvested

theorem deleteIncome_keeps {s : Desk} (hs : s.Sound) {id : ℤ} {plan : Drp.Register}
    (hok : s.plan.deleteIncome id = .ok plan) : ∀ t ∈ plan.trades, Reinvested s.today t := by
  obtain ⟨rfl, -⟩ := Drp.Register.deleteIncome_ok hok
  exact hs.reinvested

theorem writePeriod_keeps {s : Desk} (hs : s.Sound) {p : Drp.DrpEnrolment} {plan : Drp.Register}
    (hok : s.plan.writePeriod p = .ok plan) : ∀ t ∈ plan.trades, Reinvested s.today t := by
  obtain ⟨-, rfl⟩ := Drp.Register.writePeriod_ok hok
  exact reinvested_recompute.mpr hs.reinvested

theorem deletePeriod_keeps {s : Desk} (hs : s.Sound) {id : ℤ} {plan : Drp.Register}
    (hok : s.plan.deletePeriod id = .ok plan) : ∀ t ∈ plan.trades, Reinvested s.today t := by
  obtain rfl := Drp.Register.deletePeriod_ok hok
  exact hs.reinvested

/-! ### Runs -/

/-- Whether a write is none of those that store a trade outside the rules: a
reinvestment or an exercise dated before the start of CGT or after the day it is
written, a reinvestment of less than no cash, and a substitution whose ratio
rounds a parcel away. -/
def keepsRules (D : DecimalRounding) (s : Desk) : Write → Bool
  | .reinvest income body _ => s.reinvestKeeps income body
  | .exercise _ body _ => bounded s.today body.date
  | .exchange action parcels => s.exchangeLeaves D action parcels
  | .demerge action parcels => s.demergerLeaves D action parcels
  | _ => true

theorem write_exact {D : DecimalRounding} {s s' : Desk} {env : Surroundings} {w : Write}
    (hs : s.Sound) (hok : s.write D env w = .ok s') : s'.Sound ↔ s.keepsRules D w = true := by
  cases w with
  | reinvest income body plan => exact reinvest_exact hs hok
  | exercise action body entitled => exact exercise_exact hs hok
  | exchange action parcels => exact exchange_exact hs hok
  | demerge action parcels => exact demerge_exact hs hok
  | putTrade id body => exact iff_of_true (putTrade_sound hs hok) rfl
  | deleteTrades gone =>
    obtain rfl := Except.ok.inj hok
    exact iff_of_true (deleteTrades_sound hs gone) rfl
  | recomputeSettlements =>
    obtain rfl := Except.ok.inj hok
    exact iff_of_true (recomputeSettlements_sound hs env) rfl
  | operationSell provenance body => exact iff_of_true (operationSell_sound hs hok) rfl
  | transfer body => exact iff_of_true (transfer_sound hs hok) rfl
  | putStatement e => exact iff_of_true (putStatement_sound hs hok) rfl
  | deleteStatement id =>
    obtain rfl := Except.ok.inj hok
    exact iff_of_true (hs.of_subset rfl (fun _ hr => hr) rfl) rfl
  | vest id => exact iff_of_true (vest_sound hs hok) rfl
  | putInheritance i => exact iff_of_true (putInheritance_sound hs hok) rfl
  | putAction a => exact iff_of_true (putAction_sound hs hok) rfl
  | deleteAction id =>
    obtain rfl := Except.ok.inj hok
    exact iff_of_true (hs.of_subset rfl (fun _ hr => hr) rfl) rfl
  | unreinvest income plan =>
    exact iff_of_true (withPlan_sound hs (fun _ h => unreinvest_keeps hs h) hok) rfl
  | recordIncome body =>
    exact iff_of_true (withPlan_sound hs (fun _ h => recordIncome_keeps hs h) hok) rfl
  | deleteIncome id =>
    exact iff_of_true (withPlan_sound hs (fun _ h => deleteIncome_keeps hs h) hok) rfl
  | writePeriod p =>
    exact iff_of_true (withPlan_sound hs (fun _ h => writePeriod_keeps hs h) hok) rfl
  | deletePeriod id =>
    exact iff_of_true (withPlan_sound hs (fun _ h => deletePeriod_keeps hs h) hok) rfl

/-- Whether an entry's write keeps the rules on the day it is made. -/
def entryKeeps (D : DecimalRounding) (s : Desk) (e : Entry) : Bool :=
  (s.tick e.days).keepsRules D e.write

theorem sound_empty (today : NaiveDate) : (empty today).Sound where
  trades := fun _ h => absurd h List.not_mem_nil
  reinvested := fun _ h => absurd h List.not_mem_nil

/-- Every trade stored follows the rules of one entered by hand, right after it
is written and ever after, exactly in the runs whose writes keep them. -/
theorem stored_trades_follow_rules (D : DecimalRounding) (start : NaiveDate) (es : List Entry)
    (s : Desk) (hrun : run D (empty start) es = .ok s) :
    GuardedRun.meets (step D) (entryKeeps D) (empty start) es = true ↔
      ∀ es₁ es₂ m, es = es₁ ++ es₂ → run D (empty start) es₁ = .ok m → m.Sound :=
  GuardedRun.meets_iff_states (fun _ _ _ hs hok => write_exact (hs.tick _) hok) (sound_empty start) hrun

/-! ### A desk's run, and a distribution withheld past nil -/

def unimported : ImportedRates where
  rates := fun _ => none
  positive := fun _ _ h => absurd h (Option.not_mem_none _)

def settlesInTwo : Surroundings where
  listingCurrency := fun _ => ⟨"AUD"⟩
  rates := unimported
  settlesAfter := fun _ _ => 2
  drawnOn := fun _ => false

def buyHundred : TradeBody where
  tradeType := .buy
  listing := 1
  account := 1
  date := ymd 2025 1 10
  settlementDate := none
  averagePrice := 5
  quantity := 100
  currency := ⟨"AUD"⟩
  brokerage := 11
  gstOnBrokerage := 0
  brokerageIncludesGst := true
  brokerageCurrency := ⟨"aud"⟩
  fxRate := 1
  allocations := []

def oneForTen : Action where
  id := 1
  listing := 1
  date := ymd 2025 2 3
  kind := .rightsIssue 1 10 4 ⟨"AUD"⟩ true

def entries (ws : List Write) : List Entry := ws.map fun w => ⟨1, settlesInTwo, w⟩

/-- A parcel bought, its rights exercised, its distribution reinvested and some of it sold. -/
def yearOfTrades : List Entry := entries
  [.putTrade none buyHundred,
    .putAction oneForTen,
    .exercise 1 ⟨ymd 2025 3 3, 10, none, none, 1⟩ true,
    .writePeriod (Drp.Register.enrolledUntil none .carryForward),
    .recordIncome (Drp.Register.distribution 1 (ymd 2025 3 20) 105),
    .reinvest 1 Drp.Register.atTen Drp.Register.domestic,
    .operationSell (.buybackAction 2)
      (closingSell (ymd 2025 4 1) 1 1 6 ⟨"AUD"⟩ 1 [(1, 40)])]

theorem stored_trades_follow_rules_yearOfTrades :
    ∃ s, run halfEvenRounding (empty (ymd 2025 4 1)) yearOfTrades = .ok s ∧
      (GuardedRun.meets (step halfEvenRounding) (entryKeeps halfEvenRounding) (empty (ymd 2025 4 1))
        yearOfTrades = true ↔ ∀ es₁ es₂ m, yearOfTrades = es₁ ++ es₂ →
          run halfEvenRounding (empty (ymd 2025 4 1)) es₁ = .ok m → m.Sound) := by
  obtain ⟨s, h⟩ := Checked.exists_ok (x := run halfEvenRounding (empty (ymd 2025 4 1)) yearOfTrades)
    (by decide +kernel)
  exact ⟨s, h, stored_trades_follow_rules halfEvenRounding (ymd 2025 4 1) yearOfTrades s h⟩

/-- Ten dollars paid with twenty-five withheld from it. -/
def overWithheld : Drp.Income :=
  { Drp.Register.distribution 1 (ymd 2025 3 20) 10 with tfnWithholdingTax := 25 }

def reinvestedPastNil : List Entry := entries
  [.writePeriod (Drp.Register.enrolledUntil none .carryForward), .recordIncome overWithheld,
    .reinvest 1 Drp.Register.atTen Drp.Register.domestic]

/-- Reinvested at ten, it stores a parcel of minus two units. -/
theorem stored_trades_break_rules :
    ∃ s, run halfEvenRounding (empty (ymd 2025 4 1)) reinvestedPastNil = .ok s ∧ ¬ s.Sound := by
  have hrun : accepts (run halfEvenRounding (empty (ymd 2025 4 1)) reinvestedPastNil)
      (fun s => s.plan.trades.any fun t => t.quantity = -2) = true := by decide +kernel
  obtain ⟨s, hs, hneg⟩ := accepts_iff.mp hrun
  refine ⟨s, hs, fun hsound => ?_⟩
  obtain ⟨t, ht, hquantity⟩ := List.any_eq_true.mp hneg
  have hquantity : t.quantity = -2 := of_decide_eq_true hquantity
  rcases (hsound.reinvested t ht).1 with hpos | ⟨hnil, -⟩
  · rw [hquantity] at hpos
    norm_num at hpos
  · rw [hquantity] at hnil
    norm_num at hnil

end Desk

end ShareTracker.TradeDesk
