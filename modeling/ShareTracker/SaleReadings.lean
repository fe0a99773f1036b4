import ShareTracker.ParcelLedger

/-!
The sales out of a parcel read one by one, beside the walk that takes the last
of its units with the sale that states what they print as.
-/
namespace ShareTracker

namespace DecimalRounding

variable (D : DecimalRounding) (splits : List SplitEvent) (acquired : NaiveDate)

/-- What a sale reads back as, on its own. -/
def readCount (sale : UnitsAt) : AcquiredUnits :=
  (D.asAcquiredQuantity sale splits acquired : Attempt Refusal _).answerD .zero

/-- What a count prints as at a date. -/
def printedOn (date : NaiveDate) (units : AcquiredUnits) : ℚ :=
  (D.splitAdjustedQuantity units splits acquired date : Attempt Refusal _).answerD 0

/-- No sale in the order given, of what prints as all the earlier ones leave,
reads back as less than that. -/
def ReadsBackFrom (parcel sold : AcquiredUnits) : List UnitsAt → Prop
  | [] => True
  | sale :: rest =>
    let left := (AcquiredUnits.sub D parcel sold : Attempt Refusal _).answerD .zero
    let read := D.readCount splits acquired sale
    (0 < left.value → D.printedOn splits acquired sale.basis left = sale.quantity.value →
      left.value ≤ read.value) ∧
    ReadsBackFrom parcel ((AcquiredUnits.add D sold read : Attempt Refusal _).answerD .zero) rest

instance decidableReadsBackFrom : (parcel sold : AcquiredUnits) → (sales : List UnitsAt) →
    Decidable (D.ReadsBackFrom splits acquired parcel sold sales)
  | _, _, [] => inferInstanceAs (Decidable True)
  | parcel, sold, sale :: rest =>
    have := decidableReadsBackFrom parcel ((AcquiredUnits.add D sold
      (D.readCount splits acquired sale) : Attempt Refusal _).answerD .zero) rest
    inferInstanceAs (Decidable (_ ∧ _))

/-- The walk over a parcel's sales, counting as exact what is exact but for
the figures read and printed. -/
def walkCounts (parcel sold : AcquiredUnits) :
    List (UnitsAt × ℕ) → Attempt Refusal (List (ℕ × AcquiredUnits))
  | [] => pure []
  | (sale, i) :: rest => do
      let _ ← D.rebaseTerms splits sale.basis acquired
      let left ← AcquiredUnits.sub D parcel sold
      let _ ← AcquiredUnits.lt D .zero left
      let units ← (D.saleUnits splits acquired left sale).asPrinted
      let sold ← AcquiredUnits.add D sold units
      return (i, units) :: (← walkCounts parcel sold rest)

variable {D splits acquired}

theorem readCount_nonneg {sale : UnitsAt} (hq : 0 ≤ sale.quantity.value)
    (hterms : (D.rebaseTerms splits sale.basis acquired : Attempt Refusal _).exact = true) :
    0 ≤ (D.readCount splits acquired sale).value ∧ 0 < (D.readCount splits acquired sale).den := by
  unfold readCount
  cases hread : (D.asAcquiredQuantity sale splits acquired : Attempt Refusal _).answer with
  | error e =>
    rw [Attempt.answerD, hread]
    exact ⟨AcquiredUnits.zero_value.ge, one_pos⟩
  | ok u =>
    rw [Attempt.answerD_eq hread]
    exact asAcquiredQuantity_answer hq hterms hread

/-- A sale takes what it reads back as, or all that is left and prints so. -/
theorem saleUnits_answer {left units : AcquiredUnits} {sale : UnitsAt} {b : Bool}
    (hopen : (AcquiredUnits.lt D .zero left : Attempt Refusal _).answer = .ok b)
    (h : (D.saleUnits splits acquired left sale : Attempt Refusal _).answer = .ok units) :
    units = D.readCount splits acquired sale ∨
      (units = left ∧ b = true ∧
        D.printedOn splits acquired sale.basis left = sale.quantity.value) := by
  unfold saleUnits at h
  obtain ⟨b', hb', h⟩ := answer_bind.mp h
  obtain rfl : b' = b := Except.ok.inj (hb'.symm.trans hopen)
  split at h
  · rename_i hb
    obtain ⟨figure, hfigure, h⟩ := answer_bind.mp h
    split at h
    · rename_i hsame
      obtain rfl := answer_pure.mp h
      exact Or.inr ⟨rfl, hb, (Attempt.answerD_eq hfigure 0).trans hsame⟩
    · exact Or.inl (Attempt.answerD_eq h _).symm
  · exact Or.inl (Attempt.answerD_eq h _).symm

/-- One sale of the walk: what it takes, and what is sold after it. -/
theorem walkCounts_cons {parcel sold : AcquiredUnits} {sale : UnitsAt} {i : ℕ}
    {sales : List (UnitsAt × ℕ)} {drawn : List (ℕ × AcquiredUnits)} (hparcel : 0 < parcel.den)
    (hsold : 0 < sold.den) (hq : 0 ≤ sale.quantity.value)
    (h : (D.walkCounts splits acquired parcel sold ((sale, i) :: sales)).Yields drawn) :
    ∃ left units sold' rest, drawn = (i, units) :: rest ∧
      (AcquiredUnits.sub D parcel sold : Attempt Refusal _).Yields left ∧
      left.value = parcel.value - sold.value ∧
      (D.saleUnits splits acquired left sale : Attempt Refusal _).answer = .ok units ∧
      (units = D.readCount splits acquired sale ∨ (units = left ∧ 0 < left.value ∧
        D.printedOn splits acquired sale.basis left = sale.quantity.value)) ∧
      (0 ≤ units.value ∧ 0 < units.den) ∧
      (AcquiredUnits.add D sold units : Attempt Refusal _).Yields sold' ∧
      (sold'.value = sold.value + units.value ∧ 0 < sold'.den) ∧
      (D.walkCounts splits acquired parcel sold' sales).Yields rest := by
  unfold walkCounts at h
  obtain ⟨terms, hterms, h⟩ := yields_bind.mp h
  obtain ⟨left, hleft, h⟩ := yields_bind.mp h
  obtain ⟨b, hopen, h⟩ := yields_bind.mp h
  obtain ⟨units, hunits, h⟩ := yields_bind.mp h
  obtain ⟨sold', hsold', h⟩ := yields_bind.mp h
  obtain ⟨rest, hrest, h⟩ := yields_bind.mp h
  obtain ⟨hleftv, hleftd⟩ := AcquiredUnits.sub_yields hparcel hsold hleft
  have hb := AcquiredUnits.lt_yields one_pos hleftd hopen
  rw [AcquiredUnits.zero_value] at hb
  have hread := readCount_nonneg hq hterms.2
  have hanswer := Attempt.yields_asPrinted.mp hunits
  have htaken : units = D.readCount splits acquired sale ∨ (units = left ∧ 0 < left.value ∧
      D.printedOn splits acquired sale.basis left = sale.quantity.value) := by
    rcases saleUnits_answer hopen.1 hanswer with hu | ⟨hu, hopen', hprint⟩
    · exact Or.inl hu
    · exact Or.inr ⟨hu, of_decide_eq_true (hb.symm.trans hopen'), hprint⟩
  have hcount : 0 ≤ units.value ∧ 0 < units.den := by
    rcases htaken with rfl | ⟨rfl, hpos, -⟩
    · exact hread
    · exact ⟨hpos.le, hleftd⟩
  exact ⟨left, units, sold', rest, (yields_pure.mp h).symm, hleft, hleftv, hanswer, htaken,
    hcount, hsold', AcquiredUnits.add_yields hsold hcount.2 hsold', hrest⟩

theorem walkCounts_terms {parcel sold : AcquiredUnits} {sales : List (UnitsAt × ℕ)}
    {drawn : List (ℕ × AcquiredUnits)}
    (h : (D.walkCounts splits acquired parcel sold sales).Yields drawn) :
    ∀ s ∈ sales, (D.rebaseTerms splits s.1.basis acquired : Attempt Refusal _).exact = true := by
  induction sales generalizing sold drawn with
  | nil => exact fun s hs => absurd hs List.not_mem_nil
  | cons s sales ih =>
    obtain ⟨sale, i⟩ := s
    unfold walkCounts at h
    obtain ⟨terms, hterms, h⟩ := yields_bind.mp h
    iterate 4 obtain ⟨_, -, h⟩ := yields_bind.mp h
    obtain ⟨rest, hrest, -⟩ := yields_bind.mp h
    intro s hs
    rcases List.mem_cons.mp hs with rfl | hs
    · exact hterms.2
    · exact ih hrest s hs

/-- The walk's counts are the source's. -/
theorem walkCounts_walk {parcel sold : AcquiredUnits} {sales : List (UnitsAt × ℕ)}
    {drawn : List (ℕ × AcquiredUnits)} (hparcel : 0 < parcel.den) (hsold : 0 < sold.den)
    (hq : ∀ s ∈ sales, 0 ≤ s.1.quantity.value)
    (h : (D.walkCounts splits acquired parcel sold sales).Yields drawn) :
    (D.walkSales splits acquired parcel sold sales : Attempt Refusal _).answer = .ok drawn ∧
      drawn.map Prod.fst = sales.map Prod.snd ∧ ∀ d ∈ drawn, 0 ≤ d.2.value ∧ 0 < d.2.den := by
  induction sales generalizing sold drawn with
  | nil =>
    obtain rfl := yields_pure.mp h
    exact ⟨rfl, rfl, fun d hd => absurd hd List.not_mem_nil⟩
  | cons s sales ih =>
    obtain ⟨sale, i⟩ := s
    obtain ⟨left, units, sold', rest, rfl, hleft, -, hunits, -, hcount, hsold', hsoldv, hrest⟩ :=
      walkCounts_cons hparcel hsold (hq _ List.mem_cons_self) h
    obtain ⟨hwalk, hindex, hcounts⟩ :=
      ih hsoldv.2 (fun s hs => hq s (List.mem_cons_of_mem _ hs)) hrest
    refine ⟨?_, by rw [List.map_cons, List.map_cons, hindex], fun d hd => ?_⟩
    · unfold walkSales
      exact answer_bind.mpr ⟨left, hleft.1, answer_bind.mpr ⟨units, hunits,
        answer_bind.mpr ⟨sold', hsold'.1, answer_bind.mpr ⟨rest, hwalk, rfl⟩⟩⟩⟩
    · rcases List.mem_cons.mp hd with rfl | hd
      · exact hcount
      · exact hcounts d hd

/-- The walk takes of each sale what it reads back as, or the parcel is out of
units both as walked and as read. -/
theorem walkCounts_reads {parcel sold : AcquiredUnits} {sales : List (UnitsAt × ℕ)}
    {drawn : List (ℕ × AcquiredUnits)} (hparcel : 0 < parcel.den) (hsold : 0 < sold.den)
    (hq : ∀ s ∈ sales, 0 ≤ s.1.quantity.value)
    (hback : D.ReadsBackFrom splits acquired parcel sold (sales.map Prod.fst))
    (h : (D.walkCounts splits acquired parcel sold sales).Yields drawn) :
    drawn = sales.map (fun s => (s.2, D.readCount splits acquired s.1)) ∨
      (parcel.value - sold.value ≤ (drawn.map fun d => d.2.value).sum ∧
        parcel.value - sold.value ≤
          (sales.map fun s => (D.readCount splits acquired s.1).value).sum) := by
  induction sales generalizing sold drawn with
  | nil => exact Or.inl (yields_pure.mp h).symm
  | cons s sales ih =>
    obtain ⟨sale, i⟩ := s
    have hqrest : ∀ s ∈ sales, 0 ≤ s.1.quantity.value :=
      fun s hs => hq s (List.mem_cons_of_mem _ hs)
    have hterms := walkCounts_terms h
    obtain ⟨left, units, sold', rest, rfl, hleft, hleftv, -, htaken, -, hsold', hsoldv, hrest⟩ :=
      walkCounts_cons hparcel hsold (hq _ List.mem_cons_self) h
    obtain ⟨hfirst, hnext⟩ := hback
    simp only [List.map_cons, List.sum_cons]
    rcases htaken with rfl | ⟨rfl, hpos, hprint⟩
    · rw [Attempt.answerD_eq hsold'.1] at hnext
      rcases ih hsoldv.2 hqrest hnext hrest with hsame | ⟨hwalked, hread⟩
      · exact Or.inl (by rw [hsame])
      · rw [hsoldv.1] at hwalked hread
        exact Or.inr ⟨by linarith, by linarith⟩
    · -- a sale of all that is left: whatever follows takes no less than nothing
      rw [Attempt.answerD_eq hleft.1] at hfirst
      have hle := hfirst hpos hprint
      have hwalked : 0 ≤ (rest.map fun d => d.2.value).sum := by
        refine List.sum_nonneg fun x hx => ?_
        obtain ⟨d, hd, rfl⟩ := List.mem_map.mp hx
        exact ((walkCounts_walk hparcel hsoldv.2 hqrest hrest).2.2 d hd).1
      have hread : 0 ≤ (sales.map fun s => (D.readCount splits acquired s.1).value).sum := by
        refine List.sum_nonneg fun x hx => ?_
        obtain ⟨s, hs, rfl⟩ := List.mem_map.mp hx
        exact (readCount_nonneg (hqrest s hs) (hterms s (List.mem_cons_of_mem _ hs))).1
      exact Or.inr ⟨by linarith, by linarith⟩

end DecimalRounding

end ShareTracker
