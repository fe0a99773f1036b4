import ShareTracker.TransferGroups
import ShareTracker.HeldTimeline
import ShareTracker.Lib.RebasedBalance

/-!
The activity ledger of a listing: its dated rows in order, with the units held
running beside them as an exact fraction that each row reads out.
-/
namespace ShareTracker.Activity

/-! ### Rows -/

/-- The table a row comes from. -/
inductive RecordTable where
  | corporateActions
  | transfers
  | income
  | ammaStatements
  | essStatements
  | rightsSales
  | drpEnrolments
  | investmentExpenses
  | trades
  | listingRenames
  deriving DecidableEq

/-- The order of declaration: the tie-break of a day's rows of one rank. -/
def RecordTable.order : RecordTable → ℕ
  | .corporateActions => 0
  | .transfers => 1
  | .income => 2
  | .ammaStatements => 3
  | .essStatements => 4
  | .rightsSales => 5
  | .drpEnrolments => 6
  | .investmentExpenses => 7
  | .trades => 8
  | .listingRenames => 9

/-- The re-basing of the balance by a split, consolidation or bonus issue, with
the units either side of it summed over the parcels it stored a count for. -/
structure Rebase where
  new : ℚ
  old : ℚ
  stored : Option (ℚ × ℚ)

/-- A row before the ledger is put in order. -/
structure Proto where
  date : NaiveDate
  rank : ℕ
  record : RecordTable
  id : ℤ
  quantity : Option ℚ
  rebase : Option Rebase

/-- A day's actions come before its statements, and those before its trades. -/
def Proto.key (r : Proto) : NaiveDate ×ₗ ℕ ×ₗ ℕ ×ₗ ℤ :=
  toLex (r.date, toLex (r.rank, toLex (r.record.order, r.id)))

structure ActivityEvent where
  date : NaiveDate
  quantity : Option ℚ
  unitsAfter : ℚ
  record : RecordTable
  id : ℤ

/-- A row that moves no units: a transfer's, an income row's, a statement's. -/
structure Note where
  date : NaiveDate
  record : RecordTable
  id : ℤ

def Note.proto (n : Note) : Proto := ⟨n.date, 1, n.record, n.id, none, none⟩

def tradeProto (t : Trade) : Proto := ⟨t.date, 2, .trades, t.id, some t.signed, none⟩

/-! ### The balance -/

/-- The units held as a fraction. -/
structure Balance where
  num : ℚ
  den : ℚ

section Balance
variable {ε : Type} [Panics ε] (D : DecimalRounding)

namespace Balance

def zero : Balance := ⟨0, 1⟩

def value (b : Balance) : ℚ := b.num / b.den

/-- The fraction, a plain figure once it divides exactly. -/
def of (num den : ℚ) : Attempt ε Balance :=
  if den ≠ 1 ∧ (num / den).den = 1 then do return ⟨← D.op (num / den), 1⟩ else pure ⟨num, den⟩

/-- The balance as a row reads it out, where rounding is what is asked for. -/
def get (b : Balance) : Attempt ε ℚ := if b.den = 1 then pure b.num else D.printed b.value

/-- Re-based `new` for `old`, over the rounded figure where the terms are past
the range. -/
def rebased (b : Balance) (new old : ℚ) : Attempt ε Balance := do
  match ← D.checked (b.num * new), ← D.checked (b.den * old) with
  | some num, some den => of D num den
  | _, _ => of D (← D.mulDiv (← b.get D) new old) 1

def plus (b : Balance) (quantity : ℚ) : Attempt ε Balance := do
  let some moved ← D.checked (quantity * b.den) | return ← of D (← D.op ((← b.get D) + quantity)) 1
  let some num ← D.checked (b.num + moved) | return ← of D (← D.op ((← b.get D) + quantity)) 1
  of D num b.den

/-- The units an action stored a count for become that count; the rest re-base
by the ratio. -/
def rebase (b : Balance) (r : Rebase) : Attempt ε Balance :=
  match r.stored with
  | some (before, after) => do
      let rest ← b.plus D (-before)
      (← rest.rebased D r.new r.old).plus D after
  | none => b.rebased D r.new r.old

def rebaseBy (b : Balance) : Option Rebase → Attempt ε Balance
  | some r => b.rebase D r
  | none => pure b

def plusBy (b : Balance) : Option ℚ → Attempt ε Balance
  | some quantity => b.plus D quantity
  | none => pure b

/-- The balance after a row. -/
def row (b : Balance) (r : Proto) : Attempt ε Balance := do
  let b ← b.rebaseBy D r.rebase
  b.plusBy D r.quantity

end Balance

def ledgerFrom (balance : Balance) : List Proto → Attempt ε (List ActivityEvent)
  | [] => pure []
  | r :: rows => do
      let balance ← balance.row D r
      let unitsAfter ← balance.get D
      let rest ← ledgerFrom balance rows
      return ⟨r.date, r.quantity, unitsAfter, r.record, r.id⟩ :: rest

/-- The rows in order, with the balance running beside them. -/
def ledger (rows : List Proto) : Attempt ε (List ActivityEvent) :=
  ledgerFrom D .zero (StableSort.sortBy Proto.key rows)

/-! ### The ledger of a listing -/

/-- The units before and after a rounded action, summed over its stored counts. -/
def storedCounts (a : CorporateAction) : Attempt ε (Option (ℚ × ℚ)) :=
  if a.counts = [] then pure none
  else do
    let before ← D.sum (a.counts.map fun c => c.2.before)
    let after ← D.sum (a.counts.map fun c => c.2.after)
    return some (before, after)

def actionProto (a : CorporateAction) : Attempt ε Proto :=
  match a.rebase with
  | some event => do
      let stored ← storedCounts D a
      return ⟨a.date, 0, .corporateActions, a.id, none, some ⟨event.newUnits, event.oldUnits, stored⟩⟩
  | none => pure ⟨a.date, 0, .corporateActions, a.id, none, none⟩

/-- The ledger of a listing, beside the rows that move no units; a transfer's
trades are no rows of their own. -/
def activity (s : Ledger) (listing : ListingId) (notes : List Note) :
    Attempt ε (List ActivityEvent) := do
  let actions ← (s.actions.filter fun a => a.listing = listing).mapM (actionProto D)
  let trades := (s.trades.filter fun t => t.listing = listing).filter fun t => !t.inTransfer
  ledger D (actions ++ notes.map Note.proto ++ trades.map tradeProto)

end Balance

/-! ### What the balance comes to where nothing rounds -/

namespace Proto

/-- What a row multiplies the balance by. -/
def factor (r : Proto) : ℚ := r.rebase.elim 1 fun b => b.new / b.old

/-- What a row moves the balance by, once re-based. -/
def shift (r : Proto) : ℚ :=
  (r.rebase.elim 0 fun b => b.stored.elim 0 fun s => s.2 - s.1 * (b.new / b.old)) +
    r.quantity.getD 0

end Proto

namespace Balance
variable {ε : Type} [Panics ε] {D : DecimalRounding}

/-- A fraction over a positive denominator whose numerator is a figure. -/
structure Sound (b : Balance) : Prop where
  den_pos : 0 < b.den
  num_holds : holds b.num = true

theorem sound_zero : zero.Sound := ⟨one_pos, by decide +kernel⟩

theorem of_yields {num den : ℚ} {b : Balance} (hden : 0 < den) (hnum : holds num = true)
    (h : (of D num den : Attempt ε _).Yields b) : b.Sound ∧ b.value = num / den := by
  unfold of at h
  split at h
  · obtain ⟨q, hq, h⟩ := yields_bind.mp h
    obtain ⟨rfl, hholds⟩ := DecimalRounding.of_yields_op hq
    rw [← yields_pure.mp h]
    exact ⟨⟨one_pos, hholds⟩, div_one _⟩
  · rw [← yields_pure.mp h]
    exact ⟨⟨hden, hnum⟩, rfl⟩

theorem get_yields {b : Balance} {q : ℚ} (hb : b.Sound) (h : (b.get D : Attempt ε _).Yields q) :
    q = D.round b.value := by
  unfold get at h
  split at h
  · rename_i hone
    rw [← yields_pure.mp h, value, hone, div_one, D.round_holds hb.num_holds]
  · exact DecimalRounding.of_yields_printed h

theorem rebased_yields {b b' : Balance} {new old : ℚ} (hb : b.Sound) (hold : 0 < old)
    (h : (b.rebased D new old : Attempt ε _).Yields b') :
    b'.Sound ∧ b'.value = b.value * (new / old) := by
  unfold rebased at h
  obtain ⟨_, hnum, h⟩ := yields_bind.mp h
  obtain ⟨_, hden, h⟩ := yields_bind.mp h
  obtain ⟨rfl, hholds⟩ := DecimalRounding.of_yields_checked hnum
  obtain ⟨rfl, -⟩ := DecimalRounding.of_yields_checked hden
  obtain ⟨hsound, hvalue⟩ := of_yields (mul_pos hb.den_pos hold) hholds h
  exact ⟨hsound, by rw [hvalue, value, div_mul_div_comm]⟩

theorem plus_yields {b b' : Balance} {quantity : ℚ} (hb : b.Sound)
    (h : (b.plus D quantity : Attempt ε _).Yields b') :
    b'.Sound ∧ b'.value = b.value + quantity := by
  unfold plus at h
  obtain ⟨_, hmoved, h⟩ := yields_bind.mp h
  obtain ⟨rfl, -⟩ := DecimalRounding.of_yields_checked hmoved
  obtain ⟨_, hnum, h⟩ := yields_bind.mp h
  obtain ⟨rfl, hholds⟩ := DecimalRounding.of_yields_checked hnum
  obtain ⟨hsound, hvalue⟩ := of_yields hb.den_pos hholds h
  exact ⟨hsound, by rw [hvalue, value, add_div, mul_div_cancel_right₀ _ hb.den_pos.ne']⟩

theorem rebase_yields {b b' : Balance} {r : Rebase} (hb : b.Sound) (hold : 0 < r.old)
    (h : (b.rebase D r : Attempt ε _).Yields b') :
    b'.Sound ∧ b'.value = b.value * (r.new / r.old) +
      r.stored.elim 0 fun s => s.2 - s.1 * (r.new / r.old) := by
  unfold rebase at h
  cases hstored : r.stored with
  | none =>
    rw [hstored] at h
    obtain ⟨hsound, hvalue⟩ := rebased_yields hb hold h
    exact ⟨hsound, hvalue.trans (add_zero _).symm⟩
  | some stored =>
    obtain ⟨before, after⟩ := stored
    rw [hstored] at h
    obtain ⟨rest, hrest, h⟩ := yields_bind.mp h
    obtain ⟨scaled, hscaled, h⟩ := yields_bind.mp h
    obtain ⟨hrestSound, hrestValue⟩ := plus_yields hb hrest
    obtain ⟨hscaledSound, hscaledValue⟩ := rebased_yields hrestSound hold hscaled
    obtain ⟨hsound, hvalue⟩ := plus_yields hscaledSound h
    refine ⟨hsound, ?_⟩
    rw [hvalue, hscaledValue, hrestValue]
    simp only [Option.elim_some]
    ring

theorem rebaseBy_yields {b b' : Balance} {o : Option Rebase} (hb : b.Sound)
    (hold : ∀ r ∈ o, 0 < r.old) (h : (b.rebaseBy D o : Attempt ε _).Yields b') :
    b'.Sound ∧ b'.value = b.value * (o.elim 1 fun r => r.new / r.old) +
      o.elim 0 fun r => r.stored.elim 0 fun s => s.2 - s.1 * (r.new / r.old) := by
  cases o with
  | none =>
    rw [← yields_pure.mp h]
    exact ⟨hb, by simp⟩
  | some r => exact rebase_yields hb (hold r rfl) h

theorem plusBy_yields {b b' : Balance} {o : Option ℚ} (hb : b.Sound)
    (h : (b.plusBy D o : Attempt ε _).Yields b') : b'.Sound ∧ b'.value = b.value + o.getD 0 := by
  cases o with
  | none =>
    rw [← yields_pure.mp h]
    exact ⟨hb, (add_zero _).symm⟩
  | some quantity => exact plus_yields hb h

theorem row_yields {b b' : Balance} {r : Proto} (hb : b.Sound)
    (hold : ∀ rebase ∈ r.rebase, 0 < rebase.old) (h : (b.row D r : Attempt ε _).Yields b') :
    b'.Sound ∧ b'.value = b.value * r.factor + r.shift := by
  unfold row at h
  obtain ⟨mid, hmid, h⟩ := yields_bind.mp h
  obtain ⟨hmidSound, hmidValue⟩ := rebaseBy_yields hb hold hmid
  obtain ⟨hsound, hvalue⟩ := plusBy_yields hmidSound h
  exact ⟨hsound, by rw [hvalue, hmidValue, add_assoc]; rfl⟩

end Balance

section Ledger
variable {ε : Type} [Panics ε] {D : DecimalRounding}

theorem ledgerFrom_dates {b : Balance} {rows : List Proto} {events : List ActivityEvent}
    (h : (ledgerFrom D b rows : Attempt ε _).Yields events) :
    rows.map Proto.date = events.map ActivityEvent.date := by
  induction rows generalizing b events with
  | nil =>
    rw [← yields_pure.mp h]
    rfl
  | cons r rows ih =>
    unfold ledgerFrom at h
    obtain ⟨_, -, h⟩ := yields_bind.mp h
    obtain ⟨_, -, h⟩ := yields_bind.mp h
    obtain ⟨rest, hrest, h⟩ := yields_bind.mp h
    rw [← yields_pure.mp h, List.map_cons, List.map_cons, ih hrest]

/-- Each event reads out the balance of the rows up to its own. -/
theorem ledgerFrom_yields {b : Balance} {rows : List Proto} {events : List ActivityEvent}
    (hb : b.Sound) (hold : ∀ r ∈ rows, ∀ rebase ∈ r.rebase, 0 < rebase.old)
    (h : (ledgerFrom D b rows : Attempt ε _).Yields events) {pre post : List ActivityEvent}
    {e : ActivityEvent} (hsplit : events = pre ++ e :: post) :
    ∃ before r later, rows = before ++ r :: later ∧ r.date = e.date ∧
      later.map Proto.date = post.map ActivityEvent.date ∧
      e.unitsAfter =
        D.round (RebasedBalance.run Proto.factor Proto.shift b.value (before ++ [r])) := by
  induction rows generalizing b events pre with
  | nil =>
    rw [← yields_pure.mp h] at hsplit
    exact absurd hsplit (by simp)
  | cons r rows ih =>
    unfold ledgerFrom at h
    obtain ⟨next, hnext, h⟩ := yields_bind.mp h
    obtain ⟨unitsAfter, hunits, h⟩ := yields_bind.mp h
    obtain ⟨rest, hrest, h⟩ := yields_bind.mp h
    obtain ⟨hsound, hvalue⟩ := Balance.row_yields hb (hold r List.mem_cons_self) hnext
    rw [← yields_pure.mp h] at hsplit
    cases pre with
    | nil =>
      obtain ⟨rfl, rfl⟩ := List.cons.inj hsplit
      refine ⟨[], r, rows, rfl, rfl, ledgerFrom_dates hrest, ?_⟩
      rw [Balance.get_yields hsound hunits, hvalue]
      rfl
    | cons first pre =>
      obtain ⟨-, hsplit⟩ := List.cons.inj hsplit
      obtain ⟨before, r', later, rfl, hdate, hlater, hunits⟩ := ih hsound
        (fun r' hr' => hold r' (List.mem_cons_of_mem r hr')) hrest hsplit
      refine ⟨r :: before, r', later, rfl, hdate, hlater, ?_⟩
      rw [hunits, hvalue]
      rfl

end Ledger

end ShareTracker.Activity
