import ShareTracker.Lib.Classes
import ShareTracker.Lib.StableSort
import ShareTracker.IncomeRows
import ShareTracker.ParcelSources
import ShareTracker.TaxSummary

/-!
The health report's lists of one fact entered twice: which rows of a table are
one entry, and how an entry of two rows or more is reported.
-/
namespace ShareTracker.HealthDuplicates

/-! ### One check -/

/-- The rows of a table in the order of their ids, which no two share. -/
structure Table {ρ : Type*} (id : ρ → ℤ) where
  rows : List ρ
  ascending : rows.Pairwise fun r s => id r < id s

section Queries
variable {ρ κ : Type*} [DecidableEq κ]

/-- `HAVING COUNT(*) > 1` over the rows of a row's key. -/
def counted (key : ρ → κ) (table : List ρ) (row : ρ) : Bool :=
  decide (1 < table.countP fun o => key o = key row)

/-- `EXISTS` another row that shares a part of the key. -/
def shared (id : ρ → ℤ) (part : ρ → κ) (table : List ρ) (row : ρ) : Bool :=
  table.any fun o => decide (part o = part row) && decide (id o ≠ id row)

end Queries

structure DuplicateCheck (ρ R γ : Type*) where
  id : ρ → ℤ
  /-- Whether the query reads a row of the table. -/
  candidate : List ρ → ρ → Bool
  {κ : Type}
  [decidableKey : DecidableEq κ]
  /-- What two rows have alike that are the same entry. -/
  key : ρ → κ
  /-- The entry of a group, by its first row and all of them. -/
  report : ρ → List ρ → R
  newestFirst : R → γ
  candidate_of_same : ∀ {rows : List ρ} {r s : ρ}, r ∈ rows → s ∈ rows → id r ≠ id s →
    key r = key s → candidate rows r = true

namespace DuplicateCheck
variable {ρ R γ : Type*} (c : DuplicateCheck ρ R γ)

instance : DecidableEq c.κ := c.decidableKey

def entry (group : List ρ) : Option R := group.head?.map fun first => c.report first group

theorem exists_other {id : ρ → ℤ} {l : List ρ} (hl : l.Pairwise fun r s => id r < id s)
    (h : 2 ≤ l.length) (s : ρ) : ∃ t ∈ l, id s ≠ id t := by
  match l, h with
  | a :: b :: l, _ =>
    have hab : id a < id b := List.rel_of_pairwise_cons hl List.mem_cons_self
    by_cases ha : id s = id a
    · exact ⟨b, List.mem_cons_of_mem a List.mem_cons_self, ha ▸ hab.ne⟩
    · exact ⟨a, List.mem_cons_self, ha⟩

/-- The query reads every row of a class of two or more. -/
theorem class_candidates (t : Table c.id) {k : c.κ}
    (h : 2 ≤ (Classes.classOf c.key t.rows k).length) :
    Classes.classOf c.key (t.rows.filter (c.candidate t.rows)) k =
      Classes.classOf c.key t.rows k := by
  have hswap : Classes.classOf c.key (t.rows.filter (c.candidate t.rows)) k =
      (Classes.classOf c.key t.rows k).filter (c.candidate t.rows) := List.filter_comm _ _ _
  rw [hswap, List.filter_eq_self]
  intro s hs
  have hascending : (Classes.classOf c.key t.rows k).Pairwise fun r s => c.id r < c.id s :=
    t.ascending.sublist List.filter_sublist
  obtain ⟨o, ho, hne⟩ := exists_other hascending h s
  have hkey : c.key s = c.key o :=
    (of_decide_eq_true (List.mem_filter.mp hs).2).trans
      (of_decide_eq_true (List.mem_filter.mp ho).2).symm
  exact c.candidate_of_same (List.mem_filter.mp hs).1 (List.mem_filter.mp ho).1 hne hkey

theorem mem_entries (t : Table c.id) (g : List ρ) :
    g ∈ (Classes.groups c.key (t.rows.filter (c.candidate t.rows))).filter
        (fun group => decide (1 < group.length)) ↔
      ∃ r ∈ t.rows, g = Classes.classOf c.key t.rows (c.key r) ∧ 2 ≤ g.length := by
  rw [List.mem_filter, decide_eq_true_iff, Classes.mem_groups]
  constructor
  · rintro ⟨⟨r, hr, rfl⟩, hlen⟩
    have hsub : (Classes.classOf c.key (t.rows.filter (c.candidate t.rows)) (c.key r)).length ≤
        (Classes.classOf c.key t.rows (c.key r)).length :=
      (List.filter_sublist.filter _).length_le
    exact ⟨r, (List.mem_filter.mp hr).1, c.class_candidates t (hlen.trans_le hsub), hlen⟩
  · rintro ⟨r, hr, rfl, hlen⟩
    have hclass := c.class_candidates t hlen
    have hmem : r ∈ Classes.classOf c.key t.rows (c.key r) :=
      List.mem_filter.mpr ⟨hr, decide_eq_true rfl⟩
    have hcand := (List.mem_filter.mp (hclass.symm ▸ hmem)).1
    exact ⟨⟨r, hcand, hclass.symm⟩, hlen⟩

theorem map_some_entries {gs : List (List ρ)} (h : ∀ g ∈ gs, 1 < g.length) :
    (gs.filterMap c.entry).map some = gs.map c.entry := by
  induction gs with
  | nil => rfl
  | cons g gs ih =>
    match g, h g List.mem_cons_self with
    | first :: rest, _ =>
      have hfirst : c.entry (first :: rest) = some (c.report first (first :: rest)) := rfl
      rw [List.filterMap_cons_some hfirst, List.map_cons, List.map_cons,
        ih fun g hg => h g (List.mem_cons_of_mem _ hg)]
      rfl

section Listing
variable [LinearOrder γ]

def findDuplicates (table : List ρ) : List R :=
  StableSort.sortBy c.newestFirst
    (((Classes.groups c.key (table.filter (c.candidate table))).filter fun group =>
      decide (1 < group.length)).filterMap c.entry)

/-- The entries are the table's classes of two rows or more, each once with all its
rows, in the list's order. -/
structure Exact (table : List ρ) (reports : List R) : Prop where
  ordered : reports.Pairwise fun a b => c.newestFirst a ≤ c.newestFirst b
  classes : ∃ classes : List (List ρ), (reports.map some).Perm (classes.map c.entry) ∧
    classes.Nodup ∧ ∀ g : List ρ, g ∈ classes ↔
      ∃ r ∈ table, g = Classes.classOf c.key table (c.key r) ∧ 2 ≤ g.length

theorem findDuplicates_exact (t : Table c.id) : c.Exact t.rows (c.findDuplicates t.rows) where
  ordered := StableSort.sortBy_sorted _ _
  classes := by
    refine ⟨_, ?_, (Classes.nodup_groups _).filter _, c.mem_entries t⟩
    rw [← c.map_some_entries fun g hg => of_decide_eq_true (List.mem_filter.mp hg).2]
    exact (StableSort.sortBy_perm _ _).map some

end Listing

end DuplicateCheck

/-! ### The rows -/

structure NotedTrade where
  id : ℤ
  listing : ListingId
  contractNoteRef : Option String
  date : NaiveDate
  deriving DecidableEq

/-- A trade with a contract note reference, trimmed. -/
structure ContractNoteTrade where
  id : ℤ
  listing : ListingId
  contractNoteRef : String
  date : NaiveDate
  deriving DecidableEq

structure ActionEntry where
  id : ℤ
  listing : ListingId
  actionType : String
  date : NaiveDate
  deriving DecidableEq

structure AmmaEntry where
  id : ℤ
  listing : ListingId
  taxYearEndDate : NaiveDate
  holdingAccount : HoldingAccountId
  deriving DecidableEq

structure InterestIncome extends TaxSummary.InterestIncome where
  holdingAccount : Option HoldingAccountId
  deriving DecidableEq

structure InvestmentExpense extends TaxSummary.InvestmentExpense where
  grossAmount : Option ℚ
  deductiblePercentage : Option ℚ
  holdingAccount : Option HoldingAccountId
  deriving DecidableEq

/-- `TRIM`: spaces alone. -/
def sqlTrim (s : String) : String :=
  String.ofList ((s.toList.dropWhile (· == ' ')).rdropWhile (· == ' '))

/-- No reference, or one of spaces, is no contract note. -/
def NotedTrade.contractNote (t : NotedTrade) : Option ContractNoteTrade :=
  t.contractNoteRef.bind fun ref =>
    if sqlTrim ref = "" then none else some ⟨t.id, t.listing, sqlTrim ref, t.date⟩

def incomeId (i : IncomeRows.Income) : ℤ := i.id

/-! ### The entries -/

structure DuplicateTrade where
  listing : ListingId
  ticker : String
  contractNoteRef : String
  date : NaiveDate
  tradeCount : ℕ
  tradeIds : List ℤ
  deriving DecidableEq

structure DuplicateAction where
  listing : ListingId
  ticker : String
  actionType : String
  date : NaiveDate
  actionCount : ℕ
  actionIds : List ℤ
  deriving DecidableEq

structure DuplicateAmmaStatement where
  listing : ListingId
  ticker : String
  taxYear : ℤ
  holdingAccount : HoldingAccountId
  statementCount : ℕ
  statementIds : List ℤ
  deriving DecidableEq

structure DuplicateIncome where
  listing : ListingId
  ticker : String
  holdingAccount : HoldingAccountId
  datePaid : NaiveDate
  currency : CurrencyCode
  grossAmount : ℚ
  incomeCount : ℕ
  incomeIds : List ℤ
  deriving DecidableEq

structure DuplicateInterest where
  datePaid : NaiveDate
  currency : CurrencyCode
  amount : ℚ
  source : Option String
  holdingAccount : Option HoldingAccountId
  interestCount : ℕ
  interestIds : List ℤ
  deriving DecidableEq

structure DuplicateExpense where
  dateIncurred : NaiveDate
  expenseType : TaxSummary.ExpenseType
  currency : CurrencyCode
  amount : ℚ
  description : Option String
  listing : Option ListingId
  ticker : Option String
  holdingAccount : Option HoldingAccountId
  expenseCount : ℕ
  expenseIds : List ℤ
  deriving DecidableEq

structure DuplicateEssStatement where
  listing : ListingId
  ticker : String
  holdingAccount : HoldingAccountId
  taxingPointDate : NaiveDate
  currency : CurrencyCode
  quantity : ℚ
  discountTotal : ℚ
  statementCount : ℕ
  statementIds : List ℤ
  deriving DecidableEq

structure DuplicateInheritance where
  listing : ListingId
  ticker : String
  holdingAccount : HoldingAccountId
  dateOfDeath : NaiveDate
  currency : CurrencyCode
  quantity : ℚ
  costBaseTotal : ℚ
  inheritanceCount : ℕ
  inheritanceIds : List ℤ
  deriving DecidableEq

/-! ### The checks -/

section Candidates
variable {ρ κ δ : Type*} [DecidableEq κ] [DecidableEq δ] {id : ρ → ℤ} {table : List ρ} {r s : ρ}

theorem one_lt_length {l : List ρ} (hr : r ∈ l) (hs : s ∈ l) (h : r ≠ s) : 1 < l.length := by
  match l, hr, hs with
  | [_], hr, hs => exact absurd ((List.mem_singleton.mp hr).trans (List.mem_singleton.mp hs).symm) h
  | _ :: _ :: _, _, _ => exact Nat.succ_lt_succ (Nat.succ_pos _)

theorem counted_of_same {key : ρ → κ} (hr : r ∈ table) (hs : s ∈ table) (hne : id r ≠ id s)
    (hkey : key r = key s) : counted key table r = true := by
  refine decide_eq_true ?_
  rw [List.countP_eq_length_filter]
  refine one_lt_length (List.mem_filter.mpr ⟨hr, decide_eq_true rfl⟩)
    (List.mem_filter.mpr ⟨hs, decide_eq_true hkey.symm⟩) ?_
  exact fun heq => hne (congrArg id heq)

theorem shared_of_same {part : ρ → δ} (hs : s ∈ table) (hne : id r ≠ id s)
    (hpart : part s = part r) :
    shared id part table r = true :=
  List.any_eq_true.mpr ⟨s, hs, Bool.and_eq_true_iff.mpr
    ⟨decide_eq_true hpart, decide_eq_true (Ne.symm hne)⟩⟩

end Candidates

section Checks
set_option synthInstance.maxSize 100000
set_option synthInstance.maxHeartbeats 100000
variable (tickers : ListingId → Option String)

def ticker (listing : ListingId) : String := (tickers listing).getD ""

def contractNoteTrade : DuplicateCheck ContractNoteTrade DuplicateTrade
    (NaiveDateᵒᵈ ×ₗ String ×ₗ String) where
  id := ContractNoteTrade.id
  candidate := counted fun t => (t.listing, t.contractNoteRef)
  key t := (t.listing, t.contractNoteRef)
  report first group :=
    { listing := first.listing
      ticker := ticker tickers first.listing
      contractNoteRef := first.contractNoteRef
      date := (group.map ContractNoteTrade.date).foldl max first.date
      tradeCount := group.length
      tradeIds := group.map ContractNoteTrade.id }
  newestFirst a := toLex (OrderDual.toDual a.date, toLex (a.ticker, a.contractNoteRef))
  candidate_of_same hr hs hne hkey := counted_of_same hr hs hne hkey

def actionEntry : DuplicateCheck ActionEntry DuplicateAction
    (NaiveDateᵒᵈ ×ₗ String ×ₗ String) where
  id := ActionEntry.id
  candidate := counted fun a => (a.listing, a.actionType, a.date)
  key a := (a.listing, a.actionType, a.date)
  report first group :=
    { listing := first.listing
      ticker := ticker tickers first.listing
      actionType := first.actionType
      date := first.date
      actionCount := group.length
      actionIds := group.map ActionEntry.id }
  newestFirst a := toLex (OrderDual.toDual a.date, toLex (a.ticker, a.actionType))
  candidate_of_same hr hs hne hkey := counted_of_same hr hs hne hkey

def ammaEntry : DuplicateCheck AmmaEntry DuplicateAmmaStatement (ℤᵒᵈ ×ₗ String ×ₗ ℤ) where
  id := AmmaEntry.id
  candidate := counted fun a => (a.listing, a.taxYearEndDate, a.holdingAccount)
  key a := (a.listing, a.taxYearEndDate, a.holdingAccount)
  report first group :=
    { listing := first.listing
      ticker := ticker tickers first.listing
      taxYear := taxYearFor first.taxYearEndDate
      holdingAccount := first.holdingAccount
      statementCount := group.length
      statementIds := group.map AmmaEntry.id }
  newestFirst a := toLex (OrderDual.toDual a.taxYear, toLex (a.ticker, a.holdingAccount))
  candidate_of_same hr hs hne hkey := counted_of_same hr hs hne hkey

/-- Every money column, and the row's kind. -/
def incomeKey (i : IncomeRows.Income) :=
  ((i.listing, i.account, i.datePaid), i.incomeType, i.currency, i.frankedAmount, i.unfrankedAmount,
    i.foreignSourceIncome, i.foreignTaxPaid, i.tfnWithholdingTax, i.frankingCredits,
    i.licCapitalGainAmount, i.conduitForeignIncome, i.amountPerSecurity, i.securitiesHeld,
    i.taxDeferredAmount)

def income : DuplicateCheck IncomeRows.Income DuplicateIncome
    (NaiveDateᵒᵈ ×ₗ String ×ₗ ℤ ×ₗ List ℤ) where
  id := incomeId
  candidate := shared incomeId fun i => (incomeKey i).1
  key := incomeKey
  report first group :=
    { listing := first.listing
      ticker := ticker tickers first.listing
      holdingAccount := first.account
      datePaid := first.datePaid
      currency := first.currency
      grossAmount := first.grossCashIncome
      incomeCount := group.length
      incomeIds := group.map incomeId }
  newestFirst a :=
    toLex (OrderDual.toDual a.datePaid, toLex (a.ticker, toLex (a.holdingAccount, a.incomeIds)))
  candidate_of_same _ hs hne hkey := shared_of_same hs hne (congrArg Prod.fst hkey.symm)

def interestId (i : InterestIncome) : ℤ := i.id

/-- Every column but the id. -/
def interestKey (i : InterestIncome) :=
  (i.datePaid, i.currency, i.amount, i.tfnWithholdingTax, i.foreignSource, i.foreignTaxPaid,
    i.source, i.holdingAccount)

def interest : DuplicateCheck InterestIncome DuplicateInterest
    (NaiveDateᵒᵈ ×ₗ WithBot String ×ₗ List ℤ) where
  id := interestId
  candidate := shared interestId fun i => (interestKey i).1
  key := interestKey
  report first group :=
    { datePaid := first.datePaid
      currency := first.currency
      amount := first.amount
      source := first.source
      holdingAccount := first.holdingAccount
      interestCount := group.length
      interestIds := group.map interestId }
  newestFirst a := toLex (OrderDual.toDual a.datePaid, toLex (a.source, a.interestIds))
  candidate_of_same _ hs hne hkey := shared_of_same hs hne (congrArg Prod.fst hkey.symm)

def expenseId (e : InvestmentExpense) : ℤ := e.id

/-- Every column but the id. -/
def expenseKey (e : InvestmentExpense) :=
  (e.dateIncurred, e.expenseType, e.currency, e.amount, e.grossAmount, e.deductiblePercentage,
    e.description, e.listing, e.holdingAccount)

def expense : DuplicateCheck InvestmentExpense DuplicateExpense
    (NaiveDateᵒᵈ ×ₗ WithBot String ×ₗ List ℤ) where
  id := expenseId
  candidate := shared expenseId fun e => (expenseKey e).1
  key := expenseKey
  report first group :=
    { dateIncurred := first.dateIncurred
      expenseType := first.expenseType
      currency := first.currency
      amount := first.amount
      description := first.description
      listing := first.listing
      ticker := first.listing.bind tickers
      holdingAccount := first.holdingAccount
      expenseCount := group.length
      expenseIds := group.map expenseId }
  newestFirst a := toLex (OrderDual.toDual a.dateIncurred, toLex (a.ticker, a.expenseIds))
  candidate_of_same _ hs hne hkey := shared_of_same hs hne (congrArg Prod.fst hkey.symm)

/-- Every column but the id. -/
def essStatementKey (s : ParcelSources.EssStatement) :=
  ((s.listing, s.account, s.taxingPointDate),
    (s.currency, s.quantity, s.marketValuePerShare, s.tfnWithholding, s.fxRate),
    (s.taxedUpfrontEligible, s.taxedUpfrontNotEligible, s.deferralDiscount,
      s.pre2009CessationDiscount, s.foreignSourceDiscount),
    s.audTaxedUpfrontEligible, s.audTaxedUpfrontNotEligible, s.audDeferralDiscount,
    s.audPre2009CessationDiscount, s.audForeignSourceDiscount)

def essStatement : DuplicateCheck ParcelSources.EssStatement DuplicateEssStatement
    (NaiveDateᵒᵈ ×ₗ String ×ₗ ℤ ×ₗ List ℤ) where
  id := ParcelSources.EssStatement.id
  candidate := shared ParcelSources.EssStatement.id fun s => (essStatementKey s).1
  key := essStatementKey
  report first group :=
    { listing := first.listing
      ticker := ticker tickers first.listing
      holdingAccount := first.account
      taxingPointDate := first.taxingPointDate
      currency := first.currency
      quantity := first.quantity
      discountTotal := first.discountLabels
      statementCount := group.length
      statementIds := group.map ParcelSources.EssStatement.id }
  newestFirst a :=
    toLex (OrderDual.toDual a.taxingPointDate,
      toLex (a.ticker, toLex (a.holdingAccount, a.statementIds)))
  candidate_of_same _ hs hne hkey := shared_of_same hs hne (congrArg Prod.fst hkey.symm)

/-- Every column but the id. -/
def inheritanceKey (i : ParcelSources.Inheritance) :=
  ((i.listing, i.account, i.dateOfDeath), i.currency, i.quantity, i.costBaseRule, i.costBase,
    i.lprExpenditure, i.lprExpenditureDate, i.deceasedAcquisitionDate, i.fxRate)

def inheritance : DuplicateCheck ParcelSources.Inheritance DuplicateInheritance
    (NaiveDateᵒᵈ ×ₗ String ×ₗ ℤ ×ₗ List ℤ) where
  id := ParcelSources.Inheritance.id
  candidate := shared ParcelSources.Inheritance.id fun i => (inheritanceKey i).1
  key := inheritanceKey
  report first group :=
    { listing := first.listing
      ticker := ticker tickers first.listing
      holdingAccount := first.account
      dateOfDeath := first.dateOfDeath
      currency := first.currency
      quantity := first.quantity
      costBaseTotal := first.costBase + first.lprExpenditure
      inheritanceCount := group.length
      inheritanceIds := group.map ParcelSources.Inheritance.id }
  newestFirst a :=
    toLex (OrderDual.toDual a.dateOfDeath,
      toLex (a.ticker, toLex (a.holdingAccount, a.inheritanceIds)))
  candidate_of_same _ hs hne hkey := shared_of_same hs hne (congrArg Prod.fst hkey.symm)

end Checks

/-! ### The whole family -/

theorem contractNote_id {t : NotedTrade} {n : ContractNoteTrade} (h : t.contractNote = some n) :
    n.id = t.id := by
  obtain ⟨ref, -, hn⟩ := Option.bind_eq_some_iff.mp h
  split at hn
  · cases hn
  · cases hn
    rfl

theorem contractNotes_ascending (t : Table NotedTrade.id) :
    (t.rows.filterMap NotedTrade.contractNote).Pairwise fun m n => m.id < n.id := by
  refine List.pairwise_filterMap.mpr (t.ascending.imp ?_)
  intro a b hab m hm n hn
  rwa [contractNote_id hm, contractNote_id hn]

def contractNotes (t : Table NotedTrade.id) : Table ContractNoteTrade.id :=
  ⟨t.rows.filterMap NotedTrade.contractNote, contractNotes_ascending t⟩

/-- The tables the family reads on one connection. -/
structure Books where
  tickers : ListingId → Option String
  trades : Table NotedTrade.id
  actions : Table ActionEntry.id
  ammaStatements : Table AmmaEntry.id
  income : Table incomeId
  interest : Table interestId
  expenses : Table expenseId
  essStatements : Table ParcelSources.EssStatement.id
  inheritances : Table ParcelSources.Inheritance.id

structure Duplicates where
  trades : List DuplicateTrade
  actions : List DuplicateAction
  ammaStatements : List DuplicateAmmaStatement
  income : List DuplicateIncome
  interest : List DuplicateInterest
  expenses : List DuplicateExpense
  essStatements : List DuplicateEssStatement
  inheritances : List DuplicateInheritance

def dbDuplicates (b : Books) : Duplicates where
  trades := (contractNoteTrade b.tickers).findDuplicates (contractNotes b.trades).rows
  actions := (actionEntry b.tickers).findDuplicates b.actions.rows
  ammaStatements := (ammaEntry b.tickers).findDuplicates b.ammaStatements.rows
  income := (income b.tickers).findDuplicates b.income.rows
  interest := interest.findDuplicates b.interest.rows
  expenses := (expense b.tickers).findDuplicates b.expenses.rows
  essStatements := (essStatement b.tickers).findDuplicates b.essStatements.rows
  inheritances := (inheritance b.tickers).findDuplicates b.inheritances.rows

/-- Each list names every class of same entries once, whole and in its order, whatever
the query leaves out. -/
theorem double_entries_listed_once (b : Books) :
    (contractNoteTrade b.tickers).Exact (contractNotes b.trades).rows (dbDuplicates b).trades ∧
    (actionEntry b.tickers).Exact b.actions.rows (dbDuplicates b).actions ∧
    (ammaEntry b.tickers).Exact b.ammaStatements.rows (dbDuplicates b).ammaStatements ∧
    (income b.tickers).Exact b.income.rows (dbDuplicates b).income ∧
    interest.Exact b.interest.rows (dbDuplicates b).interest ∧
    (expense b.tickers).Exact b.expenses.rows (dbDuplicates b).expenses ∧
    (essStatement b.tickers).Exact b.essStatements.rows (dbDuplicates b).essStatements ∧
    (inheritance b.tickers).Exact b.inheritances.rows (dbDuplicates b).inheritances := by
  refine ⟨?_, ?_, ?_, ?_, ?_, ?_, ?_, ?_⟩
  · exact (contractNoteTrade b.tickers).findDuplicates_exact (contractNotes b.trades)
  · exact (actionEntry b.tickers).findDuplicates_exact b.actions
  · exact (ammaEntry b.tickers).findDuplicates_exact b.ammaStatements
  · exact (income b.tickers).findDuplicates_exact b.income
  · exact interest.findDuplicates_exact b.interest
  · exact (expense b.tickers).findDuplicates_exact b.expenses
  · exact (essStatement b.tickers).findDuplicates_exact b.essStatements
  · exact (inheritance b.tickers).findDuplicates_exact b.inheritances

end ShareTracker.HealthDuplicates
