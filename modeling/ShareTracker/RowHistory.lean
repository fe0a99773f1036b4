import ShareTracker.Lib.Keyed
import ShareTracker.Lib.GuardedRun

/-!
The audit trail and the records its entries under one id belong to: an insert
leaves no entry, so where one record's life ends and the next one's begins is
read off the deletes and off whether the id is taken now.
-/
namespace ShareTracker.RowHistory

/-- The audited tables. -/
inductive AuditedTable where
  | trades
  | parcelAllocations
  | income
  | interestIncome
  | ammaStatements
  | amitAdjustments
  | essStatements
  | transfers
  | corporateActions
  | inheritances
  | rightsSales
  | rightsSaleAllocations
  | investmentExpenses
  | drpEnrolments
  | cgtSettings
  | attachments
  | listings
  | listingRenames
  | closingPrices
  | taxYearSettings
  | rbaFxRates
  | exchangeHolidays
  | distributionEvents
  | entitlementOverrides
  deriving DecidableEq

/-- A tax year's settings are of that year whoever enters them. -/
def AuditedTable.keyIsReusable : AuditedTable → Bool
  | .taxYearSettings => false
  | _ => true

inductive Operation where
  | update
  | delete
  deriving DecidableEq

def Operation.text : Operation → String
  | .update => "UPDATE"
  | .delete => "DELETE"

inductive Value where
  | null
  | bool (b : Bool)
  | int (n : ℤ)
  | text (t : String)
  deriving DecidableEq

/-- The fields of an entry that are the trail's own. -/
def trailFields : List String :=
  ["history_id", "operation", "changed_at", "occupant", "current_occupant"]

/-- The columns of an audited row, none of them named as a field of the trail. -/
structure AuditedRow where
  columns : List (String × Value)
  apart : ∀ c ∈ columns, c.1 ∉ trailFields

structure HistoryRow where
  id : ℤ
  table : AuditedTable
  rowId : ℤ
  operation : Operation
  changedAt : String
  oldRow : AuditedRow

/-! ### The trail -/

/-- The audited tables' rows by their keys, and the trail, newest first. -/
structure Db where
  row? : AuditedTable → ℤ → Option AuditedRow
  history : List HistoryRow

def Db.empty : Db := ⟨fun _ _ => none, []⟩

inductive Write where
  | insert (table : AuditedTable) (id : ℤ) (row : AuditedRow)
  | update (table : AuditedTable) (id : ℤ) (row : AuditedRow) (changedAt : String)
  | delete (table : AuditedTable) (id : ℤ) (changedAt : String)

inductive Refusal where
  | taken
  | missing
  deriving DecidableEq

namespace Db

def setRow (s : Db) (table : AuditedTable) (id : ℤ) (row : Option AuditedRow) : Db :=
  { s with row? := fun t i => if t = table ∧ i = id then row else s.row? t i }

/-- What the triggers write of a row that is about to change. -/
def record (s : Db) (table : AuditedTable) (id : ℤ) (operation : Operation) (changedAt : String)
    (oldRow : AuditedRow) : Db :=
  { s with history := ⟨s.history.length + 1, table, id, operation, changedAt, oldRow⟩ :: s.history }

def step (s : Db) : Write → Except Refusal Db
  | .insert table id row =>
    match s.row? table id with
    | some _ => .error .taken
    | none => .ok (s.setRow table id (some row))
  | .update table id row changedAt =>
    match s.row? table id with
    | some oldRow => .ok ((s.record table id .update changedAt oldRow).setRow table id (some row))
    | none => .error .missing
  | .delete table id changedAt =>
    match s.row? table id with
    | some oldRow => .ok ((s.record table id .delete changedAt oldRow).setRow table id none)
    | none => .error .missing

def run (s : Db) : List Write → Except Refusal Db := GuardedRun.run step s

/-- Whether the id holds a row now. -/
def occupied (s : Db) (table : AuditedTable) (id : ℤ) : Bool := (s.row? table id).isSome

/-- The entries of one key, newest first. -/
def trail (s : Db) (table : AuditedTable) (id : ℤ) : List HistoryRow :=
  s.history.filter fun r => r.table = table && r.rowId = id

end Db

/-! ### Reading it -/

/-- The walk over one row's trail, newest first. -/
structure Occupants where
  occupant : ℤ
  occupied : Bool
  reusable : Bool
  seenAny : Bool

/-- The occupant the next entry belongs to, and whether it holds the id now. -/
def Occupants.next (o : Occupants) (operation : Operation) : (ℤ × Bool) × Occupants :=
  let occupant :=
    if o.reusable && operation = .delete && (o.seenAny || o.occupied) then o.occupant + 1
    else o.occupant
  ((occupant, occupant = 1 && o.occupied), { o with occupant := occupant, seenAny := true })

abbrev Entry := List (String × Value)

def Entry.get (e : Entry) (name : String) : Option Value :=
  (Keyed.get? Prod.fst e name).map Prod.snd

def Entry.insert (e : Entry) (column : String × Value) : Entry := Keyed.put Prod.fst e column

theorem Entry.nodup_insert {e : Entry} (he : (e.map Prod.fst).Nodup) (column : String × Value) :
    ((e.insert column).map Prod.fst).Nodup := Keyed.nodup_put he column

/-- An entry's own fields, with the old row's columns behind them. -/
def HistoryRow.entry (r : HistoryRow) (label : ℤ × Bool) : Entry :=
  let own := [("history_id", .int r.id), ("operation", .text r.operation.text),
    ("changed_at", .text r.changedAt), ("occupant", .int label.1),
    ("current_occupant", .bool label.2)]
  r.oldRow.columns.foldl Entry.insert own

def walk (o : Occupants) : List HistoryRow → List Entry
  | [] => []
  | r :: rows => r.entry (o.next r.operation).1 :: walk (o.next r.operation).2 rows

/-- One row's audit entries, newest first. -/
def dbRowHistory (s : Db) (table : AuditedTable) (id : ℤ) : List Entry :=
  walk ⟨1, s.occupied table id, table.keyIsReusable, false⟩ (s.trail table id)

section Fields

theorem get_insert_ne {e : Entry} (he : (e.map Prod.fst).Nodup) {column : String × Value}
    {name : String} (h : name ≠ column.1) : (e.insert column).get name = e.get name :=
  congrArg (Option.map Prod.snd) (Keyed.get?_put_ne he h)

theorem get_extend {columns : List (String × Value)} {name : String}
    (h : ∀ c ∈ columns, name ≠ c.1) {e : Entry} (he : (e.map Prod.fst).Nodup) :
    (columns.foldl Entry.insert e).get name = e.get name := by
  induction columns generalizing e with
  | nil => rfl
  | cons c columns ih =>
    rw [List.foldl_cons, ih (fun c' hc' => h c' (List.mem_cons_of_mem c hc')) (Entry.nodup_insert he c)]
    exact get_insert_ne he (h c List.mem_cons_self)

/-- The old row's columns hide none of an entry's own fields. -/
theorem get_entry (r : HistoryRow) (label : ℤ × Bool) {name : String} (h : name ∈ trailFields) :
    (r.entry label).get name = Entry.get [("history_id", .int r.id),
      ("operation", .text r.operation.text), ("changed_at", .text r.changedAt),
      ("occupant", .int label.1), ("current_occupant", .bool label.2)] name := by
  apply get_extend
  · rintro c hc rfl
    exact r.oldRow.apart c hc h
  · change trailFields.Nodup
    decide

theorem occupant_entry (r : HistoryRow) (label : ℤ × Bool) :
    (r.entry label).get "occupant" = some (.int label.1) := get_entry r label (by decide)

theorem current_entry (r : HistoryRow) (label : ℤ × Bool) :
    (r.entry label).get "current_occupant" = some (.bool label.2) := get_entry r label (by decide)

theorem historyId_entry (r : HistoryRow) (label : ℤ × Bool) :
    (r.entry label).get "history_id" = some (.int r.id) := get_entry r label (by decide)

end Fields

/-! ### Lifetimes -/

/-- A change made to a row: the entry it left, and the lifetime of the id it
was made in. -/
structure Change where
  entry : ℤ
  operation : Operation
  lifetime : ℕ

/-- The life of one id: how often it was taken, and the changes made under it,
newest first. -/
structure Life where
  writes : ℤ
  lifetimes : ℕ
  changes : List Change

/-- A write as it goes into the life of an id; every change of any row takes an
entry of the trail. -/
def Life.after (table : AuditedTable) (id : ℤ) (l : Life) : Write → Life
  | .insert t i _ => if t = table ∧ i = id then { l with lifetimes := l.lifetimes + 1 } else l
  | .update t i _ _ =>
    ⟨l.writes + 1, l.lifetimes,
      if t = table ∧ i = id then ⟨l.writes + 1, .update, l.lifetimes⟩ :: l.changes else l.changes⟩
  | .delete t i _ =>
    ⟨l.writes + 1, l.lifetimes,
      if t = table ∧ i = id then ⟨l.writes + 1, .delete, l.lifetimes⟩ :: l.changes else l.changes⟩

/-- The life a history of writes gives an id. -/
def lifeOf (table : AuditedTable) (id : ℤ) (ws : List Write) : Life :=
  ws.foldl (Life.after table id) ⟨0, 0, []⟩

/-- How an id has been held: each lifetime opens on a free id, and a delete
closes it. -/
inductive Held : Bool → ℕ → List Change → Prop where
  | new : Held false 0 []
  | insert {n : ℕ} {cs : List Change} : Held false n cs → Held true (n + 1) cs
  | update {n : ℕ} {cs : List Change} (entry : ℤ) :
      Held true n cs → Held true n (⟨entry, .update, n⟩ :: cs)
  | delete {n : ℕ} {cs : List Change} (entry : ℤ) :
      Held true n cs → Held false n (⟨entry, .delete, n⟩ :: cs)

/-- An entry of the trail, left by a change. -/
def Left (r : HistoryRow) (c : Change) : Prop := r.id = c.entry ∧ r.operation = c.operation

theorem Db.row?_setRow (s : Db) (table : AuditedTable) (id : ℤ) (row : Option AuditedRow)
    (t : AuditedTable) (i : ℤ) :
    (s.setRow table id row).row? t i = if t = table ∧ i = id then row else s.row? t i := rfl

/-- The state agrees with the life of an id: the trail has an entry for every
change, and is held as the life says. -/
structure Traced (table : AuditedTable) (id : ℤ) (s : Db) (l : Life) : Prop where
  held : Held (s.occupied table id) l.lifetimes l.changes
  writes : (s.history.length : ℤ) = l.writes
  trail : List.Forall₂ Left (s.trail table id) l.changes

variable {table : AuditedTable} {id : ℤ}

theorem traced_insert {s : Db} {l : Life} (h : Traced table id s l) {t : AuditedTable} {i : ℤ}
    {row : AuditedRow} (hfree : s.row? t i = none) :
    Traced table id (s.setRow t i (some row)) (l.after table id (.insert t i row)) := by
  by_cases hkey : t = table ∧ i = id
  · obtain ⟨rfl, rfl⟩ := hkey
    have hheld := h.held
    rw [Db.occupied, hfree] at hheld
    rw [Life.after, if_pos ⟨rfl, rfl⟩]
    refine ⟨?_, h.writes, h.trail⟩
    rw [Db.occupied, Db.row?_setRow, if_pos ⟨rfl, rfl⟩]
    exact .insert hheld
  · have hother : ¬ (table = t ∧ id = i) := fun hk => hkey ⟨hk.1.symm, hk.2.symm⟩
    rw [Life.after, if_neg hkey]
    refine ⟨?_, h.writes, h.trail⟩
    rw [Db.occupied, Db.row?_setRow, if_neg hother]
    exact h.held

/-- An update or a delete leaves one entry, of the lifetime it falls in. -/
theorem traced_change {s : Db} {l : Life} (h : Traced table id s l) {t : AuditedTable} {i : ℤ}
    {operation : Operation} {changedAt : String} {old : AuditedRow} {row : Option AuditedRow}
    (htaken : s.row? t i = some old)
    (hclose : ∀ n cs entry, Held true n cs → Held row.isSome n (⟨entry, operation, n⟩ :: cs)) :
    Traced table id ((s.record t i operation changedAt old).setRow t i row)
      ⟨l.writes + 1, l.lifetimes, if t = table ∧ i = id then
        ⟨l.writes + 1, operation, l.lifetimes⟩ :: l.changes else l.changes⟩ := by
  have hwrites : (((s.record t i operation changedAt old).setRow t i row).history.length : ℤ) =
      l.writes + 1 := by
    rw [← h.writes]
    simp [Db.setRow, Db.record]
  by_cases hkey : t = table ∧ i = id
  · obtain ⟨rfl, rfl⟩ := hkey
    have hheld := h.held
    rw [Db.occupied, htaken] at hheld
    rw [if_pos ⟨rfl, rfl⟩]
    refine ⟨?_, hwrites, ?_⟩
    · rw [Db.occupied, Db.row?_setRow, if_pos ⟨rfl, rfl⟩]
      exact hclose _ _ _ hheld
    · simp only [Db.trail, Db.setRow, Db.record]
      rw [List.filter_cons_of_pos (by simp), ← h.writes]
      exact .cons ⟨rfl, rfl⟩ h.trail
  · have hother : ¬ (table = t ∧ id = i) := fun hk => hkey ⟨hk.1.symm, hk.2.symm⟩
    rw [if_neg hkey]
    refine ⟨?_, hwrites, ?_⟩
    · rw [Db.occupied, Db.row?_setRow, if_neg hother]
      exact h.held
    · simp only [Db.trail, Db.setRow, Db.record]
      rw [List.filter_cons_of_neg (by simpa using hkey)]
      exact h.trail

/-- One accepted write keeps the state and the life together. -/
theorem traced_step {s s' : Db} {l : Life} (h : Traced table id s l) {w : Write}
    (hstep : s.step w = .ok s') : Traced table id s' (l.after table id w) := by
  cases w with
  | insert t i row =>
    cases hrow : s.row? t i with
    | some old => simp [Db.step, hrow] at hstep
    | none =>
      obtain rfl : s.setRow t i (some row) = s' := by simpa [Db.step, hrow] using hstep
      exact traced_insert h hrow
  | update t i row changedAt =>
    cases hrow : s.row? t i with
    | none => simp [Db.step, hrow] at hstep
    | some old =>
      obtain rfl : (s.record t i .update changedAt old).setRow t i (some row) = s' := by
        simpa [Db.step, hrow] using hstep
      exact traced_change h hrow fun _ _ entry hheld => .update entry hheld
  | delete t i changedAt =>
    cases hrow : s.row? t i with
    | none => simp [Db.step, hrow] at hstep
    | some old =>
      obtain rfl : (s.record t i .delete changedAt old).setRow t i none = s' := by
        simpa [Db.step, hrow] using hstep
      exact traced_change h hrow fun _ _ entry hheld => .delete entry hheld

theorem traced_run {s s' : Db} {l : Life} (h : Traced table id s l) {ws : List Write}
    (hrun : s.run ws = .ok s') : Traced table id s' (ws.foldl (Life.after table id) l) := by
  induction ws generalizing s l with
  | nil =>
    obtain rfl : s = s' := Except.ok.inj hrun
    exact h
  | cons w ws ih =>
    obtain ⟨mid, hstep, hrest⟩ := GuardedRun.run_cons.mp hrun
    exact ih (traced_step h hstep) hrest

theorem traced_empty : Traced table id Db.empty ⟨0, 0, []⟩ := ⟨.new, rfl, .nil⟩

/-! ### The labels -/

/-- What an entry says of the change that left it, `latest` being the id's most
recent lifetime. -/
def Labelled (latest : ℕ) (occupied : Bool) (e : Entry) (c : Change) : Prop :=
  e.get "history_id" = some (.int c.entry) ∧
    e.get "occupant" = some (.int (latest - c.lifetime + 1)) ∧
    e.get "current_occupant" = some (.bool (occupied && c.lifetime = latest))

theorem labelled_entry {r : HistoryRow} {c : Change} (h : Left r c) {latest : ℕ} {occupied : Bool}
    {label : ℤ × Bool} (hoccupant : label.1 = latest - c.lifetime + 1)
    (hcurrent : label.2 = (label.1 = 1 && occupied)) :
    Labelled latest occupied (r.entry label) c := by
  refine ⟨?_, ?_, ?_⟩
  · rw [historyId_entry, h.1]
  · rw [occupant_entry, hoccupant]
  · have hsame : decide (label.1 = 1) = decide (c.lifetime = latest) := by
      apply decide_eq_decide.mpr
      rw [hoccupant]
      omega
    rw [current_entry, hcurrent, hsame, Bool.and_comm]

/-- Past the newest entry, or on a taken id, a delete closes the lifetime before. -/
theorem walk_older {taken : Bool} {n : ℕ} {cs : List Change} (h : Held taken n cs) {latest : ℕ}
    {k : ℤ} {now seen : Bool} (hseen : (seen || now) = true)
    (hk : k = latest - n + if taken then 1 else 0) {rows : List HistoryRow}
    (hrows : List.Forall₂ Left rows cs) :
    List.Forall₂ (Labelled latest now) (walk ⟨k, now, true, seen⟩ rows) cs := by
  induction h generalizing k seen rows with
  | new =>
    cases hrows
    exact .nil
  | @insert n cs _ ih =>
    have hk' : k = latest - n + if false then 1 else 0 := by
      rw [hk, if_pos rfl, if_neg Bool.false_ne_true]
      push_cast
      ring
    exact ih hseen hk' hrows
  | update entry _ ih =>
    cases hrows with
    | cons hleft hrest =>
      have hnext : Occupants.next ⟨k, now, true, seen⟩ .update =
          ((k, k = 1 && now), ⟨k, now, true, true⟩) := rfl
      rw [walk, hleft.2, hnext]
      exact .cons (labelled_entry hleft hk rfl) (ih (Bool.true_or now) hk hrest)
  | delete entry _ ih =>
    cases hrows with
    | cons hleft hrest =>
      have hnext : Occupants.next ⟨k, now, true, seen⟩ .delete =
          ((k + 1, k + 1 = 1 && now), ⟨k + 1, now, true, true⟩) := by
        simp [Occupants.next, hseen]
      have hk' := congrArg (· + 1) (hk.trans (add_zero _))
      rw [walk, hleft.2, hnext]
      exact .cons (labelled_entry hleft hk' rfl) (ih (Bool.true_or now) hk' hrest)

/-- The newest entry of a free id is the delete of its last record. -/
theorem walk_newest {taken : Bool} {n : ℕ} {cs : List Change} (h : Held taken n cs)
    {rows : List HistoryRow} (hrows : List.Forall₂ Left rows cs) :
    List.Forall₂ (Labelled n taken) (walk ⟨1, taken, true, false⟩ rows) cs := by
  have hnow : (1 : ℤ) = n - n + if true then 1 else 0 := by simp
  cases taken with
  | true => exact walk_older h (Bool.or_true false) hnow hrows
  | false =>
    cases h with
    | new =>
      cases hrows
      exact .nil
    | delete entry hheld =>
      cases hrows with
      | cons hleft hrest =>
        have hnext : Occupants.next ⟨1, false, true, false⟩ .delete =
            ((1, (1 : ℤ) = 1 && false), ⟨1, false, true, true⟩) := rfl
        rw [walk, hleft.2, hnext]
        exact .cons (labelled_entry hleft hnow rfl)
          (walk_older hheld (Bool.true_or false) hnow hrest)

/-- An entry tells the lifetime of the change that left it, counted back from the
most recent one, and whether that one's row holds the id now. -/
def Tells (latest : ℕ) (taken : Bool) (e : Entry) (c : Change) : Prop :=
  e.get "history_id" = some (.int c.entry) ∧
    (∀ k : ℕ, e.get "occupant" = some (.int k) ↔ c.lifetime + k = latest + 1) ∧
    e.get "current_occupant" = some (.bool (taken && c.lifetime = latest))

/-- After every history of writes, the trail of a re-usable key tells its entries
apart by the lifetimes of the id. -/
theorem occupant_is_lifetime (ws : List Write) (s : Db) (h : Db.empty.run ws = .ok s)
    (table : AuditedTable) (ht : table.keyIsReusable = true) (id : ℤ) :
    List.Forall₂ (Tells (lifeOf table id ws).lifetimes (s.occupied table id))
      (dbRowHistory s table id) (lifeOf table id ws).changes := by
  have htraced : Traced table id s (lifeOf table id ws) := traced_run traced_empty h
  have hwalk := walk_newest htraced.held htraced.trail
  rw [dbRowHistory, ht]
  refine hwalk.imp fun e c hlabelled => ⟨hlabelled.1, fun k => ?_, hlabelled.2.2⟩
  rw [hlabelled.2.1, Option.some_inj, Value.int.injEq]
  omega

theorem tradeColumns_apart (quantity : String) :
    ∀ c ∈ [("id", Value.int 9072), ("quantity", Value.text quantity)], c.1 ∉ trailFields := by
  simp [trailFields]

def tradeRow (quantity : String) : AuditedRow := ⟨_, tradeColumns_apart quantity⟩

/-- A trade mis-keyed, edited and deleted, and its id taken again. -/
def reentered : List Write :=
  [.insert .trades 9072 (tradeRow "10"), .update .trades 9072 (tradeRow "100") "2025-07-01",
    .delete .trades 9072 "2025-07-02", .insert .trades 9072 (tradeRow "1")]

theorem occupant_is_lifetime_reentered : ∃ s, Db.empty.run reentered = .ok s ∧
    List.Forall₂ (Tells 2 true) (dbRowHistory s .trades 9072)
      [⟨2, .delete, 1⟩, ⟨1, .update, 1⟩] :=
  ⟨_, rfl, occupant_is_lifetime reentered _ rfl .trades rfl 9072⟩

end ShareTracker.RowHistory
