import Mathlib
import ShareTracker.BackupNames
import ShareTracker.Lib.Checked

/-!
The Reserve Bank's table of exchange rates as it is read: the rows of the text,
the currency each column is headed with, and the rates under it.
-/
namespace ShareTracker.RateFeed

open Backups (stripPrefix yearText padded)
open Text (splitAll trim trimEnd)

/-! ### The text as it is read -/

def byteOrderMark : Char := '\ufeff'

/-- Whether a text begins with a figure. -/
def ledByDigit (t : List Char) : Bool := t.head?.any Char.isDigit

/-- What the library reads of a field: `%d-%b-%Y`, a decimal and an upper case.
A field read as a date begins with a figure. -/
structure Readers where
  date : List Char → Option NaiveDate
  decimal : List Char → Option ℚ
  toUppercase : List Char → List Char
  date_digit : ∀ t day, date (trim t) = some day → ledByDigit (trim t) = true

/-- A currency's rate for a month. -/
structure Rate where
  currency : List Char
  month : List Char
  rate : ℚ
  deriving DecidableEq

inductive ParseError
  | beforeTitle
  | invalidRate (currency value month : List Char)
  | notPositive (currency value month : List Char)
  | noTitle
  deriving DecidableEq

/-- The currency of each column past the first, where it is one's. -/
abbrev Columns := List (Option (List Char))

def stripMark (content : List Char) : List Char := (stripPrefix [byteOrderMark] content).getD content

def title : List Char := ['t', 'i', 't', 'l', 'e']

def heading : List Char := ['A', '$', '1', '=']

/-- A row's fields, from its line without the space at its end. -/
def fieldsOf (line : List Char) : List (List Char) := (splitAll ',' line).map trim

/-- The first of a row's fields. -/
def key (fields : List (List Char)) : List Char := fields.headD []

/-- `eq_ignore_ascii_case("Title")`. -/
def isTitle (fields : List (List Char)) : Bool := (key fields).map Char.toLower = title

/-- `%Y-%m`. -/
def monthOf (day : NaiveDate) : List Char := yearText day.year ++ '-' :: padded 2 day.month

/-- The values under a currency's heading that are not blank: a row that ends
early has none in its last columns. -/
def cells (columns : Columns) (fields : List (List Char)) : List (List Char × List Char) :=
  (columns.zip fields.tail).filterMap fun (currency, value) =>
    if value = [] then none else currency.map fun c => (c, value)

structure Feed where
  currencies : Option Columns
  out : List Rate

section Parse
variable (r : Readers)

def columnsOf (fields : List (List Char)) : Columns :=
  fields.tail.map fun h => (stripPrefix heading h).map r.toUppercase

def readRate (month : List Char) (cell : List Char × List Char) : Except ParseError Rate := do
  let rate ← Checked.orRefuse (r.decimal cell.2) (.invalidRate cell.1 cell.2 month)
  Checked.refuseIf (rate ≤ 0) (.notPositive cell.1 cell.2 month)
  pure ⟨cell.1, month, rate⟩

/-- The rates of a row under the columns in force: a row whose key is no date is
taken for one of the rows about the table. -/
def rowRates (columns : Option Columns) (fields : List (List Char)) :
    Except ParseError (List Rate) :=
  match r.date (key fields) with
  | none => .ok []
  | some day =>
    match columns with
    | none => .error .beforeTitle
    | some columns => (cells columns fields).mapM (readRate r (monthOf day))

def readRow (feed : Feed) (fields : List (List Char)) : Except ParseError Feed :=
  if isTitle fields then .ok { feed with currencies := some (columnsOf r fields) }
  else do
    let rates ← rowRates r feed.currencies fields
    pure { feed with out := feed.out ++ rates }

def readLine (feed : Feed) (line : List Char) : Except ParseError Feed :=
  if trimEnd line = [] then .ok feed else readRow r feed (fieldsOf (trimEnd line))

def parseRates (content : List Char) : Except ParseError (List Rate) := do
  let feed ← (Text.lines (stripMark content)).foldlM (readLine r) ⟨none, []⟩
  Checked.refuseIf (feed.currencies = none) .noTitle
  pure feed.out

end Parse

/-! ### What a text asks for -/

/-- The rows of a line: none where it is blank. -/
def rowOf (line : List Char) : List (List (List Char)) :=
  if trimEnd line = [] then [] else [fieldsOf (trimEnd line)]

def rowsOf (content : List Char) : List (List (List Char)) :=
  (splitAll '\n' (stripMark content)).flatMap rowOf

/-- A row that is no title, and the columns it stands under. -/
structure Headed where
  columns : Option Columns
  fields : List (List Char)

/-- Its first field is one read from a text, trimmed. -/
def Headed.Trimmed (row : Headed) : Prop := ∃ t, key row.fields = trim t

/-- Its currencies' values that are not blank. -/
def Headed.cells (row : Headed) : List (List Char × List Char) :=
  row.columns.elim [] fun columns => RateFeed.cells columns row.fields

/-- A value that a row states: under the row's key, for a currency. -/
structure Stated where
  key : List Char
  currency : List Char
  value : List Char

/-- The values a row states that begins with a figure. -/
def Headed.stated (row : Headed) : List Stated :=
  if ledByDigit (key row.fields) then row.cells.map fun c => ⟨key row.fields, c.1, c.2⟩ else []

section Demands
variable (r : Readers)

def headed : Option Columns → List (List (List Char)) → List Headed
  | _, [] => []
  | columns, fields :: rows =>
    if isTitle fields then headed (some (columnsOf r fields)) rows
    else ⟨columns, fields⟩ :: headed columns rows

def headedRows (content : List Char) : List Headed := headed r none (rowsOf content)

/-- The values of the text's rows that begin with a figure. -/
def stated (content : List Char) : List Stated := (headedRows r content).flatMap Headed.stated

/-- A rate that is what a stated value says, in the month of a date that is read. -/
structure Yields (s : Stated) (rate : Rate) : Prop where
  currency : rate.currency = s.currency
  value : r.decimal s.value = some rate.rate
  positive : 0 < rate.rate
  month : ∀ day, r.date s.key = some day → rate.month = monthOf day

/-- The text fails, or its rates are those of its stated values, one for each. -/
def LosesNothing (content : List Char) : Prop :=
  ∀ out, parseRates r content = .ok out → List.Forall₂ (Yields r) (stated r content) out

def hasTitle (content : List Char) : Bool := (rowsOf content).any isTitle

/-- A value that reads as no positive decimal. -/
def BadValue (value : List Char) : Prop := ∀ rate, r.decimal value = some rate → rate ≤ 0

/-- A dated row that stands under no title, or states a value that is no positive decimal. -/
def Headed.Refused (row : Headed) : Prop :=
  (r.date (key row.fields)).isSome = true ∧
    (row.columns = none ∨ ∃ cell ∈ row.cells, BadValue r cell.2)

/-- The texts that lose nothing: those refused for want of a title or for a row,
and those whose rows that begin with a figure and state a value are all dated as
the parser reads dates. -/
def DatesRead (content : List Char) : Prop :=
  hasTitle content = false ∨ (∃ row ∈ headedRows r content, row.Refused r) ∨
    ∀ row ∈ headedRows r content, row.stated ≠ [] → (r.date (key row.fields)).isSome = true

end Demands

/-! ### What is read of any text -/

section Reading
variable {r : Readers}

theorem rowOf_stripCr (line : List Char) : rowOf (Text.stripCr line) = rowOf line := by
  unfold rowOf
  rw [Text.trimEnd_stripCr]

/-- The rows of the lines are those of the pieces between the line feeds. -/
theorem flatMap_lines (s : List Char) :
    (Text.lines s).flatMap rowOf = (splitAll '\n' s).flatMap rowOf := by
  have hne : splitAll '\n' s ≠ [] := Text.splitAll_ne_nil s
  have hsplit := List.dropLast_append_getLast hne
  have hlast := List.getLast?_eq_getLast_of_ne_nil hne
  generalize (splitAll '\n' s).getLast hne = last at hsplit hlast
  have hrows : (Text.lines s).flatMap rowOf =
      (splitAll '\n' s).dropLast.flatMap rowOf ++ rowOf last := by
    simp only [Text.lines, hlast, List.flatMap_append, List.flatMap_map]
    congr 1
    · exact List.flatMap_congr fun line _ => rowOf_stripCr line
    · by_cases h : last = []
      · subst h
        rfl
      · simp [h]
  rw [hrows]
  conv_rhs => rw [← hsplit]
  simp

theorem foldlM_readLine (feed : Feed) (lines : List (List Char)) :
    lines.foldlM (readLine r) feed = (lines.flatMap rowOf).foldlM (readRow r) feed := by
  induction lines generalizing feed with
  | nil => rfl
  | cons line lines ih =>
    rw [List.flatMap_cons, List.foldlM_append, List.foldlM_cons]
    unfold readLine rowOf
    split
    · exact ih feed
    · rw [List.foldlM_cons]
      simp only [List.foldlM_nil, bind_pure]
      exact congrArg _ (funext ih)

/-- A row adds its rates, or changes the columns. -/
theorem readRow_ok {feed feed' : Feed} {fields : List (List Char)} :
    readRow r feed fields = .ok feed' ↔
      if isTitle fields then feed' = ⟨some (columnsOf r fields), feed.out⟩
      else ∃ rates, rowRates r feed.currencies fields = .ok rates ∧
        feed' = ⟨feed.currencies, feed.out ++ rates⟩ := by
  unfold readRow
  split
  · constructor
    · intro h
      cases h
      rfl
    · rintro rfl
      rfl
  · rw [Checked.bind_ok_iff]
    constructor
    · rintro ⟨rates, hrates, heq⟩
      cases heq
      exact ⟨rates, hrates, rfl⟩
    · rintro ⟨rates, hrates, rfl⟩
      exact ⟨rates, hrates, rfl⟩

/-- The rows together: the rates of each that is no title, in order. -/
theorem foldlM_readRow {rows : List (List (List Char))} {feed feed' : Feed}
    (h : rows.foldlM (readRow r) feed = .ok feed') :
    (∃ outs, List.Forall₂ (fun row out => rowRates r row.columns row.fields = .ok out)
        (headed r feed.currencies rows) outs ∧ feed'.out = feed.out ++ outs.flatten) ∧
      (feed'.currencies = none ↔ feed.currencies = none ∧ rows.any isTitle = false) := by
  induction rows generalizing feed with
  | nil =>
    cases h
    exact ⟨⟨[], .nil, by simp⟩, by simp⟩
  | cons fields rows ih =>
    rw [List.foldlM_cons, Checked.bind_ok_iff] at h
    obtain ⟨mid, hmid, hrest⟩ := h
    obtain ⟨⟨outs, houts, hout⟩, hcolumns⟩ := ih hrest
    rw [readRow_ok] at hmid
    unfold headed
    split at hmid
    · rename_i htitle
      subst hmid
      rw [if_pos htitle]
      exact ⟨⟨outs, houts, hout⟩, by simp [hcolumns, htitle]⟩
    · rename_i htitle
      obtain ⟨rates, hrates, rfl⟩ := hmid
      rw [if_neg htitle]
      refine ⟨⟨rates :: outs, .cons hrates houts, ?_⟩, by simp [hcolumns, htitle]⟩
      rw [hout, List.flatten_cons, List.append_assoc]

/-- Rows of which none is refused are read. -/
theorem exists_foldlM_readRow {rows : List (List (List Char))} {feed : Feed}
    {outs : List (List Rate)}
    (h : List.Forall₂ (fun row out => rowRates r row.columns row.fields = .ok out)
      (headed r feed.currencies rows) outs) :
    ∃ feed', rows.foldlM (readRow r) feed = .ok feed' := by
  induction rows generalizing feed outs with
  | nil => exact ⟨feed, rfl⟩
  | cons fields rows ih =>
    simp only [List.foldlM_cons, Checked.bind_ok_iff, readRow_ok]
    unfold headed at h
    split at h
    · rename_i htitle
      obtain ⟨feed', hfeed'⟩ := @ih ⟨some (columnsOf r fields), feed.out⟩ outs h
      refine ⟨feed', _, ?_, hfeed'⟩
      rw [if_pos htitle]
    · rename_i htitle
      cases h with
      | cons hrates hrest =>
        obtain ⟨feed', hfeed'⟩ := @ih ⟨feed.currencies, feed.out ++ _⟩ _ hrest
        refine ⟨feed', _, ?_, hfeed'⟩
        rw [if_neg htitle]
        exact ⟨_, hrates, rfl⟩

theorem parseRates_ok {content : List Char} {out : List Rate} :
    parseRates r content = .ok out ↔ hasTitle content = true ∧
      ∃ outs, List.Forall₂ (fun row out => rowRates r row.columns row.fields = .ok out)
        (headedRows r content) outs ∧ out = outs.flatten := by
  unfold parseRates
  rw [Checked.bind_ok_iff, foldlM_readLine, flatMap_lines]
  constructor
  · rintro ⟨feed, hfeed, hout⟩
    rw [Checked.bind_ok_iff] at hout
    obtain ⟨u, hnone, heq⟩ := hout
    cases heq
    obtain ⟨⟨outs, houts, hflat⟩, hcolumns⟩ := foldlM_readRow hfeed
    rw [Checked.refuseIf_ok, hcolumns] at hnone
    refine ⟨?_, outs, houts, by simpa using hflat⟩
    simpa [hasTitle, rowsOf] using hnone
  · rintro ⟨htitle, outs, houts, rfl⟩
    obtain ⟨feed, hfeed⟩ := @exists_foldlM_readRow r (rowsOf content) ⟨none, []⟩ outs houts
    obtain ⟨⟨outs', houts', hflat⟩, hcolumns⟩ := foldlM_readRow hfeed
    obtain rfl : outs' = outs := by
      have hunique : Relator.RightUnique
          fun (row : Headed) out => rowRates r row.columns row.fields = .ok out := by
        intro row out out' ha hb
        exact Except.ok.inj (ha.symm.trans hb)
      exact List.right_unique_forall₂' hunique houts' houts
    refine ⟨feed, hfeed, ?_⟩
    rw [Checked.bind_ok_iff]
    refine ⟨(), ?_, congrArg Except.ok hflat⟩
    rw [Checked.refuseIf_ok, hcolumns, not_and]
    intro _ hnone
    rw [hasTitle] at htitle
    rw [htitle] at hnone
    cases hnone

end Reading

/-! ### Rows, and the values they state -/

section Rows
variable {r : Readers} {row : Headed} {rates : List Rate}

theorem readRate_ok {month : List Char} {cell : List Char × List Char} {rate : Rate} :
    readRate r month cell = .ok rate ↔ rate.currency = cell.1 ∧ rate.month = month ∧
      r.decimal cell.2 = some rate.rate ∧ 0 < rate.rate := by
  unfold readRate
  simp only [Checked.bind_ok_iff, Checked.orRefuse_ok, Checked.refuseIf_ok, not_le]
  constructor
  · rintro ⟨q, hq, u, hpos, heq⟩
    cases heq
    exact ⟨rfl, rfl, hq, hpos⟩
  · rintro ⟨hcurrency, hmonth, hq, hpos⟩
    refine ⟨_, hq, (), hpos, ?_⟩
    cases rate
    cases hcurrency
    cases hmonth
    rfl

theorem rowRates_undated (h : r.date (key row.fields) = none) :
    rowRates r row.columns row.fields = .ok rates ↔ rates = [] := by
  unfold rowRates
  rw [h]
  exact ⟨fun heq => (Except.ok.inj heq).symm, fun heq => congrArg Except.ok heq.symm⟩

theorem rowRates_dated {day : NaiveDate} (h : r.date (key row.fields) = some day) :
    rowRates r row.columns row.fields = .ok rates ↔ row.columns ≠ none ∧
      List.Forall₂ (fun cell rate => readRate r (monthOf day) cell = .ok rate) row.cells rates := by
  unfold rowRates Headed.cells
  rw [h]
  cases row.columns with
  | none =>
    constructor
    · intro heq
      cases heq
    · intro hne
      exact absurd rfl hne.1
  | some columns =>
    change (RateFeed.cells columns row.fields).mapM (readRate r (monthOf day)) = _ ↔ _
    rw [Checked.mapM_ok_iff]
    exact (and_iff_right (by simp)).symm

/-- A row that is read and dated yields a rate for each of its stated values. -/
theorem yields_of_dated (htrimmed : row.Trimmed)
    (hread : rowRates r row.columns row.fields = .ok rates)
    (hdated : (r.date (key row.fields)).isSome = true) :
    List.Forall₂ (Yields r) row.stated rates := by
  obtain ⟨day, hday⟩ := Option.isSome_iff_exists.mp hdated
  have hcells := ((rowRates_dated hday).mp hread).2
  have hdigit : ledByDigit (key row.fields) = true := by
    obtain ⟨t, ht⟩ := htrimmed
    rw [ht] at hday ⊢
    exact r.date_digit t day hday
  unfold Headed.stated
  rw [if_pos hdigit, List.forall₂_map_left_iff]
  refine hcells.imp fun cell rate hrate => ?_
  obtain ⟨hcurrency, hmonth, hvalue, hpos⟩ := readRate_ok.mp hrate
  refine ⟨hcurrency, hvalue, hpos, fun day' hday' => ?_⟩
  obtain rfl := Option.some.inj (hday.symm.trans hday')
  exact hmonth

theorem length_le_stated (htrimmed : row.Trimmed)
    (hread : rowRates r row.columns row.fields = .ok rates) :
    rates.length ≤ row.stated.length := by
  cases hday : r.date (key row.fields) with
  | none =>
    rw [(rowRates_undated hday).mp hread]
    exact Nat.zero_le _
  | some day => exact (yields_of_dated htrimmed hread (by rw [hday]; rfl)).length_eq.ge

theorem readable_iff {month : List Char} {cell : List Char × List Char} :
    ¬ BadValue r cell.2 ↔ ∃ rate, readRate r month cell = .ok rate := by
  unfold BadValue
  push Not
  constructor
  · rintro ⟨q, hq, hpos⟩
    exact ⟨⟨cell.1, month, q⟩, readRate_ok.mpr ⟨rfl, rfl, hq, hpos⟩⟩
  · rintro ⟨rate, hrate⟩
    obtain ⟨-, -, hq, hpos⟩ := readRate_ok.mp hrate
    exact ⟨rate.rate, hq, hpos⟩

/-- A row is read just where it is not refused. -/
theorem not_refused_iff :
    ¬ row.Refused r ↔ ∃ rates, rowRates r row.columns row.fields = .ok rates := by
  unfold Headed.Refused
  cases hday : r.date (key row.fields) with
  | none => simp [rowRates_undated hday]
  | some day =>
    simp only [Option.isSome_some, true_and, not_or, not_exists, not_and, rowRates_dated hday,
      exists_and_left, ← Checked.mapM_ok_iff]
    refine and_congr_right fun _ => ?_
    constructor
    · intro hcells
      exact Checked.exists_mapM fun cell hcell => readable_iff.mp (hcells cell hcell)
    · rintro ⟨rates, hrates⟩ cell hcell
      obtain ⟨rate, -, hrate⟩ := Checked.exists_mem_mapM hrates hcell
      exact readable_iff.mpr ⟨rate, hrate⟩

end Rows

/-! ### The stated values and the rates of a whole text -/

section Whole
variable {r : Readers} {content : List Char}

theorem forall₂_flatten {α β γ : Type} {f : α → List β} {R : β → γ → Prop} {l : List α}
    {outs : List (List γ)} (h : List.Forall₂ (fun a out => List.Forall₂ R (f a) out) l outs) :
    List.Forall₂ R (l.flatMap f) outs.flatten := by
  induction h with
  | nil => exact .nil
  | cons hhead _ ih =>
    rw [List.flatMap_cons, List.flatten_cons]
    exact List.rel_append hhead ih

theorem length_flatten_le {α β γ : Type} {f : α → List β} {l : List α} {outs : List (List γ)}
    (h : List.Forall₂ (fun a out => out.length ≤ (f a).length) l outs) :
    outs.flatten.length ≤ (l.flatMap f).length := by
  induction h with
  | nil => exact le_rfl
  | cons hhead _ ih =>
    rw [List.flatMap_cons, List.flatten_cons, List.length_append, List.length_append]
    exact Nat.add_le_add hhead ih

/-- Parts no longer than their sources, and as long together, are as long each. -/
theorem length_eq_of_flatten {α β γ : Type} {f : α → List β} {l : List α} {outs : List (List γ)}
    (h : List.Forall₂ (fun a out => out.length ≤ (f a).length) l outs)
    (htotal : (l.flatMap f).length = outs.flatten.length) :
    List.Forall₂ (fun a out => out.length = (f a).length) l outs := by
  induction h with
  | nil => exact .nil
  | cons hhead hrest ih =>
    have hle := length_flatten_le hrest
    rw [List.flatMap_cons, List.flatten_cons, List.length_append, List.length_append] at htotal
    exact .cons (by omega) (ih (by omega))

theorem mem_headed {columns : Option Columns} {rows : List (List (List Char))} {row : Headed}
    (h : row ∈ headed r columns rows) : row.fields ∈ rows := by
  induction rows generalizing columns with
  | nil => exact absurd h List.not_mem_nil
  | cons fields rows ih =>
    rw [headed] at h
    split at h
    · exact List.mem_cons_of_mem _ (ih h)
    · rcases List.mem_cons.mp h with rfl | h
      · exact List.mem_cons_self
      · exact List.mem_cons_of_mem _ (ih h)

theorem trimmed_of_headedRows {row : Headed} (h : row ∈ headedRows r content) : row.Trimmed := by
  obtain ⟨line, -, hfields⟩ := List.mem_flatMap.mp (mem_headed h)
  unfold rowOf at hfields
  split at hfields
  · exact absurd hfields List.not_mem_nil
  · refine ⟨key (splitAll ',' (trimEnd line)), ?_⟩
    rw [List.mem_singleton.mp hfields, fieldsOf]
    cases splitAll ',' (trimEnd line) <;> rfl

theorem losesNothing_iff : LosesNothing r content ↔ DatesRead r content := by
  unfold LosesNothing DatesRead
  constructor
  · intro h
    by_contra hnot
    simp only [not_or, not_exists, not_and, Bool.not_eq_false] at hnot
    obtain ⟨htitle, hread, hdates⟩ := hnot
    obtain ⟨outs, houts⟩ : ∃ outs, List.Forall₂
        (fun row out => rowRates r row.columns row.fields = .ok out) (headedRows r content) outs := by
      obtain ⟨outs, hmap⟩ := Checked.exists_mapM fun row hrow => not_refused_iff.mp (hread row hrow)
      exact ⟨outs, Checked.mapM_ok hmap⟩
    have hlength := (h _ (parseRates_ok.mpr ⟨htitle, outs, houts, rfl⟩)).length_eq
    have hrows : List.Forall₂ (fun row out => row.Trimmed ∧
        rowRates r row.columns row.fields = .ok out) (headedRows r content) outs :=
      (List.forall₂_and_left _ _).mpr ⟨fun row hrow => trimmed_of_headedRows hrow, houts⟩
    have hlengths : List.Forall₂ (fun (row : Headed) out => out.length ≤ row.stated.length)
        (headedRows r content) outs :=
      hrows.imp fun row out hout => length_le_stated hout.1 hout.2
    have heach := length_eq_of_flatten hlengths hlength
    -- an undated row yields nothing, and so states nothing
    refine hdates fun row hrow hstated => ?_
    rw [List.forall₂_iff_get] at houts heach
    obtain ⟨i, rfl⟩ := List.mem_iff_get.mp hrow
    have hi : i < outs.length := houts.1 ▸ i.isLt
    by_contra hdate
    have hempty := houts.2 i i.isLt hi
    rw [rowRates_undated (Option.not_isSome_iff_eq_none.mp hdate)] at hempty
    have hlen := heach.2 i i.isLt hi
    rw [hempty] at hlen
    exact hstated (List.length_eq_zero_iff.mp hlen.symm)
  · intro h out hparse
    obtain ⟨htitle, outs, houts, rfl⟩ := parseRates_ok.mp hparse
    rcases h with h | ⟨row, hrow, hrefused⟩ | h
    · rw [htitle] at h
      cases h
    · obtain ⟨rates, -, hrates⟩ := Checked.exists_mem_mapM (Checked.mapM_ok_iff.mpr houts) hrow
      exact absurd hrefused (not_refused_iff.mpr ⟨rates, hrates⟩)
    · apply forall₂_flatten
      have hrows := fun row hrow => And.intro (trimmed_of_headedRows hrow) (h row hrow)
      refine ((List.forall₂_and_left _ _).mpr ⟨hrows, houts⟩).imp fun row out hrow => ?_
      obtain ⟨⟨htrimmed, hdates⟩, hread⟩ := hrow
      by_cases hstated : row.stated = []
      · have hle := length_le_stated htrimmed hread
        rw [hstated, List.length_nil, Nat.le_zero, List.length_eq_zero_iff] at hle
        rw [hstated, hle]
        exact .nil
      · exact yields_of_dated htrimmed hread (hdates hstated)

end Whole

/-! ### Documents -/

/-- A value's text, and the rate it states where it is not blank. -/
structure Cell where
  text : List Char
  rate : Option ℚ
  deriving DecidableEq

/-- A line after the title: a row about the table, or a day's values. -/
inductive Line
  | other (fields : List (List Char))
  | data (day : NaiveDate) (text : List Char) (cells : List Cell)

def Line.fields : Line → List (List Char)
  | .other fields => fields
  | .data _ text cells => text :: cells.map Cell.text

/-- The rates a line states. -/
def Line.rates (columns : Columns) : Line → List Rate
  | .other _ => []
  | .data day _ cells => (columns.zip cells).filterMap fun (currency, cell) =>
    currency.bind fun c => cell.rate.map fun q => ⟨c, monthOf day, q⟩

/-- A table as it is laid out: with or without a mark, its lines ended either
way, the last of them or not. -/
structure Document where
  marked : Bool
  crlf : Bool
  closed : Bool
  before : List (List (List Char))
  titleText : List Char
  headings : List (List Char)
  after : List Line

namespace Document

def lines (doc : Document) : List (List (List Char)) :=
  doc.before ++ (doc.titleText :: doc.headings) :: doc.after.map Line.fields

def lineEnd (doc : Document) : List Char := if doc.crlf then ['\r', '\n'] else ['\n']

def body (doc : Document) : List Char :=
  doc.lineEnd.intercalate (doc.lines.map ([','].intercalate ·)) ++
    if doc.closed then doc.lineEnd else []

def text (doc : Document) : List Char :=
  (if doc.marked then [byteOrderMark] else []) ++ doc.body

def columns (doc : Document) (r : Readers) : Columns :=
  columnsOf r ((doc.titleText :: doc.headings).map trim)

/-- The rates the table states, row by row. -/
def rates (doc : Document) (r : Readers) : List Rate :=
  doc.after.flatMap (Line.rates (doc.columns r))

end Document

/-- A row about the table: neither a title nor begun with a figure. -/
def IsOther (fields : List (List Char)) : Prop :=
  isTitle (fields.map trim) = false ∧ ledByDigit (key (fields.map trim)) = false

/-- A cell under a currency is blank, or spells its rate. -/
def Cell.Spells (r : Readers) (cell : Cell) : Prop :=
  match cell.rate with
  | none => trim cell.text = []
  | some q => trim cell.text ≠ [] ∧ r.decimal (trim cell.text) = some q ∧ 0 < q

/-- A data line spells its day, and its rates under the currencies' headings. -/
def Line.Spells (r : Readers) (columns : Columns) : Line → Prop
  | .other fields => IsOther fields
  | .data day text cells => r.date (trim text) = some day ∧
      ∀ pair ∈ columns.zip cells, pair.1 ≠ none → pair.2.Spells r

/-- A document of the table: its fields hold neither commas nor line feeds, and
a mark at its start is its own. -/
structure Document.LaysOut (r : Readers) (doc : Document) : Prop where
  nonempty : ∀ fields ∈ doc.lines, fields ≠ []
  plain : ∀ fields ∈ doc.lines, ∀ f ∈ fields, ',' ∉ f ∧ '\n' ∉ f
  unmarked : doc.marked = false → doc.body.head? ≠ some byteOrderMark
  title : isTitle ((doc.titleText :: doc.headings).map trim) = true
  before : ∀ fields ∈ doc.before, IsOther fields
  after : ∀ line ∈ doc.after, line.Spells r (doc.columns r)

section Layout
variable {r : Readers} {doc : Document}

theorem stripMark_text (h : doc.LaysOut r) : stripMark doc.text = doc.body := by
  unfold stripMark Document.text
  cases hmark : doc.marked with
  | true =>
    have hstrip := (@Backups.stripPrefix_some [byteOrderMark] _ doc.body).mpr rfl
    exact congrArg (fun o => Option.getD o _) hstrip
  | false =>
    have hnone : stripPrefix [byteOrderMark] doc.body = none := by
      apply Option.eq_none_iff_forall_ne_some.mpr
      intro rest hrest
      apply h.unmarked hmark
      rw [Backups.stripPrefix_some.mp hrest]
      rfl
    change (stripPrefix [byteOrderMark] doc.body).getD doc.body = doc.body
    rw [hnone]
    rfl

theorem lineEnd_eq (doc : Document) :
    ∃ w : List Char, w.all Text.isWhitespace = true ∧ '\n' ∉ w ∧ doc.lineEnd = w ++ ['\n'] := by
  unfold Document.lineEnd
  split
  · exact ⟨['\r'], by decide, by decide, rfl⟩
  · exact ⟨[], rfl, List.not_mem_nil, rfl⟩

theorem rowOf_append_space {w : List Char} (hw : w.all Text.isWhitespace = true) (line : List Char) :
    rowOf (line ++ w) = rowOf line := by
  unfold rowOf
  rw [Text.trimEnd_append_space hw]

/-- The rows of a text that starts with a line. -/
theorem flatMap_line {line : List Char} (hline : '\n' ∉ line) (rest : List Char) :
    (splitAll '\n' (line ++ doc.lineEnd ++ rest)).flatMap rowOf =
      rowOf line ++ (splitAll '\n' rest).flatMap rowOf := by
  obtain ⟨w, hspace, hw, hend⟩ := lineEnd_eq doc
  have htext : line ++ doc.lineEnd ++ rest = (line ++ w) ++ '\n' :: rest := by simp [hend]
  have hpiece : '\n' ∉ line ++ w := fun hmem => (List.mem_append.mp hmem).elim hline hw
  rw [htext, Text.splitAll_append_sep, Text.splitAll_of_notMem hpiece, List.flatMap_append,
    List.flatMap_singleton, rowOf_append_space hspace]

/-- The rows of lines that are joined are theirs. -/
theorem flatMap_joined {lines : List (List Char)} (h : ∀ line ∈ lines, '\n' ∉ line) :
    (splitAll '\n' (doc.lineEnd.intercalate lines ++ if doc.closed then doc.lineEnd else [])).flatMap
      rowOf = lines.flatMap rowOf := by
  induction lines with
  | nil =>
    split
    · have htext : doc.lineEnd.intercalate [] ++ doc.lineEnd = [] ++ doc.lineEnd ++ [] := by simp
      rw [htext, flatMap_line List.not_mem_nil]
      rfl
    · rfl
  | cons line lines ih =>
    have hline := h line List.mem_cons_self
    have hrest := ih fun l hl => h l (List.mem_cons_of_mem _ hl)
    cases lines with
    | nil =>
      split
      · have htext : doc.lineEnd.intercalate [line] ++ doc.lineEnd =
            line ++ doc.lineEnd ++ [] := by simp
        rw [htext, flatMap_line hline]
        rfl
      · simp [Text.splitAll_of_notMem hline]
    | cons next lines =>
      have htext : doc.lineEnd.intercalate (line :: next :: lines) =
          line ++ doc.lineEnd ++ doc.lineEnd.intercalate (next :: lines) := by
        simp [List.intercalate]
      rw [htext, List.append_assoc _ _ (ite _ _ _), flatMap_line hline, hrest]
      rfl

/-- A row's fields are read from its text, trimmed; a blank line's row may be left out. -/
theorem rowOf_fields {fields : List (List Char)} (hne : fields ≠ []) (h : ∀ f ∈ fields, ',' ∉ f) :
    rowOf ([','].intercalate fields) = [fields.map trim] ∨
      (rowOf ([','].intercalate fields) = [] ∧ key (fields.map trim) = []) := by
  have hsplit := Text.splitAll_intercalate hne h
  generalize [','].intercalate fields = line at hsplit
  obtain ⟨w, hspace, hline⟩ := Text.trimEnd_append line
  have hcomma : ',' ∉ w := fun hmem => absurd (List.all_eq_true.mp hspace _ hmem) (by decide)
  obtain ⟨ps, p, htrimmed, hwhole⟩ := Text.splitAll_append hcomma (trimEnd line)
  rw [← hline, hsplit] at hwhole
  have hfields : fieldsOf (trimEnd line) = fields.map trim := by
    unfold fieldsOf
    rw [htrimmed, hwhole]
    simp [Text.trim_append_space hspace]
  unfold rowOf
  split
  · rename_i hblank
    refine .inr ⟨rfl, ?_⟩
    rw [← hfields, hblank]
    rfl
  · exact .inl (congrArg (fun f => [f]) hfields)

theorem date_of_other {fields : List (List Char)} (h : IsOther fields) :
    r.date (key (fields.map trim)) = none := by
  by_contra hsome
  obtain ⟨day, hday⟩ := Option.ne_none_iff_exists'.mp hsome
  have hkey : key (fields.map trim) = trim (key fields) := by
    cases fields <;> rfl
  rw [hkey] at hday
  have hdigit := r.date_digit _ _ hday
  rw [← hkey, h.2] at hdigit
  cases hdigit

/-- A row about the table changes nothing. -/
theorem read_other {fields : List (List Char)} (hne : fields ≠ []) (hplain : ∀ f ∈ fields, ',' ∉ f)
    (h : IsOther fields) (feed : Feed) :
    (rowOf ([','].intercalate fields)).foldlM (readRow r) feed = .ok feed := by
  rcases rowOf_fields hne hplain with hrow | ⟨hrow, -⟩
  · rw [hrow, List.foldlM_cons, Checked.bind_ok_iff]
    refine ⟨feed, readRow_ok.mpr ?_, rfl⟩
    rw [if_neg (by rw [h.1]; decide)]
    refine ⟨[], (@rowRates_undated r ⟨_, _⟩ _ (date_of_other h)).mpr rfl, ?_⟩
    rw [List.append_nil]
  · rw [hrow]
    rfl

theorem read_others {lines : List (List (List Char))} (hne : ∀ fields ∈ lines, fields ≠ [])
    (hplain : ∀ fields ∈ lines, ∀ f ∈ fields, ',' ∉ f) (h : ∀ fields ∈ lines, IsOther fields)
    (feed : Feed) :
    ((lines.map ([','].intercalate ·)).flatMap rowOf).foldlM (readRow r) feed = .ok feed := by
  induction lines with
  | nil => rfl
  | cons fields lines ih =>
    have hhead := read_other (r := r) (hne fields List.mem_cons_self)
      (hplain fields List.mem_cons_self) (h fields List.mem_cons_self) feed
    rw [List.map_cons, List.flatMap_cons, List.foldlM_append, Checked.bind_ok_iff]
    exact ⟨feed, hhead, ih (fun f hf => hne f (List.mem_cons_of_mem _ hf))
      (fun f hf => hplain f (List.mem_cons_of_mem _ hf))
      (fun f hf => h f (List.mem_cons_of_mem _ hf))⟩

/-- The cells under the headings are read as the rates they spell. -/
theorem read_cells {columns : Columns} {cells : List Cell} (day : NaiveDate)
    (h : ∀ pair ∈ columns.zip cells, pair.1 ≠ none → pair.2.Spells r) :
    List.Forall₂ (fun cell rate => readRate r (monthOf day) cell = .ok rate)
      ((columns.zip (cells.map (trim ∘ Cell.text))).filterMap fun (currency, value) =>
        if value = [] then none else currency.map fun c => (c, value))
      ((columns.zip cells).filterMap fun (currency, cell) =>
        currency.bind fun c => cell.rate.map fun q => ⟨c, monthOf day, q⟩) := by
  induction columns generalizing cells with
  | nil => exact .nil
  | cons currency columns ih =>
    cases cells with
    | nil => exact .nil
    | cons cell cells =>
      have hcell := h (currency, cell) List.mem_cons_self
      have hrest := ih fun pair hpair => h pair (List.mem_cons_of_mem _ hpair)
      rw [List.map_cons, List.zip_cons_cons, List.zip_cons_cons, List.filterMap_cons,
        List.filterMap_cons]
      cases currency with
      | none => simpa using hrest
      | some c =>
        have hspells := hcell (by simp)
        unfold Cell.Spells at hspells
        cases hrate : cell.rate with
        | none =>
          rw [hrate] at hspells
          simpa [hspells, hrate] using hrest
        | some q =>
          rw [hrate] at hspells
          obtain ⟨hvalue, hdecimal, hpos⟩ := hspells
          have hread : readRate r (monthOf day) (c, trim cell.text) =
              .ok ⟨c, monthOf day, q⟩ :=
            readRate_ok.mpr ⟨rfl, rfl, hdecimal, hpos⟩
          have hboth := List.Forall₂.cons (R := fun cell rate =>
            readRate r (monthOf day) cell = .ok rate) hread hrest
          simpa [hvalue, hrate] using hboth

theorem not_title_of_digit {fields : List (List Char)} (h : ledByDigit (key fields) = true) :
    isTitle fields = false := by
  unfold isTitle
  cases hkey : key fields with
  | nil => rfl
  | cons c rest =>
    rw [hkey] at h
    have hdigit : c.isDigit = true := h
    have hne : c.toLower ≠ 't' := by
      rintro hlower
      have hupper : ¬ c.isUpper = true := by
        simp only [Char.isDigit, Char.isUpper, Bool.and_eq_true, decide_eq_true_eq, ge_iff_le,
          UInt32.le_iff_toNat_le, Char.reduceVal, UInt32.reduceToNat] at hdigit ⊢
        omega
      rw [Char.toLower_eq_of_not_isUpper hupper] at hlower
      subst hlower
      cases hdigit
    simp [title, hne]

/-- A line adds the rates it states. -/
theorem read_line {columns : Columns} {line : Line} (hne : line.fields ≠ [])
    (hplain : ∀ f ∈ line.fields, ',' ∉ f) (h : line.Spells r columns) (out : List Rate) :
    (rowOf ([','].intercalate line.fields)).foldlM (readRow r) ⟨some columns, out⟩ =
      .ok ⟨some columns, out ++ line.rates columns⟩ := by
  cases line with
  | other fields =>
    rw [Line.rates, List.append_nil]
    exact read_other hne hplain h _
  | data day text cells =>
    obtain ⟨hday, hcells⟩ := h
    have hdigit := r.date_digit _ _ hday
    rcases rowOf_fields hne hplain with hrow | ⟨-, hkey⟩
    · rw [hrow, List.foldlM_cons, Checked.bind_ok_iff]
      refine ⟨_, readRow_ok.mpr ?_, rfl⟩
      have htitle : isTitle ((Line.data day text cells).fields.map trim) = false :=
        not_title_of_digit hdigit
      rw [if_neg (by rw [htitle]; decide)]
      have hdated : r.date (key ((Line.data day text cells).fields.map trim)) = some day := hday
      refine ⟨_, (@rowRates_dated r ⟨some columns, _⟩ _ day hdated).mpr ⟨by simp, ?_⟩, rfl⟩
      have hread := read_cells day hcells
      simp only [Headed.cells, RateFeed.cells, Option.elim_some, List.tail_cons, List.map_map]
      exact hread
    · have htext : trim text = [] := hkey
      rw [htext] at hdigit
      cases hdigit

theorem read_lines {columns : Columns} {lines : List Line} (hne : ∀ line ∈ lines, line.fields ≠ [])
    (hplain : ∀ line ∈ lines, ∀ f ∈ line.fields, ',' ∉ f)
    (h : ∀ line ∈ lines, line.Spells r columns) (out : List Rate) :
    (((lines.map Line.fields).map ([','].intercalate ·)).flatMap rowOf).foldlM (readRow r)
      ⟨some columns, out⟩ = .ok ⟨some columns, out ++ lines.flatMap (Line.rates columns)⟩ := by
  induction lines generalizing out with
  | nil => simp; rfl
  | cons line lines ih =>
    have hhead := read_line (hne line List.mem_cons_self) (hplain line List.mem_cons_self)
      (h line List.mem_cons_self) out
    rw [List.map_cons, List.map_cons, List.flatMap_cons, List.foldlM_append, Checked.bind_ok_iff]
    refine ⟨_, hhead, ?_⟩
    rw [ih (fun l hl => hne l (List.mem_cons_of_mem _ hl))
      (fun l hl => hplain l (List.mem_cons_of_mem _ hl))
      (fun l hl => h l (List.mem_cons_of_mem _ hl)), List.flatMap_cons, List.append_assoc]

theorem notMem_intercalate {c sep : Char} (hc : c ≠ sep) {ps : List (List Char)}
    (h : ∀ p ∈ ps, c ∉ p) : c ∉ [sep].intercalate ps := by
  induction ps with
  | nil => simp
  | cons p ps ih =>
    have hp := h p List.mem_cons_self
    have hrest := ih fun q hq => h q (List.mem_cons_of_mem _ hq)
    cases ps with
    | nil => simpa using hp
    | cons q qs =>
      have htext : [sep].intercalate (p :: q :: qs) = p ++ sep :: [sep].intercalate (q :: qs) := by
        simp
      rw [htext]
      simp only [List.mem_append, List.mem_cons, not_or]
      exact ⟨hp, hc, hrest⟩

/-- A document is read as the rates it states. -/
theorem parseRates_text (h : doc.LaysOut r) : parseRates r doc.text = .ok (doc.rates r) := by
  have hne := h.nonempty
  have hcomma : ∀ fields ∈ doc.lines, ∀ f ∈ fields, ',' ∉ f :=
    fun fields hfields f hf => (h.plain fields hfields f hf).1
  have hfeed : ∀ line ∈ doc.lines.map ([','].intercalate ·), '\n' ∉ line := by
    intro line hline
    obtain ⟨fields, hfields, rfl⟩ := List.mem_map.mp hline
    exact notMem_intercalate (by decide) fun f hf => (h.plain fields hfields f hf).2
  unfold parseRates
  rw [stripMark_text h, foldlM_readLine, flatMap_lines, Document.body, flatMap_joined hfeed,
    Checked.bind_ok_iff]
  simp only [Document.lines, List.mem_append, List.mem_cons, List.mem_map] at hne hcomma
  refine ⟨⟨some (doc.columns r), doc.rates r⟩, ?_, rfl⟩
  rw [Document.lines, List.map_append, List.flatMap_append, List.foldlM_append, Checked.bind_ok_iff]
  refine ⟨_, read_others (fun f hf => hne f (.inl hf)) (fun f hf => hcomma f (.inl hf)) h.before _, ?_⟩
  rw [List.map_cons, List.flatMap_cons, List.foldlM_append, Checked.bind_ok_iff]
  refine ⟨⟨some (doc.columns r), []⟩, ?_, ?_⟩
  · rcases rowOf_fields (hne _ (.inr (.inl rfl))) (hcomma _ (.inr (.inl rfl))) with hrow | ⟨-, hkey⟩
    · rw [hrow, List.foldlM_cons, Checked.bind_ok_iff]
      refine ⟨_, readRow_ok.mpr ?_, rfl⟩
      rw [if_pos h.title]
      rfl
    · have htitle := h.title
      unfold isTitle at htitle
      rw [hkey] at htitle
      cases htitle
  · exact read_lines (fun l hl => hne _ (.inr (.inr ⟨l, hl, rfl⟩)))
      (fun l hl => hcomma _ (.inr (.inr ⟨l, hl, rfl⟩))) h.after []

end Layout

/-- A table is read as the rates it states, and a text loses none of its stated
values just where it is refused or the dates of the rows that state them are read. -/
theorem rate_feed_loses_nothing_iff (r : Readers) :
    (∀ doc : Document, doc.LaysOut r → parseRates r doc.text = .ok (doc.rates r)) ∧
      ∀ content, LosesNothing r content ↔ DatesRead r content :=
  ⟨fun _ => parseRates_text, fun _ => losesNothing_iff⟩

/-! ### A month of rates -/

def january : List Char := "29-Jan-2010".toList

def readJanuary (t : List Char) : Option NaiveDate :=
  if t = january then some (ymd 2010 1 29) else none

theorem readJanuary_digit (t : List Char) (day : NaiveDate) (h : readJanuary t = some day) :
    ledByDigit t = true := by
  unfold readJanuary at h
  split at h
  · rename_i heq
    rw [heq]
    rfl
  · cases h

/-- Readers that read one date and one rate, as the library does. -/
def januaryReaders : Readers where
  date := readJanuary
  decimal t := if t = "0.89".toList then some (89 / 100) else none
  toUppercase t := t.map Char.toUpper
  date_digit t day h := readJanuary_digit (trim t) day h

/-- A table with an index column, a row about the table and a blank cell. -/
def januaryTable : Document where
  marked := true
  crlf := true
  closed := false
  before := [["F11 EXCHANGE RATES".toList]]
  titleText := "Title".toList
  headings := ["A$1=USD".toList, "Trade-weighted Index".toList, "A$1=php".toList, "A$1=GBP".toList]
  after := [.other ["Units".toList, "USD".toList, "Index".toList], .other [[]],
    .data (ymd 2010 1 29) january
      [⟨"0.89".toList, some (89 / 100)⟩, ⟨"69.2".toList, none⟩, ⟨" ".toList, none⟩]]

theorem januaryTable_laysOut : januaryTable.LaysOut januaryReaders where
  nonempty := by decide
  plain := by decide
  unmarked := by decide
  title := by decide
  before := by
    intro fields hfields
    rw [List.mem_singleton.mp hfields]
    exact ⟨by decide, by decide⟩
  after := by
    intro line hline
    have hcolumns : januaryTable.columns januaryReaders =
        [some "USD".toList, none, some "PHP".toList, some "GBP".toList] := by decide
    simp only [januaryTable, List.mem_cons, List.not_mem_nil, or_false] at hline
    rcases hline with rfl | rfl | rfl
    · exact ⟨by decide, by decide⟩
    · exact ⟨by decide, by decide⟩
    · refine ⟨by decide, fun pair hpair _ => ?_⟩
      rw [hcolumns] at hpair
      simp only [List.zip_cons_cons, List.zip_nil_right, List.mem_cons, List.not_mem_nil,
        or_false] at hpair
      rcases hpair with rfl | rfl | rfl
      · exact ⟨by decide +kernel, by decide +kernel, by norm_num⟩
      · contradiction
      · exact (by decide : trim " ".toList = [])

theorem january_rates_read :
    parseRates januaryReaders januaryTable.text =
      .ok [⟨"USD".toList, "2010-01".toList, 89 / 100⟩] := by
  rw [(rate_feed_loses_nothing_iff januaryReaders).1 januaryTable januaryTable_laysOut]
  decide +kernel

/-- A row dated another way is taken for one about the table: its rate is lost. -/
theorem iso_dated_row_lost :
    parseRates januaryReaders "Title,A$1=USD\n2010-01-29,0.89\n".toList = .ok [] ∧
      (stated januaryReaders "Title,A$1=USD\n2010-01-29,0.89\n".toList).length = 1 ∧
      ¬ LosesNothing januaryReaders "Title,A$1=USD\n2010-01-29,0.89\n".toList := by
  have hread : parseRates januaryReaders "Title,A$1=USD\n2010-01-29,0.89\n".toList = .ok [] := by
    decide
  have hstated : (stated januaryReaders "Title,A$1=USD\n2010-01-29,0.89\n".toList).length = 1 := by
    decide
  refine ⟨hread, hstated, fun h => ?_⟩
  have hlength := (h [] hread).length_eq
  rw [hstated] at hlength
  cases hlength

end ShareTracker.RateFeed
