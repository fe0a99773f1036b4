import Mathlib

/-!
# A stock drawn down by printed figures

Each draw states a figure as its own unit prints it. The draw that states what
the stock left prints as takes all of it; any other takes the amount its figure
reads back as.
-/
namespace EmptyingWalk

variable {α β : Type*} [AddCommGroup α] [LinearOrder α] [PartialOrder β]

/-- A stated figure, with the printing it is stated in and an amount that
prints as it. -/
structure Draw (α β : Type*) [AddCommGroup α] [LinearOrder α] [PartialOrder β] where
  print : α → β
  stated : β
  read : α
  print_mono : Monotone print
  print_read : print read = stated

open Classical in
/-- What the draw takes off a stock of `left`. -/
noncomputable def Draw.units (d : Draw α β) (left : α) : α :=
  if 0 < left ∧ d.print left = d.stated then left else d.read

/-- The stock one draw leaves. -/
noncomputable def after (left : α) (d : Draw α β) : α := left - d.units left

/-- The stock the draws leave. -/
noncomputable def remaining (left : α) (ds : List (Draw α β)) : α := ds.foldl after left

/-- What each draw takes, in order. -/
noncomputable def taken (left : α) : List (Draw α β) → List α
  | [] => []
  | d :: ds => d.units left :: taken (after left d) ds

theorem Draw.units_pos {d : Draw α β} (hd : 0 < d.read) (left : α) : 0 < d.units left := by
  unfold units
  split
  · rename_i h
    exact h.1
  · exact hd

theorem Draw.units_of_prints {d : Draw α β} {left : α} (hpos : 0 < left)
    (h : d.print left = d.stated) : d.units left = left := if_pos ⟨hpos, h⟩

/-- A draw of all that is left leaves nothing. -/
theorem after_of_prints {d : Draw α β} {left : α} (hpos : 0 < left)
    (h : d.print left = d.stated) : after left d = 0 := by
  rw [after, Draw.units_of_prints hpos h, sub_self]

theorem sum_taken (left : α) (ds : List (Draw α β)) :
    (taken left ds).sum = left - remaining left ds := by
  induction ds generalizing left with
  | nil => simp [taken, remaining]
  | cons d ds ih =>
    have hrest := ih (after left d)
    have hstep : remaining left (d :: ds) = remaining (after left d) ds := rfl
    rw [taken, List.sum_cons, hrest, hstep, after]
    abel

theorem taken_append (left : α) (ds ds' : List (Draw α β)) :
    taken left (ds ++ ds') = taken left ds ++ taken (remaining left ds) ds' := by
  induction ds generalizing left with
  | nil => rfl
  | cons d ds ih => exact congrArg (d.units left :: ·) (ih (after left d))

theorem length_taken (left : α) (ds : List (Draw α β)) : (taken left ds).length = ds.length := by
  induction ds generalizing left with
  | nil => rfl
  | cons d ds ih => exact congrArg (· + 1) (ih (after left d))

section Order
variable [IsOrderedAddMonoid α]

theorem after_lt {d : Draw α β} (hd : 0 < d.read) (left : α) : after left d < left :=
  sub_lt_self left (Draw.units_pos hd left)

/-- More stock before a draw is no less after it. -/
theorem after_mono {d : Draw α β} (hd : 0 < d.read) {left left' : α} (h : left ≤ left') :
    after left d ≤ after left' d := by
  by_cases he : 0 < left ∧ d.print left = d.stated
  · have hafter : after left d = 0 := after_of_prints he.1 he.2
    by_cases he' : 0 < left' ∧ d.print left' = d.stated
    · rw [hafter, after_of_prints he'.1 he'.2]
    · -- a larger stock that does not print as stated lies past what is read
      have hread : d.read ≤ left' := by
        by_contra hlt
        have hup : d.stated ≤ d.print left' := he.2 ▸ d.print_mono h
        have hdown : d.print left' ≤ d.stated := d.print_read ▸ d.print_mono (not_le.mp hlt).le
        exact he' ⟨he.1.trans_le h, le_antisymm hdown hup⟩
      have hunits : d.units left' = d.read := if_neg he'
      rw [hafter, after, hunits]
      exact sub_nonneg.mpr hread
  · have hunits : d.units left = d.read := if_neg he
    by_cases he' : 0 < left' ∧ d.print left' = d.stated
    · have hread : left ≤ d.read := by
        by_contra hlt
        have hdown : d.print left ≤ d.stated := he'.2 ▸ d.print_mono h
        have hup : d.stated ≤ d.print left := d.print_read ▸ d.print_mono (not_le.mp hlt).le
        exact he ⟨hd.trans (not_le.mp hlt), le_antisymm hdown hup⟩
      rw [after_of_prints he'.1 he'.2, after, hunits]
      exact sub_nonpos.mpr hread
    · have hunits' : d.units left' = d.read := if_neg he'
      rw [after, after, hunits, hunits']
      exact sub_le_sub_right h d.read

theorem remaining_mono {ds : List (Draw α β)} (hds : ∀ d ∈ ds, 0 < d.read) {left left' : α}
    (h : left ≤ left') : remaining left ds ≤ remaining left' ds := by
  induction ds generalizing left left' with
  | nil => exact h
  | cons d ds ih =>
    have hd := hds d List.mem_cons_self
    exact ih (fun d' hd' => hds d' (List.mem_cons_of_mem d hd')) (after_mono hd h)

/-- Dropping draws leaves no less. -/
theorem remaining_sublist {ds' ds : List (Draw α β)} (h : ds'.Sublist ds)
    (hds : ∀ d ∈ ds, 0 < d.read) (left : α) : remaining left ds ≤ remaining left ds' := by
  induction h generalizing left with
  | slnil => exact le_rfl
  | @cons ds' ds d _ ih =>
    have hrest : ∀ d' ∈ ds, 0 < d'.read := fun d' hd' => hds d' (List.mem_cons_of_mem d hd')
    have hd := hds d List.mem_cons_self
    exact (remaining_mono hrest (after_lt hd left).le).trans (ih hrest left)
  | @cons_cons ds' ds d _ ih =>
    exact ih (fun d' hd' => hds d' (List.mem_cons_of_mem d hd')) (after left d)

end Order

/-! ### Draws in any order -/

section Own
variable [IsOrderedAddMonoid α]

/-- Each draw takes the amount its own figure reads back as. -/
def TakesOwn (left : α) : List (Draw α β) → Prop
  | [] => True
  | d :: ds => (0 < left → d.print left = d.stated → left = d.read) ∧ TakesOwn (left - d.read) ds

omit [IsOrderedAddMonoid α] in
theorem remaining_append (left : α) (ds ds' : List (Draw α β)) :
    remaining left (ds ++ ds') = remaining (remaining left ds) ds' := List.foldl_append

/-- Nothing is left to take whole. -/
theorem remaining_of_nonpos {left : α} (h : left ≤ 0) {ds : List (Draw α β)}
    (hds : ∀ d ∈ ds, 0 < d.read) :
    remaining left ds = left - (ds.map Draw.read).sum := by
  induction ds generalizing left with
  | nil => simp [remaining]
  | cons d ds ih =>
    have hd := hds d List.mem_cons_self
    have hunits : d.units left = d.read := if_neg fun hpos => absurd hpos.1 (not_lt.mpr h)
    have hafter : after left d = left - d.read := by rw [after, hunits]
    have hrest : remaining left (d :: ds) = remaining (left - d.read) ds :=
      congrArg (fun x => remaining x ds) hafter
    have hle : left - d.read ≤ 0 := (sub_le_self left hd.le).trans h
    rw [hrest, ih hle fun d' hd' => hds d' (List.mem_cons_of_mem d hd'), List.map_cons,
      List.sum_cons, sub_sub]

/-- The draws leave what their own amounts leave exactly where each takes its own. -/
theorem remaining_eq_iff {left : α} {ds : List (Draw α β)} (hds : ∀ d ∈ ds, 0 < d.read) :
    remaining left ds = left - (ds.map Draw.read).sum ↔ TakesOwn left ds := by
  induction ds generalizing left with
  | nil => simp [remaining, TakesOwn]
  | cons d ds ih =>
    have hrest : ∀ d' ∈ ds, 0 < d'.read := fun d' hd' => hds d' (List.mem_cons_of_mem d hd')
    have hstep : remaining left (d :: ds) = remaining (after left d) ds := rfl
    rw [hstep, List.map_cons, List.sum_cons, ← sub_sub]
    by_cases hempties : 0 < left ∧ d.print left = d.stated
    · rw [after_of_prints hempties.1 hempties.2, remaining_of_nonpos le_rfl hrest]
      constructor
      · intro h
        have hown : left = d.read := by
          have hnought : 0 = left - d.read := sub_left_injective h
          exact (sub_eq_zero.mp hnought.symm)
        refine ⟨fun _ _ => hown, ?_⟩
        rw [← ih hrest, hown, sub_self]
        exact remaining_of_nonpos le_rfl hrest
      · intro h
        rw [h.1 hempties.1 hempties.2, sub_self]
    · have hunits : d.units left = d.read := if_neg hempties
      rw [after, hunits, ih hrest]
      constructor
      · intro h
        exact ⟨fun hpos hprint => absurd ⟨hpos, hprint⟩ hempties, h⟩
      · intro h
        exact h.2


open Classical in
/-- A draw takes all that is left, and the draws after it read back as `rest`. -/
def EmptiedBefore (rest : α) : α → List (Draw α β) → Prop
  | _, [] => False
  | left, d :: ds =>
    if 0 < left ∧ d.print left = d.stated then (ds.map Draw.read).sum = rest
    else EmptiedBefore rest (left - d.read) ds

theorem remaining_of_emptied {rest left : α} {ds : List (Draw α β)} (hds : ∀ d ∈ ds, 0 < d.read)
    (h : EmptiedBefore rest left ds) : remaining left ds = -rest := by
  induction ds generalizing left with
  | nil => exact h.elim
  | cons d ds ih =>
    have hrest : ∀ d' ∈ ds, 0 < d'.read := fun d' hd' => hds d' (List.mem_cons_of_mem d hd')
    have hstep : remaining left (d :: ds) = remaining (after left d) ds := rfl
    rw [EmptiedBefore] at h
    rw [hstep]
    split at h
    · rename_i hempties
      rw [after_of_prints hempties.1 hempties.2, remaining_of_nonpos le_rfl hrest, h, zero_sub]
    · rename_i hreads
      have hunits : d.units left = d.read := if_neg hreads
      rw [after, hunits]
      exact ih hrest h

theorem rest_nonneg {rest left : α} {ds : List (Draw α β)} (hds : ∀ d ∈ ds, 0 < d.read)
    (h : EmptiedBefore rest left ds) : 0 ≤ rest := by
  induction ds generalizing left with
  | nil => exact h.elim
  | cons d ds ih =>
    have hrest : ∀ d' ∈ ds, 0 < d'.read := fun d' hd' => hds d' (List.mem_cons_of_mem d hd')
    rw [EmptiedBefore] at h
    split at h
    · rw [← h]
      refine List.sum_nonneg fun x hx => ?_
      obtain ⟨d', hd', rfl⟩ := List.mem_map.mp hx
      exact (hrest d' hd').le
    · exact ih hrest h

omit [IsOrderedAddMonoid α] in
theorem takesOwn_or_emptied (left : α) (ds : List (Draw α β)) :
    TakesOwn left ds ∨ ∃ rest, EmptiedBefore rest left ds := by
  induction ds generalizing left with
  | nil => exact .inl trivial
  | cons d ds ih =>
    by_cases h : 0 < left ∧ d.print left = d.stated
    · exact .inr ⟨_, by rw [EmptiedBefore, if_pos h]⟩
    · rcases ih (left - d.read) with hown | ⟨rest, hrest⟩
      · exact .inl ⟨fun hpos hprint => absurd ⟨hpos, hprint⟩ h, hown⟩
      · exact .inr ⟨rest, by rwa [EmptiedBefore, if_neg h]⟩

/-- Draws in every order leave the same exactly where all take their own amounts,
or all are emptied with the same amount to come. -/
theorem remaining_perm_iff {ι : Type*} {f : ι → Draw α β} {left : α} {l : List ι}
    (hl : ∀ i ∈ l, 0 < (f i).read) :
    (∀ order : List ι, order.Perm l → remaining left (order.map f) = remaining left (l.map f)) ↔
      (∀ order : List ι, order.Perm l → TakesOwn left (order.map f)) ∨
        ∃ rest, ∀ order : List ι, order.Perm l → EmptiedBefore rest left (order.map f) := by
  have hpos : ∀ order : List ι, order.Perm l → ∀ d ∈ order.map f, 0 < d.read := by
    intro order h d hd
    obtain ⟨i, hi, rfl⟩ := List.mem_map.mp hd
    exact hl i (h.mem_iff.mp hi)
  have hsum : ∀ order : List ι, order.Perm l →
      ((order.map f).map Draw.read).sum = ((l.map f).map Draw.read).sum :=
    fun order h => ((h.map _).map _).sum_eq
  constructor
  · intro hsame
    by_cases hown : remaining left (l.map f) = left - ((l.map f).map Draw.read).sum
    · refine .inl fun order horder => ?_
      rw [← remaining_eq_iff (hpos order horder), hsame order horder, hsum order horder, hown]
    · refine .inr ⟨-remaining left (l.map f), fun order horder => ?_⟩
      rcases takesOwn_or_emptied left (order.map f) with htakes | ⟨rest, hrest⟩
      · have hall := (remaining_eq_iff (hpos order horder)).mpr htakes
        rw [hsame order horder, hsum order horder] at hall
        exact absurd hall hown
      · have hleft := remaining_of_emptied (hpos order horder) hrest
        rw [← hsame order horder, hleft, neg_neg]
        exact hrest
  · rintro (hown | ⟨rest, hrest⟩) order horder
    · rw [(remaining_eq_iff (hpos order horder)).mpr (hown order horder),
        (remaining_eq_iff (hpos l (.refl l))).mpr (hown l (.refl l)), hsum order horder]
    · rw [remaining_of_emptied (hpos order horder) (hrest order horder),
        remaining_of_emptied (hpos l (.refl l)) (hrest l (.refl l))]

end Own

end EmptyingWalk
