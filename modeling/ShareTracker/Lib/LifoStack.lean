import Mathlib

/-!
# Last-in-first-out identification

A stack of tagged lots, drawn from the top. A draw takes lots whole until what
is left of it is less than the lot on top; what it finds no lot for it is short
of. A history of acquisitions and disposals identifies each unit disposed of
with the acquisition of the lot it came off.
-/
namespace LifoStack

variable {κ : Type*}

section Group
variable {α : Type*} [AddCommGroup α] [LinearOrder α]

/-- The units of the lots whose tag satisfies `p`. -/
def unitsWhere (p : κ → Bool) (stack : List (κ × α)) : α :=
  ((stack.filter fun lot => p lot.1).map Prod.snd).sum

def units (stack : List (κ × α)) : α := (stack.map Prod.snd).sum

structure Draw (κ α : Type*) where
  taken : List (κ × α)
  left : List (κ × α)
  short : α

def draw : List (κ × α) → α → Draw κ α
  | [], amount => ⟨[], [], amount⟩
  | (k, u) :: rest, amount =>
    if amount ≤ 0 then ⟨[], (k, u) :: rest, amount⟩
    else
      let take := min amount u
      if u - take = 0 then
        let d := draw rest (amount - take)
        ⟨(k, take) :: d.taken, d.left, d.short⟩
      else ⟨[(k, take)], (k, u - take) :: rest, amount - take⟩

/-- A lot pushed on the stack, or units drawn off it. -/
inductive Move (κ α : Type*) where
  | acquire (tag : κ) (units : α)
  | dispose (tag : κ) (units : α)

namespace Move

def units : Move κ α → α
  | .acquire _ u | .dispose _ u => u

def signed : Move κ α → α
  | .acquire _ u => u
  | .dispose _ u => -u

end Move

/-- Units disposed of, with the tags of the acquisition and of the disposal. -/
structure Disposal (κ α : Type*) where
  acquired : κ
  disposed : κ
  units : α

def step (stack : List (κ × α)) : Move κ α → List (κ × α)
  | .acquire k u => (k, u) :: stack
  | .dispose _ u => (draw stack u).left

def identified (stack : List (κ × α)) : Move κ α → List (Disposal κ α)
  | .acquire _ _ => []
  | .dispose k u => (draw stack u).taken.map fun lot => ⟨lot.1, k, lot.2⟩

/-- What a move finds no lot for. -/
def shortBy (stack : List (κ × α)) : Move κ α → α
  | .acquire _ _ => 0
  | .dispose _ u => (draw stack u).short

def stackAfter (stack : List (κ × α)) (ms : List (Move κ α)) : List (κ × α) := ms.foldl step stack

def identify (stack : List (κ × α)) : List (Move κ α) → List (Disposal κ α)
  | [] => []
  | m :: ms => identified stack m ++ identify (step stack m) ms

def shortfall (stack : List (κ × α)) : List (Move κ α) → α
  | [] => 0
  | m :: ms => shortBy stack m + shortfall (step stack m) ms

/-- What the moves leave held. -/
def balance (ms : List (Move κ α)) : α := (ms.map Move.signed).sum

omit [LinearOrder α] in
theorem unitsWhere_cons (p : κ → Bool) (k : κ) (u : α) (stack : List (κ × α)) :
    unitsWhere p ((k, u) :: stack) = (if p k then u else 0) + unitsWhere p stack := by
  unfold unitsWhere
  cases h : p k with
  | true => simp [h]
  | false => simp [h]

omit [LinearOrder α] in
theorem units_eq (stack : List (κ × α)) : units stack = unitsWhere (fun _ => true) stack := by
  unfold units unitsWhere
  rw [List.filter_eq_self.mpr fun _ _ => rfl]

theorem stackAfter_append (stack : List (κ × α)) (ms ms' : List (Move κ α)) :
    stackAfter stack (ms ++ ms') = stackAfter (stackAfter stack ms) ms' := List.foldl_append

theorem identify_append (stack : List (κ × α)) (ms ms' : List (Move κ α)) :
    identify stack (ms ++ ms') = identify stack ms ++ identify (stackAfter stack ms) ms' := by
  induction ms generalizing stack with
  | nil => rfl
  | cons m ms ih => rw [List.cons_append, identify, ih, identify, List.append_assoc]; rfl

section Ordered
variable [IsOrderedAddMonoid α]

omit [IsOrderedAddMonoid α] in
/-- A draw that covers the lot on top takes it whole and goes on below it. -/
theorem draw_whole {k : κ} {u amount : α} (rest : List (κ × α)) (ha : 0 < amount) (h : u ≤ amount) :
    draw ((k, u) :: rest) amount =
      ⟨(k, u) :: (draw rest (amount - u)).taken, (draw rest (amount - u)).left,
        (draw rest (amount - u)).short⟩ := by
  rw [draw, if_neg (not_le.mpr ha)]
  simp only [min_eq_right h]
  rw [if_pos (sub_self u)]

theorem draw_part {k : κ} {u amount : α} (rest : List (κ × α)) (ha : 0 < amount) (h : amount < u) :
    draw ((k, u) :: rest) amount = ⟨[(k, amount)], (k, u - amount) :: rest, 0⟩ := by
  rw [draw, if_neg (not_le.mpr ha)]
  simp only [min_eq_left h.le]
  rw [if_neg (sub_pos.mpr h).ne', sub_self]

/-- What a draw does to a stack of lots, none negative. -/
structure Drawn (stack : List (κ × α)) (amount : α) (d : Draw κ α) : Prop where
  conserves : ∀ p, unitsWhere p d.taken + unitsWhere p d.left = unitsWhere p stack
  accounts : units d.taken + d.short = amount
  taken_nonneg : ∀ lot ∈ d.taken, 0 ≤ lot.2
  left_nonneg : ∀ lot ∈ d.left, 0 ≤ lot.2
  short_nonneg : 0 ≤ d.short
  short_empties : d.short ≠ 0 → d.left = []

theorem draw_drawn {stack : List (κ × α)} (hs : ∀ lot ∈ stack, 0 ≤ lot.2) {amount : α}
    (ha : 0 ≤ amount) : Drawn stack amount (draw stack amount) := by
  induction stack generalizing amount with
  | nil =>
    exact {
      conserves := fun p => add_zero _
      accounts := zero_add amount
      taken_nonneg := fun _ h => absurd h List.not_mem_nil
      left_nonneg := fun _ h => absurd h List.not_mem_nil
      short_nonneg := ha
      short_empties := fun _ => rfl }
  | cons lot rest ih =>
    obtain ⟨k, u⟩ := lot
    have hu : 0 ≤ u := hs (k, u) List.mem_cons_self
    have hrest : ∀ lot ∈ rest, 0 ≤ lot.2 := fun l hl => hs l (List.mem_cons_of_mem _ hl)
    by_cases hdone : amount ≤ 0
    · rw [draw, if_pos hdone]
      have hzero : amount = 0 := le_antisymm hdone ha
      exact {
        conserves := fun p => zero_add _
        accounts := zero_add amount
        taken_nonneg := fun _ h => absurd h List.not_mem_nil
        left_nonneg := hs
        short_nonneg := ha
        short_empties := fun h => absurd hzero h }
    · by_cases hle : u ≤ amount
      · have hrec := ih hrest (sub_nonneg.mpr hle)
        rw [draw_whole rest (not_le.mp hdone) hle]
        exact {
          conserves := fun p => by
            rw [unitsWhere_cons, unitsWhere_cons, add_assoc, hrec.conserves]
          accounts := by
            have h := hrec.accounts
            rw [units, List.map_cons, List.sum_cons, add_assoc]
            rw [units] at h
            rw [h]
            exact add_sub_cancel u amount
          taken_nonneg := fun l hl => by
            rcases List.mem_cons.mp hl with rfl | hl
            · exact hu
            · exact hrec.taken_nonneg l hl
          left_nonneg := hrec.left_nonneg
          short_nonneg := hrec.short_nonneg
          short_empties := hrec.short_empties }
      · rw [draw_part rest (not_le.mp hdone) (not_le.mp hle)]
        exact {
          conserves := fun p => by
            rw [unitsWhere_cons, unitsWhere_cons, unitsWhere_cons]
            cases p k with
            | true =>
              simp only [if_true, unitsWhere, List.filter_nil, List.map_nil, List.sum_nil]
              abel
            | false => simp [unitsWhere]
          accounts := by simp [units]
          taken_nonneg := fun l hl => by
            rw [List.mem_singleton.mp hl]
            exact ha
          left_nonneg := fun l hl => by
            rcases List.mem_cons.mp hl with rfl | hl
            · exact (sub_pos.mpr (not_le.mp hle)).le
            · exact hrest l hl
          short_nonneg := le_rfl
          short_empties := fun h => absurd rfl h }

/-! ### Tags -/

/-- The stack with each lot's tag read through `f`. -/
def retag {κ' : Type*} (f : κ → κ') (stack : List (κ × α)) : List (κ' × α) :=
  stack.map fun lot => (f lot.1, lot.2)

omit [LinearOrder α] [IsOrderedAddMonoid α] in
theorem unitsWhere_retag {κ' : Type*} (f : κ → κ') (p : κ' → Bool) (stack : List (κ × α)) :
    unitsWhere p (retag f stack) = unitsWhere (fun k => p (f k)) stack := by
  unfold unitsWhere retag
  rw [List.filter_map, List.map_map]
  rfl

/-- A narrower predicate takes in no more units. -/
theorem unitsWhere_mono {p q : κ → Bool} {stack : List (κ × α)} (hs : ∀ lot ∈ stack, 0 ≤ lot.2)
    (h : ∀ k, p k = true → q k = true) : unitsWhere p stack ≤ unitsWhere q stack := by
  induction stack with
  | nil => exact le_rfl
  | cons lot stack ih =>
    obtain ⟨k, u⟩ := lot
    have hu : 0 ≤ u := hs (k, u) List.mem_cons_self
    have hrest := ih fun l hl => hs l (List.mem_cons_of_mem _ hl)
    rw [unitsWhere_cons, unitsWhere_cons]
    refine add_le_add ?_ hrest
    cases hp : p k with
    | true => rw [h k hp]
    | false =>
      rw [if_neg Bool.false_ne_true]
      split
      · exact hu
      · exact le_rfl

omit [LinearOrder α] [IsOrderedAddMonoid α] in
theorem unitsWhere_congr {p q : κ → Bool} {stack : List (κ × α)}
    (h : ∀ lot ∈ stack, p lot.1 = q lot.1) : unitsWhere p stack = unitsWhere q stack := by
  unfold unitsWhere
  rw [List.filter_congr h]

omit [IsOrderedAddMonoid α] in
/-- A draw looks at no tag. -/
theorem draw_retag {κ' : Type*} (f : κ → κ') (stack : List (κ × α)) (amount : α) :
    draw (retag f stack) amount =
      ⟨retag f (draw stack amount).taken, retag f (draw stack amount).left,
        (draw stack amount).short⟩ := by
  induction stack generalizing amount with
  | nil => rfl
  | cons lot rest ih =>
    obtain ⟨k, u⟩ := lot
    change draw ((f k, u) :: retag f rest) amount = _
    rw [draw, draw]
    split
    · rfl
    · simp only
      split
      · rw [ih]
        rfl
      · rfl

omit [IsOrderedAddMonoid α] in
theorem draw_tags {stack : List (κ × α)} {amount : α} {lot : κ × α}
    (h : lot ∈ (draw stack amount).taken ∨ lot ∈ (draw stack amount).left) :
    ∃ lot' ∈ stack, lot'.1 = lot.1 := by
  induction stack generalizing amount with
  | nil => exact h.elim (fun h => absurd h List.not_mem_nil) fun h => absurd h List.not_mem_nil
  | cons top rest ih =>
    obtain ⟨k, u⟩ := top
    rw [draw] at h
    split at h
    · exact h.elim (fun h => absurd h List.not_mem_nil) fun h => ⟨lot, h, rfl⟩
    · simp only at h
      split at h
      · rcases h with h | h
        · rcases List.mem_cons.mp h with rfl | h
          · exact ⟨(k, u), List.mem_cons_self, rfl⟩
          · obtain ⟨lot', hmem, htag⟩ := ih (.inl h)
            exact ⟨lot', List.mem_cons_of_mem _ hmem, htag⟩
        · obtain ⟨lot', hmem, htag⟩ := ih (.inr h)
          exact ⟨lot', List.mem_cons_of_mem _ hmem, htag⟩
      · rcases h with h | h
        · rw [List.mem_singleton.mp h]
          exact ⟨(k, u), List.mem_cons_self, rfl⟩
        · rcases List.mem_cons.mp h with rfl | h
          · exact ⟨(k, u), List.mem_cons_self, rfl⟩
          · exact ⟨lot, List.mem_cons_of_mem _ h, rfl⟩

omit [IsOrderedAddMonoid α] in
/-- The tags on the stack are those of lots acquired. -/
theorem stackAfter_tags {stack : List (κ × α)} {ms : List (Move κ α)} {lot : κ × α}
    (h : lot ∈ stackAfter stack ms) :
    (∃ lot' ∈ stack, lot'.1 = lot.1) ∨ ∃ u, Move.acquire lot.1 u ∈ ms := by
  induction ms generalizing stack with
  | nil => exact .inl ⟨lot, h, rfl⟩
  | cons m ms ih =>
    rcases ih h with ⟨lot', hmem, htag⟩ | ⟨u, hu⟩
    · cases m with
      | acquire k u =>
        rcases List.mem_cons.mp hmem with rfl | hmem
        · exact .inr ⟨u, htag ▸ List.mem_cons_self⟩
        · exact .inl ⟨lot', hmem, htag⟩
      | dispose k u =>
        obtain ⟨lot'', hmem', htag'⟩ := draw_tags (.inr hmem)
        exact .inl ⟨lot'', hmem', htag'.trans htag⟩
    · exact .inr ⟨u, List.mem_cons_of_mem _ hu⟩

omit [IsOrderedAddMonoid α] in
/-- Every disposal identified is a move's. -/
theorem identify_disposed {stack : List (κ × α)} {ms : List (Move κ α)} {d : Disposal κ α}
    (h : d ∈ identify stack ms) : ∃ u, Move.dispose d.disposed u ∈ ms := by
  induction ms generalizing stack with
  | nil => exact absurd h List.not_mem_nil
  | cons m ms ih =>
    rcases List.mem_append.mp h with h | h
    · cases m with
      | acquire k u => exact absurd h List.not_mem_nil
      | dispose k u =>
        obtain ⟨lot, _, rfl⟩ := List.mem_map.mp h
        exact ⟨u, List.mem_cons_self⟩
    · obtain ⟨u, hu⟩ := ih h
      exact ⟨u, List.mem_cons_of_mem _ hu⟩

/-! ### Histories -/

theorem unitsWhere_nonneg {stack : List (κ × α)} (hs : ∀ lot ∈ stack, 0 ≤ lot.2) (p : κ → Bool) :
    0 ≤ unitsWhere p stack := by
  refine List.sum_nonneg fun u hu => ?_
  obtain ⟨lot, hlot, rfl⟩ := List.mem_map.mp hu
  exact hs lot (List.mem_filter.mp hlot).1

theorem units_nonneg {stack : List (κ × α)} (hs : ∀ lot ∈ stack, 0 ≤ lot.2) : 0 ≤ units stack := by
  rw [units_eq]
  exact unitsWhere_nonneg hs _

section History
variable {stack : List (κ × α)}

theorem step_nonneg (hs : ∀ lot ∈ stack, 0 ≤ lot.2) {m : Move κ α} (hm : 0 ≤ m.units) :
    ∀ lot ∈ step stack m, 0 ≤ lot.2 := by
  cases m with
  | acquire k u =>
    intro lot hlot
    rcases List.mem_cons.mp hlot with rfl | hlot
    · exact hm
    · exact hs lot hlot
  | dispose k u => exact (draw_drawn hs hm).left_nonneg

theorem shortBy_nonneg (hs : ∀ lot ∈ stack, 0 ≤ lot.2) {m : Move κ α} (hm : 0 ≤ m.units) :
    0 ≤ shortBy stack m := by
  cases m with
  | acquire k u => exact le_rfl
  | dispose k u => exact (draw_drawn hs hm).short_nonneg

/-- One move changes the units held by its own, and by what it finds no lot for. -/
theorem units_step (hs : ∀ lot ∈ stack, 0 ≤ lot.2) {m : Move κ α} (hm : 0 ≤ m.units) :
    units (step stack m) = units stack + m.signed + shortBy stack m := by
  cases m with
  | acquire k u =>
    rw [step, units, List.map_cons, List.sum_cons, shortBy, add_zero, add_comm]
    rfl
  | dispose k u =>
    have hd := draw_drawn hs hm
    have hconserve := hd.conserves fun _ => true
    rw [← units_eq, ← units_eq, ← units_eq] at hconserve
    have hall : units (draw stack u).taken + (draw stack u).short = u := hd.accounts
    have hheld : units (draw stack u).taken + units (draw stack u).left = units stack := hconserve
    have hneg : -u = -(units (draw stack u).taken + (draw stack u).short) := by rw [hall]
    change units (draw stack u).left = units stack + -u + (draw stack u).short
    rw [← hheld, hneg]
    abel

/-- A move is short of units exactly where it would leave the balance negative. -/
theorem shortBy_eq_zero_iff (hs : ∀ lot ∈ stack, 0 ≤ lot.2) {m : Move κ α} (hm : 0 ≤ m.units) :
    shortBy stack m = 0 ↔ 0 ≤ units stack + m.signed := by
  have hstep := units_step hs hm
  have hafter := units_nonneg (step_nonneg hs hm)
  constructor
  · intro hzero
    rw [hzero, add_zero] at hstep
    exact hstep ▸ hafter
  · intro hbalance
    cases m with
    | acquire k u => rfl
    | dispose k u =>
      by_contra hshort
      have hempty : (draw stack u).left = [] := (draw_drawn hs hm).short_empties hshort
      have hpos : 0 < shortBy stack (.dispose k u) :=
        lt_of_le_of_ne (shortBy_nonneg hs hm) (Ne.symm hshort)
      have hzero : units (step stack (.dispose k u)) = 0 := by
        rw [step, hempty]
        rfl
      rw [hzero] at hstep
      exact absurd hstep.symm (add_pos_of_nonneg_of_pos hbalance hpos).ne'

theorem stackAfter_nonneg (hs : ∀ lot ∈ stack, 0 ≤ lot.2) {ms : List (Move κ α)}
    (hms : ∀ m ∈ ms, 0 ≤ m.units) : ∀ lot ∈ stackAfter stack ms, 0 ≤ lot.2 := by
  induction ms generalizing stack with
  | nil => exact hs
  | cons m ms ih =>
    have hm := hms m List.mem_cons_self
    exact ih (step_nonneg hs hm) fun m' hm' => hms m' (List.mem_cons_of_mem m hm')

theorem shortfall_nonneg (hs : ∀ lot ∈ stack, 0 ≤ lot.2) {ms : List (Move κ α)}
    (hms : ∀ m ∈ ms, 0 ≤ m.units) : 0 ≤ shortfall stack ms := by
  induction ms generalizing stack with
  | nil => exact le_rfl
  | cons m ms ih =>
    have hm := hms m List.mem_cons_self
    have hrest := ih (step_nonneg hs hm) fun m' hm' => hms m' (List.mem_cons_of_mem m hm')
    exact add_nonneg (shortBy_nonneg hs hm) hrest

theorem units_stackAfter (hs : ∀ lot ∈ stack, 0 ≤ lot.2) {ms : List (Move κ α)}
    (hms : ∀ m ∈ ms, 0 ≤ m.units) :
    units (stackAfter stack ms) = units stack + balance ms + shortfall stack ms := by
  induction ms generalizing stack with
  | nil =>
    change units stack = units stack + 0 + 0
    rw [add_zero, add_zero]
  | cons m ms ih =>
    have hm := hms m List.mem_cons_self
    have hrest := ih (step_nonneg hs hm) fun m' hm' => hms m' (List.mem_cons_of_mem m hm')
    have hstep := units_step hs hm
    change units (stackAfter (step stack m) ms) =
      units stack + (m.signed + balance ms) + (shortBy stack m + shortfall (step stack m) ms)
    rw [hrest, hstep]
    abel

/-- Nothing is short exactly where no disposal outruns the balance before it. -/
theorem shortfall_eq_zero_iff (hs : ∀ lot ∈ stack, 0 ≤ lot.2) {ms : List (Move κ α)}
    (hms : ∀ m ∈ ms, 0 ≤ m.units) :
    shortfall stack ms = 0 ↔ ∀ pre, pre <+: ms → 0 ≤ units stack + balance pre := by
  induction ms generalizing stack with
  | nil =>
    refine ⟨fun _ pre hpre => ?_, fun _ => rfl⟩
    rw [List.prefix_nil.mp hpre]
    change 0 ≤ units stack + 0
    rw [add_zero]
    exact units_nonneg hs
  | cons m ms ih =>
    have hm := hms m List.mem_cons_self
    have hms' : ∀ m' ∈ ms, 0 ≤ m'.units := fun m' hm' => hms m' (List.mem_cons_of_mem m hm')
    have hafter := step_nonneg hs hm
    have hsplit : shortfall stack (m :: ms) = 0 ↔
        shortBy stack m = 0 ∧ shortfall (step stack m) ms = 0 :=
      add_eq_zero_iff_of_nonneg (shortBy_nonneg hs hm) (shortfall_nonneg hafter hms')
    rw [hsplit, ih hafter hms']
    constructor
    · rintro ⟨hshort, hrest⟩ pre hpre
      rcases List.prefix_cons_iff.mp hpre with rfl | ⟨rest, rfl, hrestpre⟩
      · change 0 ≤ units stack + 0
        rw [add_zero]
        exact units_nonneg hs
      · have hle := hrest rest hrestpre
        rw [units_step hs hm, hshort, add_zero, add_assoc] at hle
        exact hle
    · intro h
      have hone : 0 ≤ units stack + m.signed := by
        have hle := h [m] (List.prefix_cons_iff.mpr (.inr ⟨[], rfl, List.nil_prefix⟩))
        simpa [balance] using hle
      have hshort := (shortBy_eq_zero_iff hs hm).mpr hone
      refine ⟨hshort, fun pre hpre => ?_⟩
      have hle := h (m :: pre) (List.prefix_cons_iff.mpr (.inr ⟨pre, rfl, hpre⟩))
      rw [units_step hs hm, hshort, add_zero, add_assoc]
      exact hle

/-- The units a disposal takes off lots tagged `p` leave the stack. -/
theorem unitsWhere_identify (hs : ∀ lot ∈ stack, 0 ≤ lot.2) {p : κ → Bool}
    {ms : List (Move κ α)} (hms : ∀ m ∈ ms, 0 ≤ m.units)
    (hnew : ∀ k u, Move.acquire k u ∈ ms → p k = false) :
    (((identify stack ms).filter fun d => p d.acquired).map Disposal.units).sum +
      unitsWhere p (stackAfter stack ms) = unitsWhere p stack := by
  induction ms generalizing stack with
  | nil => exact zero_add _
  | cons m ms ih =>
    have hm := hms m List.mem_cons_self
    have hrest := ih (step_nonneg hs hm) (fun m' hm' => hms m' (List.mem_cons_of_mem m hm'))
      fun k u hku => hnew k u (List.mem_cons_of_mem m hku)
    have hone : (((identified stack m).filter fun d => p d.acquired).map Disposal.units).sum +
        unitsWhere p (step stack m) = unitsWhere p stack := by
      cases m with
      | acquire k u =>
        rw [step, unitsWhere_cons, hnew k u List.mem_cons_self, identified]
        simp
      | dispose k u =>
        have hconserve := (draw_drawn hs hm).conserves p
        rw [step, identified, List.filter_map, List.map_map]
        exact hconserve
    change (((identified stack m ++ identify (step stack m) ms).filter _).map _).sum +
      unitsWhere p (stackAfter (step stack m) ms) = _
    rw [List.filter_append, List.map_append, List.sum_append, add_assoc, hrest, hone]

theorem identify_nonneg (hs : ∀ lot ∈ stack, 0 ≤ lot.2) {ms : List (Move κ α)}
    (hms : ∀ m ∈ ms, 0 ≤ m.units) : ∀ d ∈ identify stack ms, 0 ≤ d.units := by
  induction ms generalizing stack with
  | nil => exact fun _ h => absurd h List.not_mem_nil
  | cons m ms ih =>
    have hm := hms m List.mem_cons_self
    intro d hd
    rcases List.mem_append.mp hd with hd | hd
    · cases m with
      | acquire k u => exact absurd hd List.not_mem_nil
      | dispose k u =>
        obtain ⟨lot, hlot, rfl⟩ := List.mem_map.mp hd
        exact (draw_drawn hs hm).taken_nonneg lot hlot
    · exact ih (step_nonneg hs hm) (fun m' hm' => hms m' (List.mem_cons_of_mem m hm')) d hd

end History

end Ordered

end Group

/-! ### Restating every lot in another unit -/

section Scale
variable {α : Type*} [Field α] [LinearOrder α] [IsStrictOrderedRing α]

def scale (c : α) (stack : List (κ × α)) : List (κ × α) := stack.map fun lot => (lot.1, c * lot.2)

def Move.scale (c : α) : Move κ α → Move κ α
  | .acquire k u => .acquire k (c * u)
  | .dispose k u => .dispose k (c * u)

def Disposal.scale (c : α) (d : Disposal κ α) : Disposal κ α := ⟨d.acquired, d.disposed, c * d.units⟩

variable {c : α} {stack : List (κ × α)}

theorem draw_scale (hc : 0 < c) (hs : ∀ lot ∈ stack, 0 ≤ lot.2) {amount : α} (ha : 0 ≤ amount) :
    draw (scale c stack) (c * amount) =
      ⟨scale c (draw stack amount).taken, scale c (draw stack amount).left,
        c * (draw stack amount).short⟩ := by
  induction stack generalizing amount with
  | nil => rfl
  | cons lot rest ih =>
    obtain ⟨k, u⟩ := lot
    have hu : 0 ≤ u := hs (k, u) List.mem_cons_self
    have hrest : ∀ lot ∈ rest, 0 ≤ lot.2 := fun l hl => hs l (List.mem_cons_of_mem _ hl)
    change draw ((k, c * u) :: scale c rest) (c * amount) = _
    by_cases hdone : amount ≤ 0
    · have hzero : c * amount ≤ 0 := mul_nonpos_of_nonneg_of_nonpos hc.le hdone
      rw [draw, if_pos hzero, draw, if_pos hdone]
      rfl
    · by_cases hle : u ≤ amount
      · have hcle : c * u ≤ c * amount := mul_le_mul_of_nonneg_left hle hc.le
        rw [draw_whole _ (mul_pos hc (not_le.mp hdone)) hcle, draw_whole _ (not_le.mp hdone) hle, ← mul_sub,
          ih hrest (sub_nonneg.mpr hle)]
        rfl
      · have hclt : c * amount < c * u := mul_lt_mul_of_pos_left (not_le.mp hle) hc
        rw [draw_part _ (mul_pos hc (not_le.mp hdone)) hclt,
          draw_part _ (not_le.mp hdone) (not_le.mp hle), mul_zero, ← mul_sub]
        rfl

theorem step_scale (hc : 0 < c) (hs : ∀ lot ∈ stack, 0 ≤ lot.2) {m : Move κ α} (hm : 0 ≤ m.units) :
    step (scale c stack) (m.scale c) = scale c (step stack m) := by
  cases m with
  | acquire k u => rfl
  | dispose k u =>
    change (draw (scale c stack) (c * u)).left = _
    rw [draw_scale hc hs (show 0 ≤ u from hm)]
    rfl

theorem identified_scale (hc : 0 < c) (hs : ∀ lot ∈ stack, 0 ≤ lot.2) {m : Move κ α}
    (hm : 0 ≤ m.units) :
    identified (scale c stack) (m.scale c) = (identified stack m).map (Disposal.scale c) := by
  cases m with
  | acquire k u => rfl
  | dispose k u =>
    change ((draw (scale c stack) (c * u)).taken.map _) = _
    rw [draw_scale hc hs (show 0 ≤ u from hm), identified, List.map_map, scale, List.map_map]
    rfl

theorem stackAfter_scale (hc : 0 < c) (hs : ∀ lot ∈ stack, 0 ≤ lot.2) {ms : List (Move κ α)}
    (hms : ∀ m ∈ ms, 0 ≤ m.units) :
    stackAfter (scale c stack) (ms.map (Move.scale c)) = scale c (stackAfter stack ms) := by
  induction ms generalizing stack with
  | nil => rfl
  | cons m ms ih =>
    have hm := hms m List.mem_cons_self
    change stackAfter (step (scale c stack) (m.scale c)) (ms.map (Move.scale c)) = _
    rw [step_scale hc hs hm]
    exact ih (step_nonneg hs hm) fun m' hm' => hms m' (List.mem_cons_of_mem m hm')

theorem identify_scale (hc : 0 < c) (hs : ∀ lot ∈ stack, 0 ≤ lot.2) {ms : List (Move κ α)}
    (hms : ∀ m ∈ ms, 0 ≤ m.units) :
    identify (scale c stack) (ms.map (Move.scale c)) = (identify stack ms).map (Disposal.scale c) := by
  induction ms generalizing stack with
  | nil => rfl
  | cons m ms ih =>
    have hm := hms m List.mem_cons_self
    rw [List.map_cons, identify, identify, identified_scale hc hs hm, step_scale hc hs hm,
      ih (step_nonneg hs hm) fun m' hm' => hms m' (List.mem_cons_of_mem m hm'), List.map_append]

omit [LinearOrder α] [IsStrictOrderedRing α] in
theorem units_scale (stack : List (κ × α)) : units (scale c stack) = c * units stack := by
  rw [units, units, scale, List.map_map, ← List.sum_map_mul_left]
  rfl

end Scale

end LifoStack
