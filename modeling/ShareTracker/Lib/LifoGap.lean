import ShareTracker.Lib.LifoStack

/-!
# Two stacks a bounded gap apart

A stack and the same stack with some of its newest units taken off, put through
the same acquisitions and disposals. At every level, counted from the top, the
second stays below the first by at most the units taken.
-/
namespace LifoStack

variable {κ α ι : Type*} [AddCommGroup α] [LinearOrder α] [IsOrderedAddMonoid α]

/-- The lots that satisfy `p` lie above those that do not. -/
def Above (p : κ → Bool) (stack : List (κ × α)) : Prop :=
  (stack.map Prod.fst).Pairwise fun upper lower => p lower = true → p upper = true

omit [IsOrderedAddMonoid α] in
/-- What a draw leaves is the bottom of the stack. -/
theorem left_suffix (stack : List (κ × α)) (amount : α) :
    ((draw stack amount).left.map Prod.fst) <:+ stack.map Prod.fst := by
  induction stack generalizing amount with
  | nil => exact List.suffix_rfl
  | cons lot rest ih =>
    obtain ⟨k, u⟩ := lot
    rw [draw]
    split
    · exact List.suffix_rfl
    · simp only
      split
      · exact (ih _).trans (List.suffix_cons k _)
      · exact List.suffix_rfl

omit [IsOrderedAddMonoid α] in
theorem Above.left {p : κ → Bool} {stack : List (κ × α)} (h : Above p stack) (amount : α) :
    Above p (draw stack amount).left :=
  List.Pairwise.sublist (left_suffix stack amount).sublist h

omit [LinearOrder α] [IsOrderedAddMonoid α] in
theorem unitsWhere_eq_zero {p : κ → Bool} {stack : List (κ × α)}
    (h : ∀ lot ∈ stack, p lot.1 = false) : unitsWhere p stack = 0 := by
  rw [unitsWhere, List.filter_eq_nil_iff.mpr]
  · rfl
  · intro lot hlot
    rw [h lot hlot]
    exact Bool.false_ne_true

/-- A draw takes the whole of a level, or all that is drawn of it. -/
theorem unitsWhere_taken {p : κ → Bool} {stack : List (κ × α)} (hs : ∀ lot ∈ stack, 0 ≤ lot.2)
    (habove : Above p stack) {amount : α} (ha : 0 ≤ amount) :
    unitsWhere p (draw stack amount).taken = min (unitsWhere p stack) amount := by
  induction stack generalizing amount with
  | nil => exact (min_eq_left ha).symm
  | cons lot rest ih =>
    obtain ⟨k, u⟩ := lot
    have hu : 0 ≤ u := hs (k, u) List.mem_cons_self
    have hrest : ∀ lot ∈ rest, 0 ≤ lot.2 := fun l hl => hs l (List.mem_cons_of_mem _ hl)
    obtain ⟨hhead, htail⟩ := List.pairwise_cons.mp habove
    have hnonneg := unitsWhere_nonneg hrest p
    have hbelow : p k = false → unitsWhere p rest = 0 := by
      intro hk
      apply unitsWhere_eq_zero
      intro l hl
      by_contra hp
      have htop := hhead l.1 (List.mem_map_of_mem hl) (Bool.eq_true_of_not_eq_false hp)
      rw [hk] at htop
      cases htop
    rw [unitsWhere_cons]
    by_cases hdone : amount ≤ 0
    · have hzero : amount = 0 := le_antisymm hdone ha
      rw [draw, if_pos hdone, hzero, min_eq_right]
      · rfl
      · apply add_nonneg _ hnonneg
        split
        · exact hu
        · exact le_rfl
    · by_cases hle : u ≤ amount
      · rw [draw_whole rest (not_le.mp hdone) hle, unitsWhere_cons, ih hrest htail (sub_nonneg.mpr hle)]
        cases hk : p k with
        | true => rw [if_pos rfl, ← min_add_add_left, add_sub_cancel]
        | false =>
          rw [if_neg Bool.false_ne_true, zero_add, zero_add, hbelow hk,
            min_eq_left (sub_nonneg.mpr hle), min_eq_left ha]
      · have hlt := not_le.mp hle
        rw [draw_part rest (not_le.mp hdone) hlt, unitsWhere_cons]
        cases hk : p k with
        | true =>
          rw [if_pos rfl, if_pos rfl, min_eq_right]
          · exact add_zero amount
          · exact hlt.le.trans (le_add_of_nonneg_right hnonneg)
        | false =>
          rw [if_neg Bool.false_ne_true, if_neg Bool.false_ne_true, hbelow hk, zero_add,
            zero_add, min_eq_left ha]
          rfl

theorem unitsWhere_left {p : κ → Bool} {stack : List (κ × α)} (hs : ∀ lot ∈ stack, 0 ≤ lot.2)
    (habove : Above p stack) {amount : α} (ha : 0 ≤ amount) :
    unitsWhere p (draw stack amount).left = unitsWhere p stack - min (unitsWhere p stack) amount := by
  rw [← unitsWhere_taken hs habove ha]
  exact eq_sub_of_add_eq' ((draw_drawn hs ha).conserves p)

/-! ### Levels -/

variable (level : ι → κ → Bool)

/-- How far the second stack lies below the first at a level. -/
def gap (s t : List (κ × α)) (n : ι) : α := unitsWhere (level n) s - unitsWhere (level n) t

/-- A stack of lots, none negative, the newer levels on top. -/
structure Layered (s : List (κ × α)) : Prop where
  nonneg : ∀ lot ∈ s, 0 ≤ lot.2
  above : ∀ n, Above (level n) s

variable {level}

omit [IsOrderedAddMonoid α] in
theorem Layered.acquire {s : List (κ × α)} (h : Layered level s) {k : κ} {u : α} (hu : 0 ≤ u)
    (hnew : ∀ n, ∀ lot ∈ s, level n lot.1 = true → level n k = true) :
    Layered level ((k, u) :: s) where
  nonneg := by
    intro lot hlot
    rcases List.mem_cons.mp hlot with rfl | hlot
    · exact hu
    · exact h.nonneg lot hlot
  above := by
    intro n
    refine List.pairwise_cons.mpr ⟨?_, h.above n⟩
    intro lower hlower
    obtain ⟨lot, hlot, rfl⟩ := List.mem_map.mp hlower
    exact hnew n lot hlot

theorem Layered.left {s : List (κ × α)} (h : Layered level s) {amount : α} (ha : 0 ≤ amount) :
    Layered level (draw s amount).left where
  nonneg := (draw_drawn h.nonneg ha).left_nonneg
  above := fun n => (h.above n).left amount

variable [Preorder ι] (level)

/-- The second stack has at most `a` units fewer than the first at every level,
and at a deeper level no fewer missing. -/
structure Apart (a : α) (s t : List (κ × α)) : Prop where
  first : Layered level s
  second : Layered level t
  nonneg : ∀ n, 0 ≤ gap level s t n
  le : ∀ n, gap level s t n ≤ a
  anti : ∀ n m, n ≤ m → gap level s t m ≤ gap level s t n

variable {level}

theorem apart_left {s : List (κ × α)} (h : Layered level s)
    (hlevel : ∀ n m, n ≤ m → ∀ k, level m k = true → level n k = true) {a : α} (ha : 0 ≤ a) :
    Apart level a s (draw s a).left := by
  have hgap : ∀ n, gap level s (draw s a).left n = min (unitsWhere (level n) s) a := by
    intro n
    rw [gap, unitsWhere_left h.nonneg (h.above n) ha, sub_sub_cancel]
  refine ⟨h, h.left ha, fun n => ?_, fun n => ?_, fun n m hnm => ?_⟩
  · rw [hgap]
    exact le_min (unitsWhere_nonneg h.nonneg _) ha
  · rw [hgap]
    exact min_le_right _ _
  · rw [hgap, hgap]
    exact min_le_min_right a (unitsWhere_mono h.nonneg (hlevel n m hnm))

omit [IsOrderedAddMonoid α] in
theorem Apart.acquire {a : α} {s t : List (κ × α)} (h : Apart level a s t) {k : κ} {u : α}
    (hu : 0 ≤ u) (hs : ∀ n, ∀ lot ∈ s, level n lot.1 = true → level n k = true)
    (ht : ∀ n, ∀ lot ∈ t, level n lot.1 = true → level n k = true) :
    Apart level a ((k, u) :: s) ((k, u) :: t) ∧
      ∀ n, gap level ((k, u) :: s) ((k, u) :: t) n = gap level s t n := by
  have hgap : ∀ n, gap level ((k, u) :: s) ((k, u) :: t) n = gap level s t n := by
    intro n
    rw [gap, unitsWhere_cons, unitsWhere_cons, add_sub_add_left_eq_sub]
    rfl
  refine ⟨⟨h.first.acquire hu hs, h.second.acquire hu ht, ?_, ?_, ?_⟩, hgap⟩
  · exact fun n => hgap n ▸ h.nonneg n
  · exact fun n => hgap n ▸ h.le n
  · intro n m hnm
    rw [hgap, hgap]
    exact h.anti n m hnm

/-- What is left of two amounts a gap apart, each drawn on alike, is no further apart. -/
theorem sub_min_sub_le {x y q : α} (h : y ≤ x) :
    0 ≤ (x - min x q) - (y - min y q) ∧ (x - min x q) - (y - min y q) ≤ x - y := by
  rcases le_total x q with hx | hx
  · rw [min_eq_left hx, min_eq_left (h.trans hx), sub_self, sub_self, sub_self]
    exact ⟨le_rfl, sub_nonneg.mpr h⟩
  · rw [min_eq_right hx]
    rcases le_total y q with hy | hy
    · rw [min_eq_left hy, sub_self, sub_zero]
      exact ⟨sub_nonneg.mpr hx, sub_le_sub_left hy x⟩
    · rw [min_eq_right hy, sub_sub_sub_cancel_right]
      exact ⟨sub_nonneg.mpr h, le_rfl⟩

/-- A gap that lies deeper loses no more to the same draw. -/
theorem sub_min_anti {x y x' y' q : α} (hx : x' ≤ x) (hy : y' ≤ y) (h : y ≤ x) (h' : y' ≤ x')
    (hgap : x' - y' ≤ x - y) :
    (x' - min x' q) - (y' - min y' q) ≤ (x - min x q) - (y - min y q) := by
  rcases le_total x' q with hx' | hx'
  · rw [min_eq_left hx', min_eq_left (h'.trans hx'), sub_self, sub_self, sub_self]
    exact (sub_min_sub_le h).1
  rw [min_eq_right hx', min_eq_right (hx'.trans hx)]
  rcases le_total y' q with hy' | hy'
  · rw [min_eq_left hy', sub_self, sub_zero]
    rcases le_total y q with hyq | hyq
    · rw [min_eq_left hyq, sub_self, sub_zero]
      exact sub_le_sub_right hx q
    · rw [min_eq_right hyq, sub_sub_sub_cancel_right]
      exact (sub_le_sub_left hy' x').trans hgap
  · rw [min_eq_right hy', min_eq_right (hy'.trans hy), sub_sub_sub_cancel_right,
      sub_sub_sub_cancel_right]
    exact hgap

/-- The same draw on both stacks keeps them apart as they were, or less. -/
theorem Apart.dispose {a : α} {s t : List (κ × α)} (h : Apart level a s t)
    (hlevel : ∀ n m, n ≤ m → ∀ k, level m k = true → level n k = true) {q : α} (hq : 0 ≤ q) :
    Apart level a (draw s q).left (draw t q).left := by
  have hgap : ∀ n, gap level (draw s q).left (draw t q).left n =
      (unitsWhere (level n) s - min (unitsWhere (level n) s) q) -
        (unitsWhere (level n) t - min (unitsWhere (level n) t) q) := by
    intro n
    rw [gap, unitsWhere_left h.first.nonneg (h.first.above n) hq,
      unitsWhere_left h.second.nonneg (h.second.above n) hq]
  have hle : ∀ n, unitsWhere (level n) t ≤ unitsWhere (level n) s := fun n => sub_nonneg.mp (h.nonneg n)
  refine ⟨h.first.left hq, h.second.left hq, fun n => ?_, fun n => ?_, fun n m hnm => ?_⟩
  · rw [hgap]
    exact (sub_min_sub_le (hle n)).1
  · rw [hgap]
    exact (sub_min_sub_le (hle n)).2.trans (h.le n)
  · rw [hgap, hgap]
    exact sub_min_anti (unitsWhere_mono h.first.nonneg (hlevel n m hnm))
      (unitsWhere_mono h.second.nonneg (hlevel n m hnm)) (hle n) (hle m) (h.anti n m hnm)

end LifoStack
