import Mathlib

/-!
# What is in force of a dated list

Entries in force from a point on, the first perhaps from ever. In force at a
point is the last entry that has started by then, as a search from the end
finds it.
-/
namespace Timeline

variable {α D : Type*} [LinearOrder D] (since : α → Option D)

def started (i : α) (d : D) : Bool := (since i).all fun start => decide (start ≤ d)

def inForce (entries : List α) (d : D) : Option α := entries.reverse.find? fun i => started since i d

/-- The second entry starts after the first. -/
def Later (a b : α) : Prop := ∃ start ∈ since b, ∀ earlier ∈ since a, earlier < start

def Ascending (entries : List α) : Prop := entries.Pairwise (Later since)

variable {since} {entries : List α} {d d' : D} {i j : α}

theorem started_some {start : D} (h : since i = some start) :
    started since i d = true ↔ start ≤ d := by
  rw [started, h]
  exact decide_eq_true_iff

/-- No entry starts in between: the same one is in force. -/
theorem inForce_congr (h : ∀ i ∈ entries, started since i d = started since i d') :
    inForce since entries d = inForce since entries d' := by
  rw [inForce, inForce]
  have hsame : ∀ l : List α, (∀ i ∈ l, started since i d = started since i d') →
      (l.find? fun i => started since i d) = l.find? fun i => started since i d' := by
    intro l hl
    induction l with
    | nil => rfl
    | cons i l ih =>
      rw [List.find?_cons, List.find?_cons, hl i List.mem_cons_self,
        ih fun j hj => hl j (List.mem_cons_of_mem _ hj)]
  exact hsame _ fun i hi => h i (List.mem_reverse.mp hi)

theorem inForce_some (h : inForce since entries d = some i) :
    i ∈ entries ∧ started since i d = true :=
  ⟨List.mem_reverse.mp (List.mem_of_find?_eq_some h),
    List.find?_some (p := fun i => started since i d) h⟩

/-- What has started is in force, or something later is. -/
theorem Ascending.inForce_last (hasc : Ascending since entries) (hj : j ∈ entries)
    (hstarted : started since j d = true) (h : inForce since entries d = some i) :
    j = i ∨ Later since j i := by
  obtain ⟨-, before, after, hsplit, hnot⟩ := List.find?_eq_some_iff_append.mp h
  have hentries : entries = after.reverse ++ i :: before.reverse := by
    rw [← List.reverse_reverse entries, hsplit]
    simp
  rw [hentries] at hj hasc
  rcases List.mem_append.mp hj with hj | hj
  · exact .inr ((List.pairwise_append.mp hasc).2.2 j hj i List.mem_cons_self)
  · rcases List.mem_cons.mp hj with rfl | hj
    · exact .inl rfl
    · have hout := hnot j (List.mem_reverse.mp hj)
      rw [hstarted] at hout
      cases hout

/-- An entry is in force on the point it starts at. -/
theorem Ascending.inForce_start (hasc : Ascending since entries) (hj : j ∈ entries)
    (hstart : since j = some d) : ∃ i, inForce since entries d = some i ∧ since i = some d := by
  have hstarted : started since j d = true := (started_some hstart).mpr le_rfl
  cases h : inForce since entries d with
  | none =>
    have hnone := List.find?_eq_none.mp h j (List.mem_reverse.mpr hj)
    exact absurd hstarted hnone
  | some i =>
    refine ⟨i, rfl, ?_⟩
    rcases hasc.inForce_last hj hstarted h with rfl | ⟨start, hi, hlater⟩
    · exact hstart
    · have hle : start ≤ d := (started_some hi).mp (inForce_some h).2
      exact absurd (hlater d hstart) (not_lt.mpr hle)

/-- Before an entry starts, another one is in force. -/
theorem inForce_before (h : inForce since entries d = some i) (hlt : d < d') :
    since i ≠ some d' := by
  intro hstart
  have hle : d' ≤ d := (started_some hstart).mp (inForce_some h).2
  exact absurd hlt (not_lt.mpr hle)

end Timeline
