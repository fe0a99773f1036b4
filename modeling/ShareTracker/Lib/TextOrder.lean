import Mathlib

/-!
# Texts that sort as what they spell

The order of two texts is decided by their first blocks of equal length that
differ. Dropping a text's trailing zeros keeps its place, where what follows the
text is below every figure.
-/
namespace TextOrder

variable {α : Type*} [LinearOrder α]

theorem first_difference {a b : List α} (hlen : a.length = b.length) (h : a < b) :
    ∃ shared x y s t, a = shared ++ x :: s ∧ b = shared ++ y :: t ∧ x < y := by
  induction a generalizing b with
  | nil =>
    rw [List.length_eq_zero_iff.mp hlen.symm] at h
    exact absurd h (lt_irrefl _)
  | cons x a ih =>
    cases b with
    | nil => cases hlen
    | cons y b =>
      rcases List.cons_lt_cons_iff.mp h with hxy | ⟨rfl, hrest⟩
      · exact ⟨[], x, y, a, b, rfl, rfl, hxy⟩
      · obtain ⟨shared, x', y', s, t, rfl, rfl, hlt⟩ := ih (Nat.succ.inj hlen) hrest
        exact ⟨x :: shared, x', y', s, t, rfl, rfl, hlt⟩

theorem shared_lt (shared : List α) {x y : α} (h : x < y) (s t : List α) :
    shared ++ x :: s < shared ++ y :: t :=
  List.append_left_lt (List.cons_lt_cons_iff.mpr (.inl h))

/-- Two blocks of one length, and what follows where they are equal. -/
theorem blocks_lt {a b x y : List α} (hlen : a.length = b.length) (h : a < b ∨ a = b ∧ x < y) :
    a ++ x < b ++ y := by
  rcases h with h | ⟨rfl, h⟩
  · obtain ⟨shared, c, d, s, t, rfl, rfl, hlt⟩ := first_difference hlen h
    rw [List.append_assoc, List.append_assoc]
    exact shared_lt shared hlt _ _
  · exact List.append_left_lt h

/-- Figures cut after the last that is not zero, and closed by a sign below them all. -/
theorem cut_lt {a b : List α} (hlen : a.length = b.length) (h : a < b) {zero stop : α} {k j : ℕ}
    (hb : ∀ c ∈ b.drop j, c = zero) (hfigures : ∀ c ∈ a ++ b, zero ≤ c) (hstop : stop < zero)
    (x y : List α) : a.take k ++ stop :: x < b.take j ++ stop :: y := by
  obtain ⟨shared, c, d, s, t, rfl, rfl, hlt⟩ := first_difference hlen h
  have hzero : zero < d :=
    (hfigures c (List.mem_append_left _ (List.mem_append_right _ List.mem_cons_self))).trans_lt hlt
  -- the greater figure is not zero, so it is not cut away
  have hkept : shared.length < j := by
    by_contra hcut
    have hdrop : d ∈ (shared ++ d :: t).drop j := by
      rw [List.drop_append_of_le_length (not_lt.mp hcut)]
      exact List.mem_append_right _ List.mem_cons_self
    exact hzero.ne' (hb d hdrop)
  obtain ⟨i, rfl⟩ := Nat.exists_eq_add_of_lt hkept
  have hright : (shared ++ d :: t).take (shared.length + i + 1) = shared ++ d :: t.take i := by
    rw [Nat.add_assoc, List.take_length_add_append, List.take_succ_cons]
  rw [hright]
  rcases Nat.lt_or_ge shared.length k with hlong | hshort
  · obtain ⟨i', rfl⟩ := Nat.exists_eq_add_of_lt hlong
    have hleft : (shared ++ c :: s).take (shared.length + i' + 1) = shared ++ c :: s.take i' := by
      rw [Nat.add_assoc, List.take_length_add_append, List.take_succ_cons]
    rw [hleft, List.append_assoc, List.append_assoc]
    exact shared_lt shared hlt _ _
  · rw [List.take_append_of_le_length hshort]
    have hsplit : shared = shared.take k ++ shared.drop k := (List.take_append_drop k shared).symm
    conv_rhs => rw [hsplit]
    rw [List.append_assoc, List.append_assoc]
    refine List.append_left_lt ?_
    cases hrest : shared.drop k with
    | nil => exact List.cons_lt_cons_iff.mpr (.inl (hstop.trans hzero))
    | cons e rest =>
      refine List.cons_lt_cons_iff.mpr (.inl (hstop.trans_le (hfigures e ?_)))
      have he : e ∈ shared := List.mem_of_mem_drop (hrest ▸ List.mem_cons_self)
      exact List.mem_append_left _ (List.mem_append_left _ he)

end TextOrder
