import Mathlib

/-!
# Matchings built without looking ahead

A matching pairs two sides so that no member of either is paired twice. One
built by giving each newcomer a free partner wherever there is one is maximal:
it may fall short of the largest matching, but by no more than the partners
taken that someone else could have had, and never by more than half.
-/
namespace GreedyMatching

variable {ι ρ : Type*} [DecidableEq ι] [DecidableEq ρ]

structure IsMatching (fits : ι → ρ → Prop) (P : Finset (ι × ρ)) : Prop where
  pairs : ∀ p ∈ P, fits p.1 p.2
  left : ∀ p ∈ P, ∀ q ∈ P, p.1 = q.1 → p = q
  right : ∀ p ∈ P, ∀ q ∈ P, p.2 = q.2 → p = q

/-- A matching in which each one of `E` still alone finds all it fits taken. -/
structure MaximalMatching (fits : ι → ρ → Prop) (E : Finset ι) (R : Finset ρ) (P : Finset (ι × ρ)) : Prop
    extends IsMatching fits P where
  within : P ⊆ E ×ˢ R
  blocked : ∀ e ∈ E, e ∉ P.image Prod.fst → ∀ r ∈ R, fits e r → r ∈ P.image Prod.snd

variable {fits : ι → ρ → Prop} {E : Finset ι} {R : Finset ρ} {P Q : Finset (ι × ρ)}

omit [DecidableEq ι] [DecidableEq ρ] in
theorem isMatching_empty : IsMatching fits ∅ :=
  ⟨fun _ hp => absurd hp (Finset.notMem_empty _), fun _ hp => absurd hp (Finset.notMem_empty _),
    fun _ hp => absurd hp (Finset.notMem_empty _)⟩

namespace IsMatching

omit [DecidableEq ρ] in
theorem card_left (h : IsMatching fits P) : (P.image Prod.fst).card = P.card :=
  Finset.card_image_of_injOn fun p hp q hq => h.left p hp q hq

omit [DecidableEq ι] in
theorem card_right (h : IsMatching fits P) : (P.image Prod.snd).card = P.card :=
  Finset.card_image_of_injOn fun p hp q hq => h.right p hp q hq

/-- A pair of members neither of whom is taken yet. -/
theorem insert {e : ι} {r : ρ} (h : IsMatching fits P) (he : e ∉ P.image Prod.fst)
    (hr : r ∉ P.image Prod.snd) (hfits : fits e r) : IsMatching fits (insert (e, r) P) := by
  have hleft : ∀ p ∈ P, e ≠ p.1 := by
    rintro p hp rfl
    exact he (Finset.mem_image_of_mem _ hp)
  have hright : ∀ p ∈ P, r ≠ p.2 := by
    rintro p hp rfl
    exact hr (Finset.mem_image_of_mem _ hp)
  constructor
  · intro p hp
    rcases Finset.mem_insert.mp hp with rfl | hp
    · exact hfits
    · exact h.pairs p hp
  · intro p hp q hq hpq
    rcases Finset.mem_insert.mp hp with rfl | hp <;> rcases Finset.mem_insert.mp hq with rfl | hq
    · rfl
    · exact absurd hpq (hleft q hq)
    · exact absurd hpq.symm (hleft p hp)
    · exact h.left p hp q hq hpq
  · intro p hp q hq hpq
    rcases Finset.mem_insert.mp hp with rfl | hp <;> rcases Finset.mem_insert.mp hq with rfl | hq
    · rfl
    · exact absurd hpq (hright q hq)
    · exact absurd hpq.symm (hright p hp)
    · exact h.right p hp q hq hpq

end IsMatching

namespace MaximalMatching

theorem empty : MaximalMatching fits ∅ R ∅ where
  toIsMatching := isMatching_empty
  within := Finset.empty_subset _
  blocked := fun _ he => absurd he (Finset.notMem_empty _)

theorem fst_mem (h : MaximalMatching fits E R P) {e : ι} (he : e ∈ P.image Prod.fst) : e ∈ E := by
  obtain ⟨p, hp, rfl⟩ := Finset.mem_image.mp he
  exact (Finset.mem_product.mp (h.within hp)).1

/-- A newcomer takes a free partner. -/
theorem take {e : ι} {r : ρ} (h : MaximalMatching fits E R P) (he : e ∉ E) (hR : r ∈ R)
    (hr : r ∉ P.image Prod.snd) (hfits : fits e r) :
    MaximalMatching fits (insert e E) R (insert (e, r) P) where
  toIsMatching := h.toIsMatching.insert (fun hmem => he (h.fst_mem hmem)) hr hfits
  within := by
    intro p hp
    rcases Finset.mem_insert.mp hp with rfl | hp
    · exact Finset.mem_product.mpr ⟨Finset.mem_insert_self e E, hR⟩
    · obtain ⟨hE, hRp⟩ := Finset.mem_product.mp (h.within hp)
      exact Finset.mem_product.mpr ⟨Finset.mem_insert_of_mem hE, hRp⟩
  blocked := by
    intro d hd halone s hs hfit
    rw [Finset.image_insert] at halone ⊢
    obtain ⟨hne, halone⟩ := not_or.mp (Finset.mem_insert.not.mp halone)
    have hdE : d ∈ E := (Finset.mem_insert.mp hd).resolve_left hne
    exact Finset.mem_insert_of_mem (h.blocked d hdE halone s hs hfit)

/-- A newcomer for whom no partner is free. -/
theorem pass {e : ι} (h : MaximalMatching fits E R P)
    (hnone : ∀ r ∈ R, fits e r → r ∈ P.image Prod.snd) : MaximalMatching fits (insert e E) R P where
  toIsMatching := h.toIsMatching
  within := h.within.trans (Finset.product_subset_product_left (Finset.subset_insert e E))
  blocked := by
    intro d hd halone s hs hfit
    rcases Finset.mem_insert.mp hd with rfl | hd
    · exact hnone s hs hfit
    · exact h.blocked d hd halone s hs hfit

end MaximalMatching

variable [DecidableRel fits]

/-- The partners taken that two of `E` could have had. -/
def contested (fits : ι → ρ → Prop) [DecidableRel fits] (E : Finset ι) (P : Finset (ι × ρ)) : Finset ρ :=
  (P.image Prod.snd).filter fun r => ∃ d ∈ E, ∃ e ∈ E, d ≠ e ∧ fits d r ∧ fits e r

/-- Each pair of a matching is paired on the left already, or its partner is contested. -/
theorem MaximalMatching.card_le (h : MaximalMatching fits E R P) (hQ : IsMatching fits Q) (hwithin : Q ⊆ E ×ˢ R) :
    Q.card ≤ P.card + (contested fits E P).card := by
  have hpaired : (Q.filter fun q => q.1 ∈ P.image Prod.fst).card ≤ P.card := by
    rw [← h.card_left]
    refine Finset.card_le_card_of_injOn Prod.fst ?_ ?_
    · intro q hq
      exact (Finset.mem_filter.mp hq).2
    · intro p hp q hq
      exact hQ.left p (Finset.mem_filter.mp hp).1 q (Finset.mem_filter.mp hq).1
  have halone : (Q.filter fun q => q.1 ∉ P.image Prod.fst).card ≤ (contested fits E P).card := by
    refine Finset.card_le_card_of_injOn Prod.snd ?_ ?_
    · intro q hq
      obtain ⟨hq, hfree⟩ := Finset.mem_filter.mp hq
      obtain ⟨hE, hR⟩ := Finset.mem_product.mp (hwithin hq)
      have hfits := hQ.pairs q hq
      have htaken := h.blocked q.1 hE hfree q.2 hR hfits
      obtain ⟨p, hp, hpq⟩ := Finset.mem_image.mp htaken
      have hne : q.1 ≠ p.1 := fun heq => hfree (heq ▸ Finset.mem_image_of_mem _ hp)
      exact Finset.mem_filter.mpr ⟨htaken, q.1, hE, p.1, (Finset.mem_product.mp (h.within hp)).1, hne,
        hfits, hpq ▸ h.pairs p hp⟩
    · intro p hp q hq
      exact hQ.right p (Finset.mem_filter.mp hp).1 q (Finset.mem_filter.mp hq).1
  rw [← Finset.card_filter_add_card_filter_not (s := Q) fun q => q.1 ∈ P.image Prod.fst]
  exact Nat.add_le_add hpaired halone

omit [DecidableEq ρ] in
theorem card_contested_le [DecidableEq ρ] (h : IsMatching fits P) :
    (contested fits E P).card ≤ P.card :=
  (Finset.card_filter_le _ _).trans h.card_right.le

/-! ### The largest matching -/

instance decidableIsMatching (P : Finset (ι × ρ)) : Decidable (IsMatching fits P) :=
  decidable_of_iff ((∀ p ∈ P, fits p.1 p.2) ∧ (∀ p ∈ P, ∀ q ∈ P, p.1 = q.1 → p = q) ∧
    ∀ p ∈ P, ∀ q ∈ P, p.2 = q.2 → p = q)
    ⟨fun h => ⟨h.1, h.2.1, h.2.2⟩, fun h => ⟨h.pairs, h.left, h.right⟩⟩

/-- The size of a largest matching of `E` with `R`. -/
def maximum (fits : ι → ρ → Prop) [DecidableRel fits] (E : Finset ι) (R : Finset ρ) : ℕ :=
  ((E ×ˢ R).powerset.filter (IsMatching fits)).sup Finset.card

theorem card_le_maximum (h : IsMatching fits Q) (hwithin : Q ⊆ E ×ˢ R) :
    Q.card ≤ maximum fits E R :=
  Finset.le_sup (f := Finset.card)
    (Finset.mem_filter.mpr ⟨Finset.mem_powerset.mpr hwithin, h⟩)

theorem exists_maximum (fits : ι → ρ → Prop) [DecidableRel fits] (E : Finset ι) (R : Finset ρ) :
    ∃ Q, IsMatching fits Q ∧ Q ⊆ E ×ˢ R ∧ Q.card = maximum fits E R := by
  have hne : ((E ×ˢ R).powerset.filter (IsMatching fits)).Nonempty :=
    ⟨∅, Finset.mem_filter.mpr ⟨Finset.empty_mem_powerset _, isMatching_empty⟩⟩
  obtain ⟨Q, hQ, hcard⟩ := Finset.exists_mem_eq_sup _ hne Finset.card
  obtain ⟨hwithin, hmatch⟩ := Finset.mem_filter.mp hQ
  exact ⟨Q, hmatch, Finset.mem_powerset.mp hwithin, hcard.symm⟩

theorem MaximalMatching.maximum_le (h : MaximalMatching fits E R P) :
    maximum fits E R ≤ P.card + (contested fits E P).card := by
  obtain ⟨Q, hQ, hwithin, hcard⟩ := exists_maximum fits E R
  exact hcard ▸ h.card_le hQ hwithin

/-- Half of the largest is always reached. -/
theorem MaximalMatching.maximum_le_two_mul (h : MaximalMatching fits E R P) : maximum fits E R ≤ 2 * P.card := by
  have hcontested := card_contested_le (E := E) h.toIsMatching
  have hmax := h.maximum_le
  omega

end GreedyMatching
