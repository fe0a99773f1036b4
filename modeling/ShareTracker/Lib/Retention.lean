import Mathlib

/-!
# Retention

What is kept of a finite set in order: the newest few, and the oldest of each of
the newest few groups. Discarding the rest early changes nothing that is kept
later.
-/
namespace Retention

section Rank
variable {α : Type*} [LinearOrder α]

/-- How many of the set are above `a`. -/
def newer (S : Finset α) (a : α) : ℕ := (S.filter (a < ·)).card

theorem newer_mono {S T : Finset α} (h : S ⊆ T) (a : α) : newer S a ≤ newer T a :=
  Finset.card_le_card (Finset.filter_subset_filter _ h)

/-- As many have fewer than `n` above them as there are, or `n`. -/
theorem card_newer_lt (n : ℕ) (S : Finset α) : (S.filter fun a => newer S a < n).card = min n S.card := by
  induction S using Finset.induction_on_max generalizing n with
  | empty => simp
  | insert a S hmax ih =>
    have hnot : a ∉ S := fun h => (hmax a h).false
    have htop : newer (insert a S) a = 0 := by
      unfold newer
      rw [Finset.card_eq_zero, Finset.filter_eq_empty_iff]
      intro b hb
      rcases Finset.mem_insert.mp hb with rfl | hb
      · exact lt_irrefl b
      · exact (hmax b hb).le.not_gt
    have hrest : ∀ b ∈ S, newer (insert a S) b = newer S b + 1 := by
      intro b hb
      unfold newer
      rw [Finset.filter_insert, if_pos (hmax b hb), Finset.card_insert_of_notMem]
      exact fun h => hnot (Finset.mem_filter.mp h).1
    cases n with
    | zero => simp
    | succ n =>
      have hfilter : (insert a S).filter (fun b => newer (insert a S) b < n + 1) =
          insert a (S.filter fun b => newer S b < n) := by
        rw [Finset.filter_insert, if_pos (htop ▸ Nat.succ_pos n)]
        congr 1
        refine Finset.filter_congr fun b hb => ?_
        rw [hrest b hb]
        exact Nat.succ_lt_succ_iff
      rw [hfilter, Finset.card_insert_of_notMem fun h => hnot (Finset.mem_filter.mp h).1, ih,
        Finset.card_insert_of_notMem hnot]
      omega

/-- A part holding the top `n` ranks its members among them as the whole does. -/
theorem newer_lt_iff_of_top {n : ℕ} {S T : Finset α} (h : S ⊆ T)
    (htop : ∀ a ∈ T, newer T a < n → a ∈ S) (a : α) : newer S a < n ↔ newer T a < n := by
  refine ⟨fun hS => ?_, (newer_mono h a).trans_lt⟩
  by_contra hT
  let above := T.filter (a < ·)
  have hrank : ∀ b ∈ above, newer above b = newer T b := by
    intro b hb
    unfold newer
    rw [Finset.filter_filter]
    refine congrArg Finset.card (Finset.filter_congr fun c _ => ?_)
    exact ⟨fun hc => hc.2, fun hc => ⟨(Finset.mem_filter.mp hb).2.trans hc, hc⟩⟩
  have hsub : above.filter (fun b => newer above b < n) ⊆ S.filter (a < ·) := by
    intro b hb
    obtain ⟨hb, hlt⟩ := Finset.mem_filter.mp hb
    obtain ⟨hbT, hab⟩ := Finset.mem_filter.mp hb
    rw [hrank b hb] at hlt
    exact Finset.mem_filter.mpr ⟨htop b hbT hlt, hab⟩
  have hcard := Finset.card_le_card hsub
  rw [card_newer_lt, min_eq_left (show n ≤ above.card from not_lt.mp hT)] at hcard
  exact hS.not_ge hcard

end Rank

section Keep
variable {α γ : Type*} [LinearOrder α] [LinearOrder γ] (group : α → γ) (n m : ℕ)

/-- Of `S`, the newest `n` and the oldest of each of the newest `m` groups. -/
def Keeps (S : Finset α) (a : α) : Prop :=
  a ∈ S ∧ (newer S a < n ∨
    ((∀ b ∈ S, group b = group a → a ≤ b) ∧ newer (S.image group) (group a) < m))

instance (S : Finset α) (a : α) : Decidable (Keeps group n m S a) :=
  inferInstanceAs (Decidable (_ ∧ _))

def keep (S : Finset α) : Finset α := S.filter (Keeps group n m S)

variable {group n m}

theorem mem_keep {S : Finset α} {a : α} : a ∈ keep group n m S ↔ Keeps group n m S a :=
  ⟨fun h => (Finset.mem_filter.mp h).2, fun h => Finset.mem_filter.mpr ⟨h.1, h⟩⟩

theorem keep_subset (S : Finset α) : keep group n m S ⊆ S := Finset.filter_subset _ _

/-- The oldest of a set's group. -/
theorem exists_oldest {S : Finset α} {a : α} (ha : a ∈ S) :
    ∃ b ∈ S, group b = group a ∧ ∀ c ∈ S, group c = group a → b ≤ c := by
  obtain ⟨b, hb, hmin⟩ := (S.filter fun b => group b = group a).exists_min_image id
    ⟨a, Finset.mem_filter.mpr ⟨ha, rfl⟩⟩
  obtain ⟨hbS, hgroup⟩ := Finset.mem_filter.mp hb
  exact ⟨b, hbS, hgroup, fun c hc hgc => hmin c (Finset.mem_filter.mpr ⟨hc, hgc⟩)⟩

/-- What was discarded of `S` is not wanted of `S` with more: nor is anything
else kept for its want. -/
theorem keeps_keep_union (S T : Finset α) (a : α) :
    Keeps group n m (keep group n m S ∪ T) a ↔ Keeps group n m (S ∪ T) a := by
  have hsub : keep group n m S ∪ T ⊆ S ∪ T := Finset.union_subset_union_left (keep_subset S)
  have hrank : ∀ b, newer (keep group n m S ∪ T) b < n ↔ newer (S ∪ T) b < n := by
    refine newer_lt_iff_of_top hsub fun b hb hlt => ?_
    rcases Finset.mem_union.mp hb with hb | hb
    · refine Finset.mem_union_left _ (mem_keep.mpr ⟨hb, .inl ?_⟩)
      exact (newer_mono Finset.subset_union_left b).trans_lt hlt
    · exact Finset.mem_union_right _ hb
  have holdest : ∀ b ∈ S, newer ((S ∪ T).image group) (group b) < m →
      (∀ c ∈ S, group c = group b → b ≤ c) → b ∈ keep group n m S := by
    intro b hb hlt hmin
    refine mem_keep.mpr ⟨hb, .inr ⟨hmin, ?_⟩⟩
    exact (newer_mono (Finset.image_subset_image Finset.subset_union_left) _).trans_lt hlt
  have hgroups : ∀ g, newer ((keep group n m S ∪ T).image group) g < m ↔
      newer ((S ∪ T).image group) g < m := by
    refine newer_lt_iff_of_top (Finset.image_subset_image hsub) fun g hg hlt => ?_
    obtain ⟨b, hb, rfl⟩ := Finset.mem_image.mp hg
    rcases Finset.mem_union.mp hb with hb | hb
    · obtain ⟨c, hc, hgroup, hmin⟩ := @exists_oldest _ _ _ _ group S b hb
      rw [← hgroup] at hlt hmin ⊢
      exact Finset.mem_image_of_mem _ (Finset.mem_union_left _ (holdest c hc hlt hmin))
    · exact Finset.mem_image_of_mem _ (Finset.mem_union_right _ hb)
  constructor
  · rintro ⟨ha, hkept⟩
    refine ⟨hsub ha, ?_⟩
    rcases hkept with hnew | ⟨hmin, hgroup⟩
    · exact .inl ((hrank a).mp hnew)
    refine .inr ⟨fun b hb hgb => ?_, (hgroups _).mp hgroup⟩
    rcases Finset.mem_union.mp hb with hb | hb
    · obtain ⟨c, hc, hgc, hcmin⟩ := @exists_oldest _ _ _ _ group S b hb
      have hlt := (hgroups _).mp hgroup
      rw [← hgb, ← hgc] at hlt
      rw [← hgc] at hcmin
      have hkeep := holdest c hc hlt hcmin
      exact (hmin c (Finset.mem_union_left _ hkeep) (hgc.trans hgb)).trans (hcmin b hb hgc.symm)
    · exact hmin b (Finset.mem_union_right _ hb) hgb
  · rintro ⟨ha, hkept⟩
    refine ⟨?_, ?_⟩
    · rcases Finset.mem_union.mp ha with ha | ha
      · refine Finset.mem_union_left _ ?_
        rcases hkept with hnew | ⟨hmin, hgroup⟩
        · exact mem_keep.mpr ⟨ha, .inl ((newer_mono Finset.subset_union_left a).trans_lt hnew)⟩
        · exact holdest a ha hgroup fun b hb => hmin b (Finset.mem_union_left _ hb)
      · exact Finset.mem_union_right _ ha
    · rcases hkept with hnew | ⟨hmin, hgroup⟩
      · exact .inl ((hrank a).mpr hnew)
      · exact .inr ⟨fun b hb => hmin b (hsub hb), (hgroups _).mpr hgroup⟩

end Keep

/-! ### Over a sorted list -/

section List
variable {α β γ : Type*} [LinearOrder α] [LinearOrder γ]

/-- A list without repeats next to each other. -/
def dedupRuns [DecidableEq γ] : List γ → List γ
  | [] => []
  | [g] => [g]
  | g :: g' :: l => if g = g' then dedupRuns (g' :: l) else g :: dedupRuns (g' :: l)

/-- Newest first: the first `n`, and the last of each of the first `m` groups. -/
def keepers (key : β → α) (group : α → γ) (n m : ℕ) (sorted : List β) : List β :=
  let groups := (dedupRuns (sorted.map fun b => group (key b))).take m
  sorted.take n ++
    groups.filterMap fun g => sorted.reverse.find? fun b => decide (group (key b) = g)

theorem mem_dedupRuns {l : List γ} {g : γ} : g ∈ dedupRuns l ↔ g ∈ l := by
  fun_induction dedupRuns l with
  | case1 => exact Iff.rfl
  | case2 => exact Iff.rfl
  | case3 g' l ih =>
    rw [ih]
    simp
  | case4 g g' l h ih => rw [List.mem_cons, ih, List.mem_cons, List.mem_cons, List.mem_cons]

theorem dedupRuns_sorted {l : List γ} (h : l.Pairwise (· ≥ ·)) : (dedupRuns l).Pairwise (· > ·) := by
  fun_induction dedupRuns l with
  | case1 => exact .nil
  | case2 => exact List.pairwise_singleton _ _
  | case3 g' l ih => exact ih h.of_cons
  | case4 g g' l hne ih =>
    refine List.pairwise_cons.mpr ⟨fun x hx => ?_, ih h.of_cons⟩
    obtain ⟨hfirst, hrest⟩ := List.pairwise_cons.mp h
    have hlt : g' < g := lt_of_le_of_ne (hfirst g' List.mem_cons_self) (Ne.symm hne)
    rcases List.mem_cons.mp (mem_dedupRuns.mp hx) with rfl | hx
    · exact hlt
    · exact ((List.pairwise_cons.mp hrest).1 x hx).trans_lt hlt

/-- Of a list newest first, the first `n` are those with fewer than `n` newer. -/
theorem mem_take_iff {key : β → α} {l : List β} (h : l.Pairwise fun a b => key b < key a) (n : ℕ)
    (b : β) : b ∈ l.take n ↔ b ∈ l ∧ newer (l.map key).toFinset (key b) < n := by
  induction l generalizing n with
  | nil => simp
  | cons a l ih =>
    obtain ⟨hfirst, hrest⟩ := List.pairwise_cons.mp h
    have hnotin : key a ∉ (l.map key).toFinset := by
      intro hmem
      obtain ⟨c, hc, hca⟩ := List.mem_map.mp (List.mem_toFinset.mp hmem)
      exact (hca ▸ hfirst c hc).false
    have hself : newer ((a :: l).map key).toFinset (key a) = 0 := by
      unfold newer
      rw [Finset.card_eq_zero, Finset.filter_eq_empty_iff]
      intro x hx
      rw [List.map_cons, List.toFinset_cons, Finset.mem_insert, List.mem_toFinset] at hx
      rcases hx with rfl | hx
      · exact lt_irrefl _
      · obtain ⟨c, hc, rfl⟩ := List.mem_map.mp hx
        exact (hfirst c hc).le.not_gt
    have hlater : ∀ c ∈ l, newer ((a :: l).map key).toFinset (key c) =
        newer (l.map key).toFinset (key c) + 1 := by
      intro c hc
      unfold newer
      rw [List.map_cons, List.toFinset_cons, Finset.filter_insert, if_pos (hfirst c hc),
        Finset.card_insert_of_notMem fun hmem => hnotin (Finset.mem_filter.mp hmem).1]
    cases n with
    | zero => simp
    | succ n =>
      rw [List.take_succ_cons, List.mem_cons, List.mem_cons, ih hrest n]
      constructor
      · rintro (rfl | ⟨hmem, hlt⟩)
        · exact ⟨.inl rfl, hself ▸ Nat.succ_pos n⟩
        · exact ⟨.inr hmem, (hlater b hmem) ▸ Nat.succ_lt_succ hlt⟩
      · rintro ⟨rfl | hmem, hlt⟩
        · exact .inl rfl
        · rw [hlater b hmem] at hlt
          exact .inr ⟨hmem, Nat.lt_of_succ_lt_succ hlt⟩

theorem nodup_keys {key : β → α} {l : List β} (h : l.Pairwise fun a b => key b < key a) :
    (l.map key).Nodup := by
  rw [List.Nodup, List.pairwise_map]
  exact h.imp fun hlt => hlt.ne'

/-- The last of a list newest first that satisfies `p` is its oldest. -/
theorem find_reverse_iff {key : β → α} {l : List β} (h : l.Pairwise fun a b => key b < key a)
    (p : β → Bool) (b : β) : l.reverse.find? p = some b ↔
      b ∈ l ∧ p b = true ∧ ∀ c ∈ l, p c = true → key b ≤ key c := by
  have hascending : l.reverse.Pairwise fun a b => key a < key b := List.pairwise_reverse.mpr h
  have holdest : ∀ b, l.reverse.find? p = some b →
      b ∈ l ∧ p b = true ∧ ∀ c ∈ l, p c = true → key b ≤ key c := by
    intro b hb
    obtain ⟨hp, as, bs, hsplit, has⟩ := List.find?_eq_some_iff_append.mp hb
    have hmem : b ∈ l := by
      rw [← List.mem_reverse, hsplit]
      exact List.mem_append_right _ List.mem_cons_self
    refine ⟨hmem, hp, fun c hc hpc => ?_⟩
    rw [← List.mem_reverse, hsplit] at hc
    rw [hsplit] at hascending
    rcases List.mem_append.mp hc with hc | hc
    · have hnot := has c hc
      rw [hpc] at hnot
      cases hnot
    · rcases List.mem_cons.mp hc with rfl | hc
      · exact le_rfl
      · exact ((List.pairwise_cons.mp (List.pairwise_append.mp hascending).2.1).1 c hc).le
  refine ⟨holdest b, ?_⟩
  rintro ⟨hb, hp, hmin⟩
  cases hfind : l.reverse.find? p with
  | none =>
    have hnone := List.find?_eq_none.mp hfind b (List.mem_reverse.mpr hb)
    exact absurd hp hnone
  | some c =>
    obtain ⟨hc, hpc, hcmin⟩ := holdest c hfind
    have heq : key b = key c := le_antisymm (hmin c hc hpc) (hcmin b hb hp)
    rw [List.inj_on_of_nodup_map (nodup_keys h) hb hc heq]

/-- The keepers picked from a list newest first are those the set's policy keeps. -/
theorem mem_keepers_iff {key : β → α} {group : α → γ} (hgroup : Monotone group) {n m : ℕ}
    {l : List β} (h : l.Pairwise fun a b => key b < key a) (b : β) :
    b ∈ keepers key group n m l ↔ b ∈ l ∧ Keeps group n m (l.map key).toFinset (key b) := by
  have hgroups : (l.map fun b => group (key b)).Pairwise (· ≥ ·) := by
    rw [List.pairwise_map]
    exact h.imp fun hlt => hgroup hlt.le
  have hranked : ∀ g, g ∈ (dedupRuns (l.map fun b => group (key b))).take m ↔
      g ∈ l.map (fun b => group (key b)) ∧
        newer (((l.map key).toFinset).image group) g < m := by
    intro g
    have htake := @mem_take_iff γ γ _ id _ (dedupRuns_sorted hgroups) m g
    rw [List.map_id, mem_dedupRuns] at htake
    have hset : (dedupRuns (l.map fun b => group (key b))).toFinset =
        ((l.map key).toFinset).image group := by
      ext x
      simp [mem_dedupRuns]
    rw [htake, hset]
    rfl
  have hmonthly : (b ∈ (((dedupRuns (l.map fun b => group (key b))).take m).filterMap fun g =>
      l.reverse.find? fun b => decide (group (key b) = g))) ↔
        b ∈ l ∧ (∀ c ∈ l, group (key c) = group (key b) → key b ≤ key c) ∧
          newer (((l.map key).toFinset).image group) (group (key b)) < m := by
    simp only [List.mem_filterMap, find_reverse_iff h, decide_eq_true_eq]
    constructor
    · rintro ⟨g, hg, hb, rfl, hmin⟩
      exact ⟨hb, hmin, ((hranked _).mp hg).2⟩
    · rintro ⟨hb, hmin, hlt⟩
      exact ⟨_, (hranked _).mpr ⟨List.mem_map_of_mem hb, hlt⟩, hb, rfl, hmin⟩
  unfold keepers
  rw [List.mem_append, mem_take_iff h, hmonthly]
  constructor
  · rintro (⟨hb, hlt⟩ | ⟨hb, hmin, hlt⟩)
    · exact ⟨hb, List.mem_toFinset.mpr (List.mem_map_of_mem hb), .inl hlt⟩
    · refine ⟨hb, List.mem_toFinset.mpr (List.mem_map_of_mem hb), .inr ⟨fun k hk hgk => ?_, hlt⟩⟩
      obtain ⟨c, hc, rfl⟩ := List.mem_map.mp (List.mem_toFinset.mp hk)
      exact hmin c hc hgk
  · rintro ⟨hb, -, hlt | ⟨hmin, hlt⟩⟩
    · exact .inl ⟨hb, hlt⟩
    · refine .inr ⟨hb, fun c hc hgc => hmin _ ?_ hgc, hlt⟩
      exact List.mem_toFinset.mpr (List.mem_map_of_mem hc)

end List

end Retention
