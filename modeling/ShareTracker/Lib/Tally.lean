import Mathlib

/-!
# Tallies

A list of running entries, one a key, each created on its first use.
-/
namespace Tally

variable {κ α ι M : Type*} [DecidableEq κ]

/-- Update the entry at `k`, starting it from `d` where there is none. -/
def adjust (d : α) (k : κ) (f : α → α) : List (κ × α) → List (κ × α)
  | [] => [(k, f d)]
  | e :: rest => if e.1 = k then (k, f e.2) :: rest else e :: adjust d k f rest

def read (d : α) (k : κ) : List (κ × α) → α
  | [] => d
  | e :: rest => if e.1 = k then e.2 else read d k rest

theorem mem_adjust {d : α} {k : κ} {f : α → α} {t : List (κ × α)} {e : κ × α}
    (h : e ∈ adjust d k f t) : e ∈ t ∨ e.1 = k ∧ ∃ a, (a = d ∨ (k, a) ∈ t) ∧ e.2 = f a := by
  induction t with
  | nil =>
    obtain rfl := List.mem_singleton.mp h
    exact Or.inr ⟨rfl, d, Or.inl rfl, rfl⟩
  | cons e' rest ih =>
    rw [adjust] at h
    split at h
    · rename_i hk
      rcases List.mem_cons.mp h with rfl | hrest
      · exact Or.inr ⟨rfl, e'.2, Or.inr (hk ▸ List.mem_cons_self), rfl⟩
      · exact Or.inl (List.mem_cons_of_mem _ hrest)
    · rcases List.mem_cons.mp h with rfl | hrest
      · exact Or.inl List.mem_cons_self
      · rcases ih hrest with hold | ⟨hk, a, ha, hval⟩
        · exact Or.inl (List.mem_cons_of_mem _ hold)
        · exact Or.inr ⟨hk, a, ha.imp_right (List.mem_cons_of_mem _), hval⟩

theorem mem_keys_adjust {d : α} {k k' : κ} {f : α → α} {t : List (κ × α)} :
    k' ∈ (adjust d k f t).map Prod.fst ↔ k' = k ∨ k' ∈ t.map Prod.fst := by
  induction t with
  | nil => simp [adjust]
  | cons e rest ih =>
    rw [adjust]
    split
    · rename_i hk
      simp [hk]
    · rw [List.map_cons, List.mem_cons, ih, List.map_cons, List.mem_cons]
      exact or_left_comm

theorem nodup_keys_adjust {d : α} {k : κ} {f : α → α} {t : List (κ × α)}
    (h : (t.map Prod.fst).Nodup) : ((adjust d k f t).map Prod.fst).Nodup := by
  induction t with
  | nil => exact List.nodup_singleton k
  | cons e rest ih =>
    obtain ⟨hnot, hrest⟩ := List.nodup_cons.mp h
    rw [adjust]
    split
    · rename_i hk
      exact List.nodup_cons.mpr ⟨hk ▸ hnot, hrest⟩
    · rename_i hk
      refine List.nodup_cons.mpr ⟨fun hmem => ?_, ih hrest⟩
      exact (mem_keys_adjust.mp hmem).elim hk hnot

theorem read_of_mem {d : α} {e : κ × α} {t : List (κ × α)} (h : (t.map Prod.fst).Nodup)
    (he : e ∈ t) : read d e.1 t = e.2 := by
  induction t with
  | nil => exact absurd he List.not_mem_nil
  | cons e' rest ih =>
    obtain ⟨hnot, hrest⟩ := List.nodup_cons.mp h
    rw [read]
    rcases List.mem_cons.mp he with rfl | hmem
    · rw [if_pos rfl]
    · have hne : e'.1 ≠ e.1 := fun heq => hnot (heq ▸ List.mem_map_of_mem hmem)
      rw [if_neg hne, ih hrest hmem]

theorem read_of_notMem {d : α} {k : κ} {t : List (κ × α)} (h : k ∉ t.map Prod.fst) :
    read d k t = d := by
  induction t with
  | nil => rfl
  | cons e rest ih =>
    rw [List.map_cons, List.mem_cons, not_or] at h
    rw [read, if_neg (Ne.symm h.1), ih h.2]

section Folds
variable {d : α} {k k' : κ} {f : α → α}

theorem read_adjust_self (t : List (κ × α)) : read d k (adjust d k f t) = f (read d k t) := by
  induction t with
  | nil => simp [adjust, read]
  | cons e rest ih =>
    by_cases h : e.1 = k
    · simp [adjust, read, h]
    · simp [adjust, read, h, ih]

theorem read_adjust_ne (h : k ≠ k') (t : List (κ × α)) :
    read d k' (adjust d k f t) = read d k' t := by
  induction t with
  | nil => simp [adjust, read, h]
  | cons e rest ih =>
    by_cases hk : e.1 = k
    · simp [adjust, read, hk, h]
    · simp [adjust, read, hk, ih]

variable {key : ι → κ} {f : ι → α → α} {t : List (κ × α)}

/-- Adjusted row by row, an entry is built from the rows of its key in their order. -/
theorem read_foldl_adjust (k : κ) (l : List ι) (t : List (κ × α)) :
    read d k (l.foldl (fun t a => adjust d (key a) (f a) t) t) =
      (l.filter fun a => key a = k).foldl (fun acc a => f a acc) (read d k t) := by
  induction l generalizing t with
  | nil => rfl
  | cons a l ih =>
    rw [List.foldl_cons, ih, List.filter_cons]
    by_cases h : key a = k
    · subst h
      rw [if_pos (decide_eq_true rfl), List.foldl_cons, read_adjust_self]
    · rw [if_neg (by simpa using h), read_adjust_ne h]

theorem mem_keys_foldl_adjust {l : List ι} :
    k ∈ (l.foldl (fun t a => adjust d (key a) (f a) t) t).map Prod.fst ↔
      (∃ a ∈ l, key a = k) ∨ k ∈ t.map Prod.fst := by
  induction l generalizing t with
  | nil => simp
  | cons a l ih =>
    rw [List.foldl_cons, ih, mem_keys_adjust, List.exists_mem_cons_iff, eq_comm (a := k),
      or_left_comm, or_assoc]

theorem nodup_keys_foldl_adjust (l : List ι) (h : (t.map Prod.fst).Nodup) :
    ((l.foldl (fun t a => adjust d (key a) (f a) t) t).map Prod.fst).Nodup := by
  induction l generalizing t with
  | nil => exact h
  | cons a l ih => exact ih (nodup_keys_adjust h)

end Folds

section Add
variable [AddCommMonoid M] {m : α → M} {d : α} {f : α → α} {c : M}

def total (m : α → M) (t : List (κ × α)) : M := (t.map fun e => m e.2).sum

theorem total_adjust (hd : m d = 0) (hf : ∀ a, m (f a) = m a + c) (k : κ) (t : List (κ × α)) :
    total m (adjust d k f t) = total m t + c := by
  induction t with
  | nil => simp [adjust, total, hf, hd]
  | cons e rest ih =>
    rw [adjust]
    split
    · simp only [total, List.map_cons, List.sum_cons, hf]
      exact add_right_comm _ _ _
    · simp only [total, List.map_cons, List.sum_cons] at ih ⊢
      rw [ih, add_assoc]

theorem read_adjust (hf : ∀ a, m (f a) = m a + c) (k k' : κ) (t : List (κ × α)) :
    m (read d k' (adjust d k f t)) = m (read d k' t) + if k = k' then c else 0 := by
  induction t with
  | nil =>
    simp only [adjust, read]
    split
    · exact hf d
    · exact (add_zero _).symm
  | cons e rest ih =>
    by_cases hek : e.1 = k
    · subst hek
      rw [adjust, if_pos rfl]
      by_cases hek' : e.1 = k'
      · simp [read, hek', hf]
      · simp [read, hek']
    · rw [adjust, if_neg hek]
      by_cases hek' : e.1 = k'
      · have hne : k ≠ k' := fun h => hek (hek'.trans h.symm)
        simp [read, hek', hne]
      · simpa only [read, if_neg hek'] using ih

/-- A figure summed over keys that cover the entries is summed over the entries. -/
theorem sum_read {m : κ → α → M} (hd : ∀ k, m k d = 0) {keys : List κ} (hkeys : keys.Nodup)
    {t : List (κ × α)} (ht : (t.map Prod.fst).Nodup) (hcover : ∀ e ∈ t, e.1 ∈ keys) :
    (keys.map fun k => m k (read d k t)).sum = (t.map fun e => m e.1 e.2).sum := by
  have hentries : (t.map fun e => m e.1 e.2).sum =
      ((t.map Prod.fst).map fun k => m k (read d k t)).sum := by
    rw [List.map_map]
    exact congrArg List.sum (List.map_congr_left fun e he =>
      (congrArg (m e.1) (read_of_mem ht he)).symm)
  rw [hentries, ← List.sum_toFinset _ hkeys, ← List.sum_toFinset _ ht]
  refine (Finset.sum_subset (fun k hk => ?_) fun k _ hk => ?_).symm
  · obtain ⟨e, he, rfl⟩ := List.mem_map.mp (List.mem_toFinset.mp hk)
    exact List.mem_toFinset.mpr (hcover e he)
  · rw [List.mem_toFinset] at hk
    rw [read_of_notMem hk, hd]

end Add

theorem sum_map_sub [AddCommGroup M] (f g : ι → M) (l : List ι) :
    (l.map fun a => f a - g a).sum = (l.map f).sum - (l.map g).sum := by
  induction l with
  | nil => exact (sub_zero 0).symm
  | cons a l ih =>
    simp only [List.map_cons, List.sum_cons, ih]
    abel

/-- A sum over the rows kept. -/
theorem sum_filter [AddCommMonoid M] (keep : ι → Bool) (f : ι → M) (l : List ι) :
    ((l.filter keep).map f).sum = (l.map fun i => if keep i then f i else 0).sum := by
  rw [List.sum_map_ite]
  simp

/-- A sum is the sum of the parts its keys split it into. -/
theorem sum_by_key [AddCommMonoid M] (key : ι → κ) (f : ι → M) {keys : List κ} (hn : keys.Nodup)
    {l : List ι} (h : ∀ a ∈ l, key a ∈ keys) :
    (l.map f).sum = (keys.map fun k => ((l.filter fun a => key a = k).map f).sum).sum := by
  induction l with
  | nil => simp
  | cons a l ih =>
    have hsplit : ∀ k, (((a :: l).filter fun a => key a = k).map f).sum =
        (if k = key a then f a else 0) + ((l.filter fun a => key a = k).map f).sum := by
      intro k
      rw [List.filter_cons]
      by_cases hk : key a = k
      · simp [hk]
      · simp [hk, Ne.symm hk]
    simp only [hsplit, List.map_cons, List.sum_cons, List.sum_map_add]
    rw [ih fun b hb => h b (List.mem_cons_of_mem _ hb)]
    congr 1
    rw [← List.sum_toFinset _ hn, Finset.sum_ite_eq',
      if_pos (List.mem_toFinset.mpr (h a List.mem_cons_self))]

section Rate
variable {ι' R : Type*} [Semiring R] (rate : κ → R)

/-- Charged by its key alone, a sum is each key's total at the key's rate. -/
theorem sum_rate_by_key (key : ι → κ) (f : ι → R) {keys : List κ} (hn : keys.Nodup) {l : List ι}
    (h : ∀ a ∈ l, key a ∈ keys) : (l.map fun a => rate (key a) * f a).sum =
      (keys.map fun k => rate k * ((l.filter fun a => key a = k).map f).sum).sum := by
  rw [sum_by_key key _ hn h]
  refine congrArg List.sum (List.map_congr_left fun k _ => ?_)
  rw [← List.sum_map_mul_left]
  refine congrArg List.sum (List.map_congr_left fun a ha => ?_)
  rw [of_decide_eq_true (List.mem_filter.mp ha).2]

/-- Lists of the same total at every key come to the same charge. -/
theorem sum_rate_congr {key : ι → κ} {f : ι → R} {key' : ι' → κ} {f' : ι' → R} {l : List ι}
    {l' : List ι'} (h : ∀ k, ((l.filter fun a => key a = k).map f).sum =
      ((l'.filter fun a => key' a = k).map f').sum) :
    (l.map fun a => rate (key a) * f a).sum = (l'.map fun a => rate (key' a) * f' a).sum := by
  let keys := (l.map key ++ l'.map key').dedup
  have hkeys : keys.Nodup := List.nodup_dedup _
  have hl : ∀ a ∈ l, key a ∈ keys := fun a ha =>
    List.mem_dedup.mpr (List.mem_append_left _ (List.mem_map_of_mem ha))
  have hl' : ∀ a ∈ l', key' a ∈ keys := fun a ha =>
    List.mem_dedup.mpr (List.mem_append_right _ (List.mem_map_of_mem ha))
  rw [sum_rate_by_key rate key f hkeys hl, sum_rate_by_key rate key' f' hkeys hl']
  refine congrArg List.sum (List.map_congr_left fun k _ => ?_)
  rw [h k]

end Rate
end Tally
