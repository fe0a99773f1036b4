import Mathlib
import ShareTracker.Lib.StableSort

/-!
# Tables of rows with a unique key

A table is a list of rows no two of which share a key. `put` writes a row at
its key, replacing the row held there; `get?` reads the row at a key.
-/
namespace Keyed

variable {α κ : Type*} [DecidableEq κ] (key : α → κ)

/-- `INSERT … ON CONFLICT(key) DO UPDATE`. -/
def put (rows : List α) (row : α) : List α := rows.filter (fun a => key a ≠ key row) ++ [row]

def get? (rows : List α) (k : κ) : Option α := rows.find? fun a => key a = k

variable {key}

theorem mem_put {rows : List α} {row a : α} :
    a ∈ put key rows row ↔ (a ∈ rows ∧ key a ≠ key row) ∨ a = row := by
  rw [put, List.mem_append, List.mem_filter, List.mem_singleton, decide_eq_true_eq]

omit [DecidableEq κ] in
theorem nodup_filter {rows : List α} (h : (rows.map key).Nodup) (keep : α → Bool) :
    ((rows.filter keep).map key).Nodup := h.sublist (List.filter_sublist.map key)

/-- The rows whose keys are among those of the first few are the first few. -/
theorem filter_mem_take {rows : List α} (h : (rows.map key).Nodup) (n : ℕ) :
    rows.filter (fun a => decide (key a ∈ (rows.take n).map key)) = rows.take n := by
  have hsplit : ((rows.take n ++ rows.drop n).map key).Nodup := by rwa [List.take_append_drop]
  rw [List.map_append] at hsplit
  have hdisjoint := (List.nodup_append.mp hsplit).2.2
  have hfirst : (rows.take n).filter (fun a => decide (key a ∈ (rows.take n).map key)) =
      rows.take n :=
    List.filter_eq_self.mpr fun a ha => decide_eq_true (List.mem_map_of_mem ha)
  have hrest : (rows.drop n).filter (fun a => decide (key a ∈ (rows.take n).map key)) = [] :=
    List.filter_eq_nil_iff.mpr fun a ha hmem =>
      hdisjoint _ (of_decide_eq_true hmem) _ (List.mem_map_of_mem ha) rfl
  conv_lhs => rw [← List.take_append_drop n rows, List.filter_append]
  rw [List.take_append_drop, hfirst, hrest, List.append_nil]

theorem nodup_put {rows : List α} (h : (rows.map key).Nodup) (row : α) :
    ((put key rows row).map key).Nodup := by
  rw [put, List.map_append, List.nodup_append]
  refine ⟨nodup_filter h _, List.nodup_singleton _, ?_⟩
  intro i hi j hj
  obtain ⟨a, ha, rfl⟩ := List.mem_map.mp hi
  rw [List.map_singleton, List.mem_singleton] at hj
  rw [hj]
  exact of_decide_eq_true (List.mem_filter.mp ha).2

omit [DecidableEq κ] in
theorem nodup_map {rows : List α} (h : (rows.map key).Nodup) {f : α → α}
    (hf : ∀ a, key (f a) = key a) : ((rows.map f).map key).Nodup := by
  rw [List.map_map]
  simpa only [Function.comp_def, hf] using h

omit [DecidableEq κ] in
/-- Rows mapped to others of their key, or dropped, keep the keys apart. -/
theorem filterMap_sublist {β : Type*} {key' : β → κ} {f : α → Option β}
    (hf : ∀ a b, f a = some b → key' b = key a) (rows : List α) :
    ((rows.filterMap f).map key').Sublist (rows.map key) := by
  induction rows with
  | nil => exact List.Sublist.refl []
  | cons a rows ih =>
    cases hb : f a with
    | none =>
      rw [List.filterMap_cons_none hb, List.map_cons]
      exact ih.cons _
    | some b =>
      rw [List.filterMap_cons_some hb, List.map_cons, List.map_cons, hf a b hb]
      exact ih.cons_cons _

omit [DecidableEq κ] in
theorem eq_of_key {rows : List α} (h : (rows.map key).Nodup) {a b : α} (ha : a ∈ rows)
    (hb : b ∈ rows) (hkey : key a = key b) : a = b := List.inj_on_of_nodup_map h ha hb hkey

/-- The one row at a key. -/
theorem filter_key {rows : List α} (h : (rows.map key).Nodup) {a : α} (ha : a ∈ rows) {k : κ}
    (hkey : key a = k) : rows.filter (fun b => key b = k) = [a] := by
  subst hkey
  induction rows with
  | nil => cases ha
  | cons b rows ih =>
    obtain ⟨hnew, hrest⟩ := List.nodup_cons.mp h
    rcases List.mem_cons.mp ha with rfl | ha
    · have hnone : rows.filter (fun b => key b = key a) = [] :=
        List.filter_eq_nil_iff.mpr fun b hb hkept =>
          hnew (of_decide_eq_true hkept ▸ List.mem_map_of_mem hb)
      rw [List.filter_cons, if_pos (decide_eq_true rfl), hnone]
    · have hne : key b ≠ key a := fun hsame => hnew (hsame ▸ List.mem_map_of_mem ha)
      rw [List.filter_cons_of_neg (by simpa using hne), ih hrest ha]

theorem get?_eq_some {rows : List α} (h : (rows.map key).Nodup) {k : κ} {a : α} :
    get? key rows k = some a ↔ a ∈ rows ∧ key a = k := by
  constructor
  · intro hget
    have hkey := List.find?_some hget
    exact ⟨List.mem_of_find?_eq_some hget, of_decide_eq_true hkey⟩
  · rintro ⟨ha, rfl⟩
    have hsome : (get? key rows (key a)).isSome := List.find?_isSome.mpr ⟨a, ha, decide_eq_true rfl⟩
    obtain ⟨b, hb⟩ := Option.isSome_iff_exists.mp hsome
    have hkey := List.find?_some hb
    rw [hb, eq_of_key h (List.mem_of_find?_eq_some hb) ha (of_decide_eq_true hkey)]

/-- Tables with the same rows at a key read alike there. -/
theorem get?_congr {rows rows' : List α} (h : (rows.map key).Nodup) (h' : (rows'.map key).Nodup)
    {k : κ} (hmem : ∀ a, key a = k → (a ∈ rows ↔ a ∈ rows')) : get? key rows k = get? key rows' k := by
  refine Option.ext fun a => ?_
  rw [get?_eq_some h, get?_eq_some h']
  constructor
  · rintro ⟨ha, hk⟩
    exact ⟨(hmem a hk).mp ha, hk⟩
  · rintro ⟨ha, hk⟩
    exact ⟨(hmem a hk).mpr ha, hk⟩

theorem get?_put_self {rows : List α} (h : (rows.map key).Nodup) (row : α) :
    get? key (put key rows row) (key row) = some row :=
  (get?_eq_some (nodup_put h row)).mpr ⟨mem_put.mpr (Or.inr rfl), rfl⟩

theorem get?_put_ne {rows : List α} (h : (rows.map key).Nodup) {row : α} {k : κ}
    (hne : k ≠ key row) : get? key (put key rows row) k = get? key rows k := by
  refine get?_congr (nodup_put h row) h fun a hk => ?_
  rw [mem_put]
  constructor
  · rintro (⟨ha, -⟩ | rfl)
    · exact ha
    · exact absurd hk.symm hne
  · intro ha
    exact Or.inl ⟨ha, hk ▸ hne⟩

theorem get?_filter {rows : List α} (h : (rows.map key).Nodup) (keep : α → Bool) (k : κ) :
    get? key (rows.filter keep) k = (get? key rows k).filter keep := by
  refine Option.ext fun a => ?_
  rw [get?_eq_some (nodup_filter h keep), Option.filter_eq_some_iff, get?_eq_some h, List.mem_filter,
    and_right_comm]

theorem get?_map {rows : List α} {f : α → α} (hf : ∀ a, key (f a) = key a) (k : κ) :
    get? key (rows.map f) k = (get? key rows k).map f := by
  rw [get?, List.find?_map]
  simp only [Function.comp_def, hf]
  rfl

/-- Tables with the same rows sort alike by a key no two rows share. -/
theorem sortBy_eq {σ : Type*} [LinearOrder σ] {rank : α → σ} {rows rows' : List α}
    (h : rows.Nodup) (h' : rows'.Nodup) (hmem : ∀ a, a ∈ rows ↔ a ∈ rows')
    (hrank : ∀ a ∈ rows, ∀ b ∈ rows, rank a = rank b → a = b) :
    StableSort.sortBy rank rows = StableSort.sortBy rank rows' := by
  have hperm : rows.Perm rows' := (List.perm_ext_iff_of_nodup h h').mpr hmem
  refine List.Perm.eq_of_pairwise ?_ (StableSort.sortBy_sorted rank rows)
    (StableSort.sortBy_sorted rank rows')
    ((StableSort.sortBy_perm rank rows).trans (hperm.trans (StableSort.sortBy_perm rank rows').symm))
  intro a b ha hb hab hba
  have ha' := StableSort.mem_sortBy.mp ha
  have hb' := (hmem b).mpr (StableSort.mem_sortBy.mp hb)
  exact hrank a ha' b hb' (le_antisymm hab hba)

end Keyed
