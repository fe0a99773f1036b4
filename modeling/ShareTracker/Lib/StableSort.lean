import Mathlib

/-!
# Stable sorting by a key

`sortBy key` sorts a list by a key and keeps entries of equal key in the order
given. It commutes with every map that keeps the key and with every filter.
-/
namespace StableSort

variable {α β κ : Type*} [LinearOrder κ]

def sortBy (key : α → κ) (l : List α) : List α := l.insertionSort fun a b => key a ≤ key b

theorem sortBy_perm (key : α → κ) (l : List α) : (sortBy key l).Perm l :=
  List.perm_insertionSort _ l

@[simp] theorem mem_sortBy {key : α → κ} {l : List α} {a : α} : a ∈ sortBy key l ↔ a ∈ l :=
  List.mem_insertionSort _

instance total_key (key : α → κ) : Std.Total fun a b : α => key a ≤ key b := ⟨fun _ _ => le_total _ _⟩

instance trans_key (key : α → κ) : IsTrans α fun a b => key a ≤ key b := ⟨fun _ _ _ => le_trans⟩

theorem sortBy_sorted (key : α → κ) (l : List α) :
    (sortBy key l).Pairwise fun a b => key a ≤ key b :=
  List.pairwise_insertionSort _ l

/-- Rows already in the strict order of their keys are the sorted list. -/
theorem sortBy_eq_of_pairwise {key : α → κ} {l sorted : List α} (hl : l.Nodup)
    (hsorted : sorted.Pairwise fun a b => key a < key b) (hmem : ∀ a, a ∈ sorted ↔ a ∈ l) :
    sortBy key l = sorted := by
  have hnodup : sorted.Nodup := hsorted.imp fun hab heq => hab.ne (congrArg key heq)
  have hinj : ∀ ⦃a⦄, a ∈ sorted → ∀ ⦃b⦄, b ∈ sorted → key a = key b → a = b :=
    List.inj_on_of_nodup_map (List.pairwise_map.mpr (hsorted.imp ne_of_lt))
  have hperm : (sortBy key l).Perm sorted :=
    (sortBy_perm key l).trans ((List.perm_ext_iff_of_nodup hl hnodup).mpr fun a => (hmem a).symm)
  refine hperm.eq_of_pairwise ?_ (sortBy_sorted key l) (hsorted.imp le_of_lt)
  intro a b ha hb hab hba
  exact hinj ((hmem a).mpr (mem_sortBy.mp ha)) hb (le_antisymm hab hba)

/-- Keys no two rows share are sorted strictly. -/
theorem sortBy_strict {key : α → κ} {l : List α} (hl : l.Nodup)
    (hinj : ∀ a ∈ l, ∀ b ∈ l, key a = key b → a = b) :
    (sortBy key l).Pairwise fun a b => key a < key b := by
  have hnodup : (sortBy key l).Nodup := (sortBy_perm key l).nodup_iff.mpr hl
  refine List.Pairwise.imp_of_mem ?_ ((sortBy_sorted key l).and hnodup)
  intro a b ha hb hab
  exact lt_of_le_of_ne hab.1 fun hk =>
    hab.2 (hinj a (mem_sortBy.mp ha) b (mem_sortBy.mp hb) hk)

/-- Keys no two rows share forget the order the rows came in. -/
theorem sortBy_eq_of_perm {key : α → κ} {l l' : List α} (h : l.Perm l')
    (hinj : ∀ a ∈ l, ∀ b ∈ l, key a = key b → a = b) : sortBy key l = sortBy key l' := by
  have hperm : (sortBy key l).Perm (sortBy key l') :=
    ((sortBy_perm key l).trans h).trans (sortBy_perm key l').symm
  refine hperm.eq_of_pairwise ?_ (sortBy_sorted key l) (sortBy_sorted key l')
  intro a b ha hb hab hba
  exact hinj a (mem_sortBy.mp ha) b (h.mem_iff.mpr (mem_sortBy.mp hb)) (le_antisymm hab hba)

/-- Rows ordered alike by two keys are sorted alike. -/
theorem sortBy_congr {κ' : Type*} [LinearOrder κ'] {key : α → κ} {key' : α → κ'} {l : List α}
    (h : ∀ a ∈ l, ∀ b ∈ l, key a ≤ key b ↔ key' a ≤ key' b) : sortBy key l = sortBy key' l := by
  have hmap := List.map_insertionSort (fun a b => key a ≤ key b) (fun a b => key' a ≤ key' b) id l h
  rwa [List.map_id, List.map_id] at hmap

theorem map_sortBy {key : α → κ} {key' : β → κ} (f : α → β) (h : ∀ a, key' (f a) = key a)
    (l : List α) : (sortBy key l).map f = sortBy key' (l.map f) := by
  apply List.map_insertionSort
  intro a _ b _
  rw [h a, h b]

theorem filter_orderedInsert {key : α → κ} {keep : α → Bool} {a : α} (hkeep : keep a = true)
    {l : List α} (hl : l.Pairwise fun a b => key a ≤ key b) :
    (l.orderedInsert (fun a b => key a ≤ key b) a).filter keep =
      (l.filter keep).orderedInsert (fun a b => key a ≤ key b) a := by
  induction l with
  | nil => simp [hkeep]
  | cons b l ih =>
    obtain ⟨hb, hl⟩ := List.pairwise_cons.mp hl
    by_cases hab : key a ≤ key b
    · -- everything after `b` is at or past `a` as well, filtered or not
      have hfront : ∀ c ∈ (b :: l).filter keep, key a ≤ key c := by
        intro c hc
        rcases List.mem_cons.mp (List.mem_filter.mp hc).1 with rfl | hc
        · exact hab
        · exact hab.trans (hb c hc)
      rw [List.orderedInsert_cons, if_pos hab, List.filter_cons_of_pos hkeep]
      cases hf : (b :: l).filter keep with
      | nil => rfl
      | cons c rest =>
        have hc := hfront c (by rw [hf]; exact List.mem_cons_self)
        rw [List.orderedInsert_cons, if_pos hc]
    · rw [List.orderedInsert_cons, if_neg hab]
      cases hk : keep b with
      | true =>
        rw [List.filter_cons_of_pos hk, List.filter_cons_of_pos hk, ih hl,
          List.orderedInsert_cons, if_neg hab]
      | false =>
        rw [List.filter_cons_of_neg (by simp [hk]), List.filter_cons_of_neg (by simp [hk]),
          ih hl]

theorem filter_orderedInsert_of_not {r : α → α → Prop} [DecidableRel r] {keep : α → Bool} {a : α}
    (hkeep : keep a = false) (l : List α) :
    (l.orderedInsert r a).filter keep = l.filter keep := by
  induction l with
  | nil => simp [hkeep]
  | cons b l ih =>
    rw [List.orderedInsert_cons]
    split
    · rw [List.filter_cons_of_neg (by simp [hkeep])]
    · simp only [List.filter_cons, ih]

theorem filter_sortBy (key : α → κ) (keep : α → Bool) (l : List α) :
    (sortBy key l).filter keep = sortBy key (l.filter keep) := by
  induction l with
  | nil => rfl
  | cons a l ih =>
    change (List.orderedInsert _ a (sortBy key l)).filter keep = _
    cases hk : keep a with
    | true =>
      rw [filter_orderedInsert hk (sortBy_sorted key l), ih, List.filter_cons_of_pos hk]
      rfl
    | false =>
      rw [filter_orderedInsert_of_not hk, ih, List.filter_cons_of_neg (by simp [hk])]

/-- Rows taken away leave the rest in their order. -/
theorem sortBy_filter_sublist (f : β → α) (key : α → κ) (keep : β → Bool) (rows : List β) :
    (sortBy key ((rows.filter keep).map f)).Sublist (sortBy key (rows.map f)) := by
  have hsort : ∀ l : List β, sortBy key (l.map f) = (sortBy (key ∘ f) l).map f :=
    fun l => (map_sortBy f (fun _ => rfl) l).symm
  rw [hsort, hsort, ← filter_sortBy]
  exact List.filter_sublist.map f

theorem orderedInsert_append {key : α → κ} {a : α} (l : List α) {l' : List α}
    (h : ∀ b ∈ l', key a ≤ key b) :
    (l ++ l').orderedInsert (fun a b => key a ≤ key b) a =
      l.orderedInsert (fun a b => key a ≤ key b) a ++ l' := by
  induction l with
  | nil =>
    cases l' with
    | nil => rfl
    | cons b l' =>
      rw [List.nil_append, List.orderedInsert_cons, if_pos (h b List.mem_cons_self)]
      rfl
  | cons b l ih =>
    rw [List.cons_append, List.orderedInsert_cons, List.orderedInsert_cons]
    split
    · rfl
    · rw [ih, List.cons_append]

/-- Rows at or past every row before them are sorted apart. -/
theorem sortBy_append {key : α → κ} {l l' : List α} (h : ∀ a ∈ l, ∀ b ∈ l', key a ≤ key b) :
    sortBy key (l ++ l') = sortBy key l ++ sortBy key l' := by
  induction l with
  | nil => rfl
  | cons a l ih =>
    have hrest := ih fun c hc => h c (List.mem_cons_of_mem a hc)
    change List.orderedInsert _ a (sortBy key (l ++ l')) = List.orderedInsert _ a (sortBy key l) ++ _
    rw [hrest]
    exact orderedInsert_append _ fun b hb => h a List.mem_cons_self b (mem_sortBy.mp hb)

/-- Rows numbered, in any order, and sorted back by their numbers. -/
theorem sortBy_indexed (f : α → β) {order : List (α × ℕ)} {l : List α} (h : order.Perm l.zipIdx) :
    (sortBy Prod.fst (order.map fun s => (s.2, f s.1))).map Prod.snd = l.map f := by
  have hperm : (order.map fun s => (s.2, f s.1)).Perm (l.zipIdx.map fun s => (s.2, f s.1)) := h.map _
  have hindex : (l.zipIdx.map Prod.snd).Pairwise (· < ·) := by
    rw [List.zipIdx_map_snd]
    exact List.pairwise_lt_range'
  have hsorted : (l.zipIdx.map fun s => (s.2, f s.1)).Pairwise fun a b => a.1 < b.1 :=
    List.pairwise_map.mpr (List.pairwise_map.mp hindex)
  have hnodup : (l.zipIdx.map fun s => (s.2, f s.1)).Nodup :=
    hsorted.imp fun hab heq => hab.ne (congrArg Prod.fst heq)
  rw [sortBy_eq_of_pairwise (hperm.nodup_iff.mpr hnodup) hsorted fun a => hperm.symm.mem_iff,
    List.map_map]
  calc l.zipIdx.map (Prod.snd ∘ fun s => (s.2, f s.1)) = (l.zipIdx.map Prod.fst).map f := by
        rw [List.map_map]
        rfl
    _ = l.map f := by rw [List.zipIdx_map_fst]

/-- An order of the listed rows alone sorts them. -/
theorem insertionSort_sorted_of {r : α → α → Prop} [DecidableRel r] {l : List α}
    (htotal : ∀ a ∈ l, ∀ b ∈ l, r a b ∨ r b a)
    (htrans : ∀ a ∈ l, ∀ b ∈ l, ∀ c ∈ l, r a b → r b c → r a c) :
    (l.insertionSort r).Pairwise r := by
  have _ : Std.Total fun a b : { a // a ∈ l } => r a.1 b.1 := ⟨fun a b => htotal a.1 a.2 b.1 b.2⟩
  have _ : IsTrans { a // a ∈ l } fun a b => r a.1 b.1 :=
    ⟨fun a b c => htrans a.1 a.2 b.1 b.2 c.1 c.2⟩
  have hsub := List.pairwise_insertionSort (fun a b : { a // a ∈ l } => r a.1 b.1) l.attach
  have hmap : (l.attach.insertionSort fun a b => r a.1 b.1).map Subtype.val =
      (l.attach.map Subtype.val).insertionSort r :=
    List.map_insertionSort _ _ _ _ fun a _ b _ => Iff.rfl
  rw [List.attach_map_subtype_val] at hmap
  rw [← hmap]
  exact List.pairwise_map.mpr hsub

/-- A predicate that holds up to some place of a list parts it there. -/
theorem takeWhile_dropWhile_eq_filter {p : α → Bool} {l : List α}
    (h : l.Pairwise fun a b => p b = true → p a = true) :
    l.takeWhile p = l.filter p ∧ l.dropWhile p = l.filter fun a => !p a := by
  induction l with
  | nil => exact ⟨rfl, rfl⟩
  | cons a l ih =>
    obtain ⟨ha, hl⟩ := List.pairwise_cons.mp h
    obtain ⟨htake, hdrop⟩ := ih hl
    cases hp : p a with
    | true => simp [hp, htake, hdrop]
    | false =>
      have hnone : ∀ b ∈ l, p b = false := by
        intro b hb
        cases hpb : p b with
        | false => rfl
        | true => exact absurd (ha b hb hpb) (by simp [hp])
      have hempty : l.filter p = [] :=
        List.filter_eq_nil_iff.mpr fun b hb => by simp [hnone b hb]
      have hall : (l.filter fun b => !p b) = l :=
        List.filter_eq_self.mpr fun b hb => by simp [hnone b hb]
      simp [hp, hempty, hall]

theorem sortBy_of_same {key : α → κ} {l : List α} {k : κ} (h : ∀ a ∈ l, key a = k) :
    sortBy key l = l := by
  apply List.Pairwise.insertionSort_eq
  exact List.pairwise_of_forall_mem_list fun a ha b hb => (h a ha).trans_le (h b hb).ge

/-- Up to a key, the rows before it are sorted and those at it follow as they stand. -/
theorem sortBy_filter_le [DecidableEq κ] (key : α → κ) (k : κ) (l : List α) :
    sortBy key (l.filter fun a => key a ≤ k) =
      sortBy key (l.filter fun a => key a < k) ++ l.filter fun a => key a = k := by
  have hsorted : (sortBy key (l.filter fun a => key a ≤ k)).Pairwise fun a b =>
      decide (key b < k) = true → decide (key a < k) = true := by
    refine (sortBy_sorted key _).imp ?_
    intro a b hab hb
    exact decide_eq_true (hab.trans_lt (of_decide_eq_true hb))
  obtain ⟨htake, hdrop⟩ := takeWhile_dropWhile_eq_filter hsorted
  have hbefore : (l.filter fun a => key a ≤ k).filter (fun a => key a < k) =
      l.filter fun a => key a < k := by
    rw [List.filter_filter]
    refine List.filter_congr fun a _ => ?_
    by_cases h : key a < k
    · simp [h, h.le]
    · simp [h]
  have hat : (l.filter fun a => key a ≤ k).filter (fun a => !decide (key a < k)) =
      l.filter fun a => key a = k := by
    rw [List.filter_filter]
    refine List.filter_congr fun a _ => ?_
    rcases lt_trichotomy (key a) k with h | h | h
    · simp [h, h.ne]
    · simp [h]
    · simp [h.not_ge, h.ne']
  rw [filter_sortBy, hbefore] at htake
  rw [filter_sortBy, hat, sortBy_of_same fun a ha => of_decide_eq_true (List.mem_filter.mp ha).2]
    at hdrop
  rw [← htake, ← hdrop, List.takeWhile_append_dropWhile]

end StableSort
