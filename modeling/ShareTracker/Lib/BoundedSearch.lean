import Mathlib

/-!
# Bounded breadth-first search

A search follows `next` from a frontier for at most a given number of hops and
meets each node once. What it finds is what paths of so many steps reach.
-/
namespace BoundedSearch

variable {α : Type*} [DecidableEq α]

/-- The nodes of a list not met before, each once, and all met by then. -/
def fresh (seen : List α) : List α → List α × List α
  | [] => ([], seen)
  | a :: l =>
    if a ∈ seen then fresh seen l
    else
      let rest := fresh (a :: seen) l
      (a :: rest.1, rest.2)

variable (next : α → List α)

/-- The next frontier, and all met by then. -/
def expand (seen : List α) : List α → List α × List α
  | [] => ([], seen)
  | a :: frontier =>
    let met := fresh seen (next a)
    let rest := expand met.2 frontier
    (met.1 ++ rest.1, rest.2)

def search : ℕ → List α → List α → List α
  | 0, _, _ => []
  | hops + 1, seen, frontier =>
    let met := expand next seen frontier
    met.1 ++ search hops met.2 met.1

/-! ### What one round meets -/

theorem mem_fresh_iff {seen l : List α} :
    (∀ b, b ∈ (fresh seen l).1 ↔ b ∉ seen ∧ b ∈ l) ∧
      ∀ b, b ∈ (fresh seen l).2 ↔ b ∈ seen ∨ b ∈ l := by
  induction l generalizing seen with
  | nil => simp [fresh]
  | cons a l ih =>
    rw [fresh]
    split
    · rename_i hseen
      constructor
      · intro b
        rw [ih.1, List.mem_cons]
        constructor
        · rintro ⟨hb, hl⟩
          exact ⟨hb, Or.inr hl⟩
        · rintro ⟨hb, rfl | hl⟩
          · exact absurd hseen hb
          · exact ⟨hb, hl⟩
      · intro b
        rw [ih.2, List.mem_cons]
        constructor
        · rintro (hb | hl)
          · exact Or.inl hb
          · exact Or.inr (Or.inr hl)
        · rintro (hb | rfl | hl)
          · exact Or.inl hb
          · exact Or.inl hseen
          · exact Or.inr hl
    · rename_i hseen
      constructor
      · intro b
        simp only [List.mem_cons, ih.1]
        constructor
        · rintro (rfl | ⟨hb, hl⟩)
          · exact ⟨hseen, Or.inl rfl⟩
          · exact ⟨fun h => hb (Or.inr h), Or.inr hl⟩
        · rintro ⟨hb, rfl | hl⟩
          · exact Or.inl rfl
          · by_cases hba : b = a
            · exact Or.inl hba
            · exact Or.inr ⟨fun h => h.elim hba hb, hl⟩
      · intro b
        simp only [ih.2, List.mem_cons]
        tauto

variable {next}

theorem mem_expand_iff {seen frontier : List α} :
    (∀ b, b ∈ (expand next seen frontier).1 ↔ b ∉ seen ∧ ∃ a ∈ frontier, b ∈ next a) ∧
      ∀ b, b ∈ (expand next seen frontier).2 ↔ b ∈ seen ∨ ∃ a ∈ frontier, b ∈ next a := by
  induction frontier generalizing seen with
  | nil => simp [expand]
  | cons a frontier ih =>
    constructor
    · intro b
      simp only [expand, List.mem_append, mem_fresh_iff.1, ih.1, mem_fresh_iff.2,
        List.exists_mem_cons_iff]
      tauto
    · intro b
      simp only [expand, ih.2, mem_fresh_iff.2, List.exists_mem_cons_iff]
      tauto

/-! ### Soundness -/

/-- Every node the search finds is reached from the frontier. -/
theorem reaches_of_mem {hops : ℕ} {seen frontier : List α} {b : α}
    (h : b ∈ search next hops seen frontier) :
    ∃ a ∈ frontier, Relation.TransGen (fun x y => y ∈ next x) a b := by
  induction hops generalizing seen frontier with
  | zero => cases h
  | succ hops ih =>
    rcases List.mem_append.mp h with h | h
    · obtain ⟨-, a, ha, hb⟩ := (mem_expand_iff.1 b).mp h
      exact ⟨a, ha, .single hb⟩
    · obtain ⟨m, hm, hreach⟩ := ih h
      obtain ⟨-, a, ha, hma⟩ := (mem_expand_iff.1 m).mp hm
      exact ⟨a, ha, .head hma hreach⟩

/-! ### Paths -/

/-- Reached in exactly `n` steps. -/
def Steps (r : α → α → Prop) : ℕ → α → α → Prop
  | 0 => Eq
  | n + 1 => Relation.Comp r (Steps r n)

/-- Reached in at most `n` steps. -/
def Within (r : α → α → Prop) (n : ℕ) (a b : α) : Prop := ∃ k ≤ n, Steps r k a b

section Paths
variable {β : Type*} {r p : β → β → Prop}

theorem steps_snoc (n : ℕ) : Relation.Comp (Steps r n) r = Steps r (n + 1) := by
  induction n with
  | zero => exact Relation.eq_comp.trans Relation.comp_eq.symm
  | succ n ih =>
    calc Relation.Comp (Relation.Comp r (Steps r n)) r
        = Relation.Comp r (Relation.Comp (Steps r n) r) := Relation.comp_assoc
      _ = Relation.Comp r (Steps r (n + 1)) := by rw [ih]

/-- The paths of the reversed relation are the paths reversed. -/
theorem steps_flip (n : ℕ) : Steps (flip r) n = flip (Steps r n) := by
  induction n with
  | zero =>
    funext a b
    exact propext eq_comm
  | succ n ih =>
    calc Relation.Comp (flip r) (Steps (flip r) n)
        = Relation.Comp (flip r) (flip (Steps r n)) := by rw [ih]
      _ = flip (Relation.Comp (Steps r n) r) := Relation.flip_comp.symm
      _ = flip (Steps r (n + 1)) := by rw [steps_snoc]

theorem within_flip {n : ℕ} {a b : β} : Within (flip r) n a b ↔ Within r n b a := by
  unfold Within
  simp only [steps_flip, flip]

/-- Paths from `a` are the same where the relations agree on a set they stay in. -/
theorem steps_congr {S : β → Prop} (h : ∀ a, S a → ∀ b, r a b ↔ p a b)
    (hstays : ∀ a b, S a → r a b → S b) {n : ℕ} {a b : β} (ha : S a) :
    Steps r n a b ↔ Steps p n a b := by
  induction n generalizing a with
  | zero => exact Iff.rfl
  | succ n ih =>
    constructor
    · rintro ⟨c, hac, hcb⟩
      exact ⟨c, (h a ha c).mp hac, (ih (hstays a c ha hac)).mp hcb⟩
    · rintro ⟨c, hac, hcb⟩
      have hrac := (h a ha c).mpr hac
      exact ⟨c, hrac, (ih (hstays a c ha hrac)).mpr hcb⟩

theorem within_congr {S : β → Prop} (h : ∀ a, S a → ∀ b, r a b ↔ p a b)
    (hstays : ∀ a b, S a → r a b → S b) {n : ℕ} {a b : β} (ha : S a) :
    Within r n a b ↔ Within p n a b := by
  unfold Within
  simp only [steps_congr h hstays ha]

/-- A path out of a set leaves it at some node, the rest of it shorter. -/
theorem exists_exit {S F : β → Prop} (hclosed : ∀ a, S a → ¬ F a → ∀ b, r a b → S b) {n : ℕ}
    {a b : β} (h : Steps r n a b) (ha : S a) (hb : ¬ S b) :
    ∃ c d, F c ∧ r c d ∧ ¬ S d ∧ ∃ k < n, Steps r k d b := by
  induction n generalizing a with
  | zero =>
    obtain rfl : a = b := h
    exact absurd ha hb
  | succ n ih =>
    obtain ⟨c, hac, hcb⟩ := h
    by_cases hc : S c
    · obtain ⟨x, y, hx, hxy, hy, k, hk, hrest⟩ := ih hcb hc
      exact ⟨x, y, hx, hxy, hy, k, by omega, hrest⟩
    · have hfrontier : F a := by
        by_contra hnot
        exact hc (hclosed a ha hnot c hac)
      exact ⟨a, c, hfrontier, hac, hc, n, by omega, hcb⟩

end Paths

/-! ### Completeness -/

theorem nodup_fresh {seen l : List α} : (fresh seen l).1.Nodup := by
  induction l generalizing seen with
  | nil => exact List.nodup_nil
  | cons a l ih =>
    rw [fresh]
    split
    · exact ih
    · refine List.nodup_cons.mpr ⟨?_, ih⟩
      intro ha
      exact ((mem_fresh_iff.1 a).mp ha).1 List.mem_cons_self

theorem nodup_expand {seen frontier : List α} : (expand next seen frontier).1.Nodup := by
  induction frontier generalizing seen with
  | nil => exact List.nodup_nil
  | cons a frontier ih =>
    refine List.nodup_append.mpr ⟨nodup_fresh, ih, ?_⟩
    rintro b hb c hc rfl
    exact ((mem_expand_iff.1 b).mp hc).1 ((mem_fresh_iff.2 b).mpr (Or.inr ((mem_fresh_iff.1 b).mp hb).2))

/-- What a search finds is the unmet nodes within its hops of the frontier, where
the steps of every other node it met are met. -/
theorem mem_search {hops : ℕ} {seen frontier : List α} {b : α}
    (hfrontier : ∀ a ∈ frontier, a ∈ seen)
    (hclosed : ∀ a, a ∈ seen → a ∉ frontier → ∀ c, c ∈ next a → c ∈ seen) :
    b ∈ search next hops seen frontier ↔
      b ∉ seen ∧ ∃ a ∈ frontier, Within (fun x y => y ∈ next x) hops a b := by
  induction hops generalizing seen frontier with
  | zero =>
    constructor
    · intro h
      cases h
    · rintro ⟨hb, a, ha, k, hk, hsteps⟩
      obtain rfl : k = 0 := by omega
      obtain rfl : a = b := hsteps
      exact absurd (hfrontier a ha) hb
  | succ hops ih =>
    have hmet : ∀ c, c ∈ (expand next seen frontier).2 ↔
        c ∈ seen ∨ c ∈ (expand next seen frontier).1 := by
      intro c
      rw [mem_expand_iff.1, mem_expand_iff.2]
      tauto
    have hnext := @ih (expand next seen frontier).2 (expand next seen frontier).1
      (fun a ha => (hmet a).mpr (Or.inr ha)) ?_
    · rw [search, List.mem_append, hnext]
      constructor
      · rintro (hb | ⟨hb, a, ha, k, hk, hsteps⟩)
        · obtain ⟨hunmet, a, ha, hab⟩ := (mem_expand_iff.1 b).mp hb
          exact ⟨hunmet, a, ha, 1, by omega, b, hab, rfl⟩
        · obtain ⟨-, c, hc, hca⟩ := (mem_expand_iff.1 a).mp ha
          exact ⟨fun h => hb ((hmet b).mpr (Or.inl h)), c, hc, k + 1, by omega, a, hca, hsteps⟩
      · rintro ⟨hb, a, ha, k, hk, hsteps⟩
        obtain ⟨c, d, hc, hcd, hd, j, hj, hrest⟩ :=
          exists_exit (S := (· ∈ seen)) (F := (· ∈ frontier)) hclosed hsteps (hfrontier a ha) hb
        have hdnew : d ∈ (expand next seen frontier).1 :=
          (mem_expand_iff.1 d).mpr ⟨hd, c, hc, hcd⟩
        by_cases hbnew : b ∈ (expand next seen frontier).1
        · exact Or.inl hbnew
        · refine Or.inr ⟨?_, d, hdnew, j, by omega, hrest⟩
          rw [hmet]
          exact fun h => h.elim hb hbnew
    · -- a node met before this round has its steps met, and so has the old frontier
      intro a ha hnew c hc
      have hseen : a ∈ seen := ((hmet a).mp ha).resolve_right hnew
      rw [mem_expand_iff.2]
      by_cases hold : a ∈ frontier
      · exact Or.inr ⟨a, hold, hc⟩
      · exact Or.inl (hclosed a hseen hold c hc)

theorem not_mem_seen {hops : ℕ} {seen frontier : List α} {b : α}
    (h : b ∈ search next hops seen frontier) : b ∉ seen := by
  induction hops generalizing seen frontier with
  | zero => cases h
  | succ hops ih =>
    rcases List.mem_append.mp h with h | h
    · exact ((mem_expand_iff.1 b).mp h).1
    · intro hb
      exact ih h ((mem_expand_iff.2 b).mpr (Or.inl hb))

theorem nodup_search {hops : ℕ} {seen frontier : List α} :
    (search next hops seen frontier).Nodup := by
  induction hops generalizing seen frontier with
  | zero => exact List.nodup_nil
  | succ hops ih =>
    refine List.nodup_append.mpr ⟨nodup_expand, ih, ?_⟩
    rintro b hb c hc rfl
    apply not_mem_seen hc
    rw [mem_expand_iff.2]
    exact Or.inr ((mem_expand_iff.1 b).mp hb).2

/-- From one node, a search finds the other nodes within its hops. -/
theorem mem_search_singleton {hops : ℕ} {a b : α} :
    b ∈ search next hops [a] [a] ↔ b ≠ a ∧ Within (fun x y => y ∈ next x) hops a b := by
  rw [mem_search (fun _ h => h) (fun _ h hnot => absurd h hnot)]
  simp only [List.mem_singleton, exists_eq_left, ne_eq]

end BoundedSearch
