import Mathlib

/-!
# Searching on past answers that were not asked for

A search asks for something later, and asks again from every answer it does not
accept. Where the answers never pass over a target, what it accepts is the first
target after its start.
-/
namespace NextSearch

variable {α : Type*}

/-- What the search answers, or `none` where the fuel runs out first. -/
def search (find : α → Option α) (accept : α → Bool) : ℕ → α → Option (Option α)
  | 0, _ => none
  | fuel + 1, start =>
    match find start with
    | none => some none
    | some next => if accept next then some (some next) else search find accept fuel next

variable [LinearOrder α]

/-- Every answer is later, and none passes over a target. -/
structure Finds (find : α → Option α) (Target : α → Prop) : Prop where
  later : ∀ {a b}, find a = some b → a < b
  no_jump : ∀ {a g}, Target g → a < g → ∃ b, find a = some b ∧ b ≤ g

structure FirstAfter (Target : α → Prop) (a b : α) : Prop where
  after : a < b
  target : Target b
  least : ∀ g, Target g → a < g → b ≤ g

variable {find : α → Option α} {accept : α → Bool} {Target : α → Prop}

theorem search_first (hfind : Finds find Target)
    (hsound : ∀ a b, find a = some b → accept b = true → Target b) {fuel : ℕ} {a b : α}
    (haccept : ∀ g, Target g → a < g → accept g = true)
    (h : search find accept fuel a = some (some b)) : FirstAfter Target a b := by
  induction fuel generalizing a with
  | zero => cases h
  | succ fuel ih =>
    rw [search] at h
    cases hnext : find a with
    | none => simp [hnext] at h
    | some next =>
      have hlater := hfind.later hnext
      simp only [hnext] at h
      by_cases hgenuine : accept next = true
      · rw [if_pos hgenuine] at h
        obtain rfl : next = b := by simpa using h
        refine ⟨hlater, hsound a next hnext hgenuine, ?_⟩
        intro g hg hag
        obtain ⟨u, hu, hle⟩ := hfind.no_jump hg hag
        obtain rfl : next = u := by simpa [hnext] using hu
        exact hle
      · rw [if_neg hgenuine] at h
        have hrest := ih (fun g hg hlt => haccept g hg (hlater.trans hlt)) h
        refine ⟨hlater.trans hrest.after, hrest.target, ?_⟩
        intro g hg hag
        obtain ⟨u, hu, hle⟩ := hfind.no_jump hg hag
        obtain rfl : next = u := by simpa [hnext] using hu
        apply hrest.least g hg
        apply lt_of_le_of_ne hle
        -- a target would have been accepted
        rintro rfl
        exact hgenuine (haccept next hg hlater)

/-- Every answer turned down is strictly nearer the target, so the search ends. -/
theorem search_answers [LocallyFiniteOrder α] (hfind : Finds find Target) {a g : α}
    (haccept : ∀ g, Target g → a < g → accept g = true) (hg : Target g) (hag : a < g) :
    ∃ fuel b, search find accept fuel a = some (some b) := by
  induction hn : (Finset.Ioc a g).card using Nat.strong_induction_on generalizing a with
  | _ n ih =>
    obtain ⟨next, hnext, hle⟩ := hfind.no_jump hg hag
    by_cases hgenuine : accept next = true
    · exact ⟨1, next, by simp [search, hnext, hgenuine]⟩
    · have hlt : next < g := by
        apply lt_of_le_of_ne hle
        rintro rfl
        exact hgenuine (haccept next hg hag)
      have hfewer : (Finset.Ioc next g).card < n := by
        rw [← hn]
        have hlater := hfind.later hnext
        apply Finset.card_lt_card
        refine Finset.ssubset_iff_of_subset (Finset.Ioc_subset_Ioc_left hlater.le) |>.mpr ?_
        exact ⟨next, Finset.mem_Ioc.mpr ⟨hlater, hle⟩, by simp⟩
      have hlater := hfind.later hnext
      obtain ⟨fuel, b, hb⟩ :=
        ih _ hfewer (fun g hg hlt => haccept g hg (hlater.trans hlt)) hlt rfl
      exact ⟨fuel + 1, b, by simp [search, hnext, hgenuine, hb]⟩

variable {Next : α → α → Prop}

theorem pairwise_of_isChain (hnext : ∀ a b, Next a b → FirstAfter Target a b) {a : α} {l : List α}
    (h : (a :: l).IsChain Next) : (a :: l).Pairwise (· < ·) := by
  apply List.isChain_iff_pairwise.mp
  exact h.imp fun a b hab => (hnext a b hab).after

/-- A run from answer to answer passes exactly the targets on its way. -/
theorem mem_iff_of_isChain (hnext : ∀ a b, Next a b → FirstAfter Target a b) {a g : α}
    {l : List α} (h : (a :: l).IsChain Next) :
    g ∈ l ↔ Target g ∧ a < g ∧ ∃ last ∈ l, g ≤ last := by
  induction l generalizing a with
  | nil => simp
  | cons b l ih =>
    obtain ⟨hab, hrest⟩ := List.isChain_cons_cons.mp h
    have hfirst := hnext a b hab
    have ih := ih hrest
    constructor
    · intro hmem
      rcases List.mem_cons.mp hmem with rfl | hmem
      · exact ⟨hfirst.target, hfirst.after, g, List.mem_cons_self, le_rfl⟩
      · obtain ⟨hg, hbg, last, hlast, hle⟩ := ih.mp hmem
        exact ⟨hg, hfirst.after.trans hbg, last, List.mem_cons_of_mem b hlast, hle⟩
    · rintro ⟨hg, hag, last, hlast, hle⟩
      rcases (hfirst.least g hg hag).eq_or_lt with rfl | hbg
      · exact List.mem_cons_self
      · apply List.mem_cons_of_mem
        apply ih.mpr
        refine ⟨hg, hbg, last, ?_, hle⟩
        apply (List.mem_cons.mp hlast).resolve_left
        rintro rfl
        exact absurd hle hbg.not_ge

end NextSearch
