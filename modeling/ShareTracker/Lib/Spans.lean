import Mathlib

/-!
# Spans of a property that changes at known points

A property of the points of an order that changes only at some of them is
collected, from those points in order, as inclusive spans that do not touch.
-/
namespace Spans

variable {α : Type*} [LinearOrder α]

def Covers (spans : List (α × α)) (a : α) : Prop := ∃ s ∈ spans, s.1 ≤ a ∧ a ≤ s.2

theorem covers_append {spans spans' : List (α × α)} {a : α} :
    Covers (spans ++ spans') a ↔ Covers spans a ∨ Covers spans' a := by
  simp only [Covers, List.mem_append, or_and_right, exists_or]

theorem covers_singleton {s : α × α} {a : α} : Covers [s] a ↔ s.1 ≤ a ∧ a ≤ s.2 := by
  simp [Covers]

variable [SuccOrder α] [PredOrder α]

/-- A span after the others, joined to the last where it follows on from it. -/
def push (spans : List (α × α)) (start finish : α) : List (α × α) :=
  match spans.getLast? with
  | none => [(start, finish)]
  | some last =>
    if Order.succ last.2 = start then spans.dropLast ++ [(last.1, finish)]
    else spans ++ [(start, finish)]

/-- The spans of `on`, each running to the point before the next, or to `last`. -/
def collect (on : α → Bool) (last : α) : List (α × α) → List α → List (α × α)
  | spans, [] => spans
  | spans, start :: rest =>
    collect on last
      (if on start then push spans start ((rest.head?.map Order.pred).getD last) else spans) rest

/-- The spans run forwards. -/
def Ordered (spans : List (α × α)) : Prop := ∀ s ∈ spans, s.1 ≤ s.2

omit [PredOrder α] in
theorem push_spec {spans : List (α × α)} {start finish : α} (h : Ordered spans)
    (hspan : start ≤ finish) :
    Ordered (push spans start finish) ∧
      ∀ a, Covers (push spans start finish) a ↔ Covers spans a ∨ start ≤ a ∧ a ≤ finish := by
  have happend : Ordered (spans ++ [(start, finish)]) ∧ ∀ a,
      Covers (spans ++ [(start, finish)]) a ↔ Covers spans a ∨ start ≤ a ∧ a ≤ finish := by
    refine ⟨?_, fun a => covers_append.trans (or_congr_right covers_singleton)⟩
    intro s hs
    rcases List.mem_append.mp hs with hs | hs
    · exact h s hs
    · rw [List.mem_singleton.mp hs]
      exact hspan
  rw [push]
  cases hlast : spans.getLast? with
  | none =>
    obtain rfl : spans = [] := List.getLast?_eq_none_iff.mp hlast
    exact happend
  | some last =>
    have hsplit : spans = spans.dropLast ++ [last] :=
      (List.dropLast_append_getLast? last hlast).symm
    have hordered : last.1 ≤ last.2 := by
      apply h
      rw [hsplit]
      exact List.mem_append_right _ List.mem_cons_self
    dsimp only
    split
    · rename_i hnext
      have hjoin : last.2 ≤ finish := (Order.le_succ last.2).trans (hnext.trans_le hspan)
      constructor
      · intro s hs
        rcases List.mem_append.mp hs with hs | hs
        · exact h s (List.dropLast_subset _ hs)
        · rw [List.mem_singleton.mp hs]
          exact hordered.trans hjoin
      · intro a
        rw [hsplit, covers_append, covers_append, covers_singleton, covers_singleton,
          List.dropLast_concat, or_assoc]
        refine or_congr_right ⟨?_, ?_⟩
        · rintro ⟨hfrom, hto⟩
          rcases le_or_gt a last.2 with ha | ha
          · exact Or.inl ⟨hfrom, ha⟩
          · exact Or.inr ⟨hnext ▸ Order.succ_le_of_lt ha, hto⟩
        · rintro (⟨hfrom, hto⟩ | ⟨hfrom, hto⟩)
          · exact ⟨hfrom, hto.trans hjoin⟩
          · exact ⟨hordered.trans ((Order.le_succ last.2).trans (hnext.trans_le hfrom)), hto⟩
    · exact happend

/-- The last of the points up to `a` is one where `on` holds. -/
def OnAt (on : α → Bool) (points : List α) (a : α) : Prop :=
  ∃ p ∈ points, on p = true ∧ p ≤ a ∧ ∀ q ∈ points, q ≤ a → q ≤ p

omit [SuccOrder α] [PredOrder α] in
theorem onAt_cons {on : α → Bool} {start : α} {rest : List α} (hhead : ∀ p ∈ rest, start < p)
    {a : α} : OnAt on (start :: rest) a ↔
      (on start = true ∧ start ≤ a ∧ ∀ q ∈ rest, a < q) ∨ OnAt on rest a := by
  constructor
  · rintro ⟨p, hp, hon, hpa, hlatest⟩
    rcases List.mem_cons.mp hp with rfl | hp
    · left
      refine ⟨hon, hpa, fun q hq => lt_of_not_ge fun hqa => ?_⟩
      exact (hlatest q (List.mem_cons_of_mem _ hq) hqa).not_gt (hhead q hq)
    · right
      exact ⟨p, hp, hon, hpa, fun q hq => hlatest q (List.mem_cons_of_mem _ hq)⟩
  · rintro (⟨hon, hstart, hbefore⟩ | ⟨p, hp, hon, hpa, hlatest⟩)
    · refine ⟨start, List.mem_cons_self, hon, hstart, fun q hq hqa => ?_⟩
      rcases List.mem_cons.mp hq with rfl | hq
      · exact le_rfl
      · exact absurd hqa (hbefore q hq).not_ge
    · refine ⟨p, List.mem_cons_of_mem _ hp, hon, hpa, fun q hq hqa => ?_⟩
      rcases List.mem_cons.mp hq with rfl | hq
      · exact (hhead p hp).le
      · exact hlatest q hq hqa

variable [NoMinOrder α]

omit [SuccOrder α] in
/-- A point's span ends where the next point, if there is one, begins. -/
theorem le_finish_iff {rest : List α} (hsorted : rest.Pairwise (· < ·)) {last : α}
    (hlast : ∀ p ∈ rest, p ≤ last) (a : α) :
    a ≤ (rest.head?.map Order.pred).getD last ↔ a ≤ last ∧ ∀ q ∈ rest, a < q := by
  cases rest with
  | nil => simp
  | cons next rest =>
    have hafter := (List.pairwise_cons.mp hsorted).1
    refine Order.le_pred_iff.trans ⟨fun ha => ⟨?_, ?_⟩, fun h => h.2 next List.mem_cons_self⟩
    · exact ha.le.trans (hlast next List.mem_cons_self)
    · intro q hq
      rcases List.mem_cons.mp hq with rfl | hq
      · exact ha
      · exact ha.trans (hafter q hq)

theorem covers_collect {on : α → Bool} {last : α} {points : List α}
    (hsorted : points.Pairwise (· < ·)) (hlast : ∀ p ∈ points, p ≤ last) {spans : List (α × α)}
    (hspans : Ordered spans) (a : α) :
    Covers (collect on last spans points) a ↔ Covers spans a ∨ a ≤ last ∧ OnAt on points a := by
  induction points generalizing spans with
  | nil => simp [collect, OnAt]
  | cons start rest ih =>
    obtain ⟨hhead, hrest⟩ := List.pairwise_cons.mp hsorted
    have hrestLast : ∀ p ∈ rest, p ≤ last := fun p hp => hlast p (List.mem_cons_of_mem _ hp)
    have hend := le_finish_iff hrest hrestLast
    have hspan : start ≤ (rest.head?.map Order.pred).getD last :=
      (hend start).mpr ⟨hlast start List.mem_cons_self, hhead⟩
    rw [collect, onAt_cons hhead]
    cases hon : on start with
    | false =>
      simp only [Bool.false_eq_true, if_false, false_and, false_or]
      exact ih hrest hrestLast hspans
    | true =>
      have hpush := push_spec hspans hspan
      simp only [if_true, true_and]
      rw [ih hrest hrestLast hpush.1, hpush.2, hend, or_assoc]
      tauto

/-- Where `on` changes only at the points, the spans cover just where it holds. -/
theorem covers_collect_nil {on : α → Bool} {last : α} {points : List α}
    (hsorted : points.Pairwise (· < ·)) (hlast : ∀ p ∈ points, p ≤ last) {a : α}
    (hquiet : a ≤ last → (∀ p ∈ points, a < p) → on a = false)
    (hsteady : a ≤ last → ∀ p ∈ points, p ≤ a → (∀ q ∈ points, q ≤ a → q ≤ p) → on a = on p) :
    Covers (collect on last [] points) a ↔ a ≤ last ∧ on a = true := by
  have hnone : ¬ Covers ([] : List (α × α)) a := by simp [Covers]
  rw [covers_collect hsorted hlast (by simp [Ordered])]
  simp only [hnone, false_or]
  refine and_congr_right fun ha => ?_
  specialize hquiet ha
  specialize hsteady ha
  constructor
  · rintro ⟨p, hp, hon, hpa, hlatest⟩
    rw [hsteady p hp hpa hlatest]
    exact hon
  · intro hon
    have hsome : ∃ p ∈ points, p ≤ a := by
      by_contra hno
      rw [hquiet fun p hp => lt_of_not_ge fun hpa => hno ⟨p, hp, hpa⟩] at hon
      cases hon
    obtain ⟨p, hp, hgreatest⟩ : ∃ p ∈ points.filter (· ≤ a), ∀ q ∈ points.filter (· ≤ a), q ≤ p := by
      obtain ⟨p, hp, hpa⟩ := hsome
      have hne : (points.filter (· ≤ a)).toFinset.Nonempty :=
        ⟨p, List.mem_toFinset.mpr (List.mem_filter.mpr ⟨hp, decide_eq_true hpa⟩)⟩
      refine ⟨_, List.mem_toFinset.mp (Finset.max'_mem _ hne), fun q hq => ?_⟩
      exact Finset.le_max' _ q (List.mem_toFinset.mpr hq)
    simp only [List.mem_filter, decide_eq_true_eq, and_imp] at hp hgreatest
    refine ⟨p, hp.1, ?_, hp.2, hgreatest⟩
    rw [← hsteady p hp.1 hp.2 hgreatest]
    exact hon

end Spans
