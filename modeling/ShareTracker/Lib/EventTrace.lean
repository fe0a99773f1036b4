import Mathlib

/-!
# Runs of a machine that answers

`trace` lists what each event of a run did. What every step keeps holds at
every moment, and a count over a window of time is bounded by what the state
remembers of it.
-/
namespace EventTrace

variable {σ ι ω : Type*}

/-- One event of a run, between the states around it, with its answer. -/
structure Moment (σ ι ω : Type*) where
  before : σ
  event : ι
  after : σ
  answer : ω

variable (step : σ → ι → σ × ω)

def trace (s : σ) : List ι → List (Moment σ ι ω)
  | [] => []
  | e :: es => ⟨s, e, (step s e).1, (step s e).2⟩ :: trace (step s e).1 es

variable {step}

theorem mem_trace {s : σ} {es : List ι} {m : Moment σ ι ω} (h : m ∈ trace step s es) :
    m.event ∈ es ∧ m.after = (step m.before m.event).1 ∧ m.answer = (step m.before m.event).2 := by
  induction es generalizing s with
  | nil => exact absurd h List.not_mem_nil
  | cons e es ih =>
    rcases List.mem_cons.mp h with rfl | h
    · exact ⟨List.mem_cons_self, rfl, rfl⟩
    · obtain ⟨hmem, hrest⟩ := ih h
      exact ⟨List.mem_cons_of_mem e hmem, hrest⟩

theorem eq_of_mem_trace {s : σ} {es : List ι} {m : Moment σ ι ω} (h : m ∈ trace step s es) :
    m = ⟨m.before, m.event, (step m.before m.event).1, (step m.before m.event).2⟩ := by
  obtain ⟨-, hafter, hanswer⟩ := mem_trace h
  rw [← hafter, ← hanswer]

/-- What every step keeps holds before every event of a run. -/
theorem invariant_before {Inv : σ → Prop} (keeps : ∀ s e, Inv s → Inv (step s e).1) {s : σ}
    (hs : Inv s) {es : List ι} {m : Moment σ ι ω} (h : m ∈ trace step s es) : Inv m.before := by
  induction es generalizing s with
  | nil => exact absurd h List.not_mem_nil
  | cons e es ih =>
    rcases List.mem_cons.mp h with rfl | h
    · exact hs
    · exact ih (keeps s e hs) h

section Window
variable {τ : Type*} [LinearOrder τ] (time : ι → τ)

/-- The moments of a run between two instants that are counted. -/
def countedWithin (start finish : τ) (counts : Moment σ ι ω → Bool) (ms : List (Moment σ ι ω)) :
    List (Moment σ ι ω) :=
  ms.filter fun m => decide (start ≤ time m.event) && decide (time m.event ≤ finish) && counts m

variable {time}

theorem countedWithin_late {start finish : τ} {counts : Moment σ ι ω → Bool} {s : σ} {es : List ι}
    (h : ∀ e ∈ es, finish < time e) :
    countedWithin time start finish counts (trace step s es) = [] := by
  refine List.filter_eq_nil_iff.mpr fun m hm => ?_
  have hlate := not_le.mpr (h m.event (mem_trace hm).1)
  simp [hlate]

/-- Where the state remembers a bound on what was counted since the window
opened, the whole window's count is bounded. -/
theorem length_countedWithin_le (Inv : σ → Prop) (remembers : σ → ℕ → Prop)
    {start finish : τ} {bound : ℕ} {counts : Moment σ ι ω → Bool}
    (fresh : ∀ s, remembers s 0) (bounded : ∀ s k, Inv s → remembers s k → k ≤ bound)
    {s : σ} (hs : Inv s) {es : List ι} (hsorted : es.Pairwise fun e f => time e ≤ time f)
    (keeps : ∀ m ∈ trace step s es, Inv m.before → Inv m.after)
    (advance : ∀ m ∈ trace step s es, Inv m.before → start ≤ time m.event →
      time m.event ≤ finish → ∀ k, remembers m.before k →
        remembers m.after (if counts m then k + 1 else k)) :
    (countedWithin time start finish counts (trace step s es)).length ≤ bound := by
  suffices hfrom : ∀ (k : ℕ), remembers s k → (k = 0 ∨ ∀ e ∈ es, start ≤ time e) →
      k + (countedWithin time start finish counts (trace step s es)).length ≤ bound by
    simpa using hfrom 0 (fresh s) (Or.inl rfl)
  induction es generalizing s with
  | nil =>
    intro k hk _
    exact bounded s k hs hk
  | cons e es ih =>
    intro k hk hopen
    obtain ⟨hnext, hsorted⟩ := List.pairwise_cons.mp hsorted
    have hkept : Inv (step s e).1 := keeps _ List.mem_cons_self hs
    have hrest := ih hkept hsorted
      (fun m hm => keeps m (List.mem_cons_of_mem _ hm))
      fun m hm => advance m (List.mem_cons_of_mem _ hm)
    by_cases hstart : start ≤ time e
    · have hlater : ∀ f ∈ es, start ≤ time f := fun f hf => hstart.trans (hnext f hf)
      by_cases hfinish : time e ≤ finish
      · have hstep := advance _ List.mem_cons_self hs hstart hfinish k hk
        have hcount := hrest _ hstep (Or.inr hlater)
        unfold countedWithin at hcount ⊢
        rw [trace, List.filter_cons]
        split at hcount <;> rename_i hc
        · simp only [hstart, hfinish, hc, decide_true, Bool.and_self, if_true, List.length_cons]
          omega
        · simp only [hc, Bool.and_false]
          exact hcount
      · -- nothing from here on lies in the window
        have hnone : countedWithin time start finish counts (trace step s (e :: es)) = [] := by
          refine countedWithin_late fun f hf => ?_
          rcases List.mem_cons.mp hf with rfl | hf
          · exact not_le.mp hfinish
          · exact (not_le.mp hfinish).trans_le (hnext f hf)
        rw [hnone]
        exact bounded s k hs hk
    · obtain rfl : k = 0 := hopen.resolve_right fun h => hstart (h e List.mem_cons_self)
      have hcount := hrest 0 (fresh _) (Or.inl rfl)
      unfold countedWithin at hcount ⊢
      rw [trace, List.filter_cons]
      simp only [hstart, decide_false, Bool.false_and]
      exact hcount

end Window

end EventTrace
