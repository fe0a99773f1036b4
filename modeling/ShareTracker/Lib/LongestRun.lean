import Mathlib.Data.List.Induction

/-!
# The longest run of a list

A run is a stretch of consecutive elements that all satisfy a condition. One
scan keeps the run it is in and the first of the longest runs it has passed.
-/
namespace LongestRun

variable {α : Type*} (p : α → Bool)

/-- The stretch of `cs` between `before` and `after` is a run. -/
structure IsRun (cs before r after : List α) : Prop where
  split : cs = before ++ r ++ after
  all : ∀ a ∈ r, p a = true

/-- A run with no longer one anywhere, nor one as long before it. -/
structure IsFirstLongest (cs before r after : List α) : Prop extends IsRun p cs before r after where
  first : ∀ before' r' after', IsRun p cs before' r' after' →
    r'.length ≤ r.length ∧ (r'.length = r.length → before.length ≤ before'.length)

/-- The run the scan is in, and the best one so far. -/
structure Scan (α : Type*) where
  current : List α
  best : List α

def Scan.start : Scan α := ⟨[], []⟩

def Scan.step (s : Scan α) (a : α) : Scan α :=
  if p a then
    ⟨s.current ++ [a],
      if s.best.length < (s.current ++ [a]).length then s.current ++ [a] else s.best⟩
  else ⟨[], s.best⟩

def scan (cs : List α) : Scan α := cs.foldl (Scan.step p) .start

variable {p}

theorem IsRun.length_le {cs before r after : List α} (h : IsRun p cs before r after) :
    before.length + r.length ≤ cs.length := by
  rw [h.split, List.length_append, List.length_append]
  omega

/-- A run of a longer list ends before the last element, or is the end of it. -/
theorem IsRun.of_concat {cs before r after : List α} {a : α}
    (h : IsRun p (cs ++ [a]) before r after) :
    (∃ after', IsRun p cs before r after') ∨ (after = [] ∧ before ++ r = cs ++ [a]) := by
  cases after using List.reverseRecOn with
  | nil => exact Or.inr ⟨rfl, by rw [h.split, List.append_nil]⟩
  | append_singleton after last =>
    have hsplit := h.split
    rw [← List.append_assoc] at hsplit
    exact Or.inl ⟨after, (List.append_inj_left' hsplit rfl), h.all⟩

/-- What the scan keeps: the longest run that ends here, and the first longest. -/
structure Kept (cs : List α) (s : Scan α) : Prop where
  current : ∃ before, IsRun p cs before s.current [] ∧
    ∀ before' r', IsRun p cs before' r' [] → r'.length ≤ s.current.length
  best : ∃ before after, IsFirstLongest p cs before s.best after

theorem kept_step {cs : List α} {s : Scan α} (h : Kept (p := p) cs s) (a : α) :
    Kept (p := p) (cs ++ [a]) (s.step p a) := by
  obtain ⟨⟨start, hcurrent, hends⟩, before, after, hbest⟩ := h
  have hwithin := hbest.toIsRun.length_le
  cases ha : p a with
  | false =>
    have hnil : ∀ before' r', IsRun p (cs ++ [a]) before' r' [] → r' = [] := by
      intro before' r' hr
      cases r' using List.reverseRecOn with
      | nil => rfl
      | append_singleton r' last =>
        have hsplit := hr.split
        rw [List.append_nil, ← List.append_assoc] at hsplit
        obtain rfl : a = last := by simpa using List.append_inj_right' hsplit rfl
        have hlast := hr.all a (by simp)
        rw [ha] at hlast
        cases hlast
    rw [Scan.step, ha, if_neg Bool.false_ne_true]
    refine ⟨⟨cs ++ [a], ⟨by simp, by simp⟩, fun before' r' hr => by simp [hnil before' r' hr]⟩,
      before, after ++ [a], ⟨?_, hbest.all⟩, fun before' r' after' hr => ?_⟩
    · rw [hbest.split]
      simp
    · rcases hr.of_concat with ⟨after'', hr'⟩ | ⟨rfl, hend⟩
      · exact hbest.first before' r' after'' hr'
      · obtain rfl := hnil before' r' hr
        have hlength := congrArg List.length hend
        simp only [List.length_append, List.length_cons, List.length_nil] at hlength ⊢
        omega
  | true =>
    have hgrown : ∀ before' r', IsRun p (cs ++ [a]) before' r' [] →
        r'.length ≤ (s.current ++ [a]).length := by
      intro before' r' hr
      cases r' using List.reverseRecOn with
      | nil => simp
      | append_singleton r' last =>
        have hsplit := hr.split
        rw [List.append_nil, ← List.append_assoc] at hsplit
        have hcs : cs = before' ++ r' := List.append_inj_left' hsplit rfl
        have hle := hends before' r' ⟨by rw [hcs, List.append_nil],
          fun b hb => hr.all b (List.mem_append_left _ hb)⟩
        simp only [List.length_append, List.length_cons, List.length_nil]
        omega
    have hrun : IsRun p (cs ++ [a]) start (s.current ++ [a]) [] := by
      refine ⟨by rw [hcurrent.split]; simp, fun b hb => ?_⟩
      rcases List.mem_append.mp hb with hb | hb
      · exact hcurrent.all b hb
      · rwa [List.mem_singleton.mp hb]
    rw [Scan.step, ha, if_pos rfl]
    refine ⟨⟨start, hrun, hgrown⟩, ?_⟩
    split
    · rename_i hlonger
      refine ⟨start, [], hrun, fun before' r' after' hr => ?_⟩
      rcases hr.of_concat with ⟨after'', hr'⟩ | ⟨rfl, hend⟩
      · have hle := (hbest.first before' r' after'' hr').1
        simp only
        omega
      · have hle := hgrown before' r' hr
        have hlength := congrArg List.length hend
        have hwhole := congrArg List.length hrun.split
        simp only [List.length_append, List.length_cons, List.length_nil] at hlength hwhole hle ⊢
        omega
    · rename_i hshorter
      refine ⟨before, after ++ [a], ⟨by rw [hbest.split]; simp, hbest.all⟩,
        fun before' r' after' hr => ?_⟩
      rcases hr.of_concat with ⟨after'', hr'⟩ | ⟨rfl, hend⟩
      · exact hbest.first before' r' after'' hr'
      · have hle := hgrown before' r' hr
        have hlength := congrArg List.length hend
        simp only [List.length_append, List.length_cons, List.length_nil] at hlength hle hshorter ⊢
        omega

theorem kept_scan (cs : List α) : Kept (p := p) cs (scan p cs) := by
  induction cs using List.reverseRecOn with
  | nil =>
    have hempty : ∀ before' r' after' : List α, IsRun p [] before' r' after' → r' = [] := by
      intro before' r' after' hr
      exact (List.append_eq_nil_iff.mp (List.append_eq_nil_iff.mp hr.split.symm).1).2
    refine ⟨⟨[], ⟨rfl, by simp [scan, Scan.start]⟩, fun before' r' hr => ?_⟩, [], [],
      ⟨rfl, by simp [scan, Scan.start]⟩, fun before' r' after' hr => ?_⟩
    · simp [hempty before' r' [] hr]
    · simp [hempty before' r' after' hr]
  | append_singleton cs a ih =>
    have hstep : scan p (cs ++ [a]) = (scan p cs).step p a := by simp [scan]
    rw [hstep]
    exact kept_step ih a

/-- The scan's best run is the first of the longest. -/
theorem scan_best (cs : List α) : ∃ before after, IsFirstLongest p cs before (scan p cs).best after :=
  (kept_scan cs).best

/-- The first of the longest runs is one only. -/
theorem IsFirstLongest.unique {cs before r after before' r' after' : List α}
    (h : IsFirstLongest p cs before r after) (h' : IsFirstLongest p cs before' r' after') :
    r = r' := by
  have hle := h.first before' r' after' h'.toIsRun
  have hle' := h'.first before r after h.toIsRun
  have hlength : r.length = r'.length := by omega
  have hstart : before.length = before'.length := by omega
  have hsplit := h.split.symm.trans h'.split
  rw [List.append_assoc, List.append_assoc] at hsplit
  exact List.append_inj_left (List.append_inj_right hsplit hstart) hlength

end LongestRun
