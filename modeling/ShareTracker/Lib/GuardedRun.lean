import Mathlib

/-!
# Runs of accepted steps

A machine takes steps that it may refuse. A run is a list of accepted steps; it
meets a condition when each of its steps does in the state it is taken from.
-/
namespace GuardedRun

variable {σ ι ε : Type*} (step : σ → ι → Except ε σ)

/-- The state after a list of accepted steps. -/
def run (s : σ) : List ι → Except ε σ
  | [] => .ok s
  | e :: es =>
    match step s e with
    | .ok s' => run s' es
    | .error r => .error r

/-- Whether each step of a run meets the condition in the state it starts from. -/
def meets (good : σ → ι → Bool) (s : σ) : List ι → Bool
  | [] => true
  | e :: es =>
    good s e &&
      match step s e with
      | .ok s' => meets good s' es
      | .error _ => true

variable {step}

theorem run_cons {s s' : σ} {e : ι} {es : List ι} :
    run step s (e :: es) = .ok s' ↔ ∃ m, step s e = .ok m ∧ run step m es = .ok s' := by
  rw [run]
  cases h : step s e with
  | error r => simp
  | ok m => simp

variable {good : σ → ι → Bool}

theorem meets_cons {s s' : σ} {e : ι} {es : List ι} (h : meets step good s (e :: es) = true)
    (hstep : step s e = .ok s') : good s e = true ∧ meets step good s' es = true := by
  rw [meets, hstep] at h
  exact (Bool.and_eq_true _ _).mp h

theorem meets_append {s m : σ} {es fs : List ι} (h : meets step good s (es ++ fs) = true)
    (hrun : run step s es = .ok m) :
    meets step good s es = true ∧ meets step good m fs = true := by
  induction es generalizing s with
  | nil =>
    obtain rfl : s = m := Except.ok.inj hrun
    exact ⟨rfl, h⟩
  | cons e es ih =>
    obtain ⟨a, ha, hrest⟩ := run_cons.mp hrun
    obtain ⟨hgood, hmeets⟩ := meets_cons h ha
    obtain ⟨hes, hfs⟩ := ih hmeets hrest
    refine ⟨?_, hfs⟩
    rw [meets, ha]
    exact (Bool.and_eq_true _ _).mpr ⟨hgood, hes⟩

/-- What every step that meets the condition keeps holds at the end of a run
whose steps all meet it. -/
theorem invariant {Inv : σ → Prop}
    (keeps : ∀ s e s', Inv s → good s e = true → step s e = .ok s' → Inv s') {s s' : σ}
    {es : List ι} (hs : Inv s) (hmeets : meets step good s es = true)
    (hrun : run step s es = .ok s') : Inv s' := by
  induction es generalizing s with
  | nil =>
    obtain rfl : s = s' := Except.ok.inj hrun
    exact hs
  | cons e es ih =>
    obtain ⟨m, hm, hrest⟩ := run_cons.mp hrun
    obtain ⟨hgood, hmeets⟩ := meets_cons hmeets hm
    exact ih (keeps s e m hs hgood hm) hmeets hrest

/-- Where a step keeps a property exactly when it meets the condition, a run
meets it exactly when every state it passes has the property. -/
theorem meets_iff_states {Inv : σ → Prop}
    (exact : ∀ s e s', Inv s → step s e = .ok s' → (Inv s' ↔ good s e = true)) {s s' : σ}
    {es : List ι} (hs : Inv s) (hrun : run step s es = .ok s') :
    meets step good s es = true ↔
      ∀ es₁ es₂ m, es = es₁ ++ es₂ → run step s es₁ = .ok m → Inv m := by
  constructor
  · rintro hmeets es₁ es₂ m rfl hm
    exact invariant (fun _ _ _ h hgood hstep => (exact _ _ _ h hstep).mpr hgood) hs
      (meets_append hmeets hm).1 hm
  · intro hall
    induction es generalizing s with
    | nil => rfl
    | cons e es ih =>
      obtain ⟨m, hm, hrest⟩ := run_cons.mp hrun
      have hinv : Inv m := hall [e] es m rfl (run_cons.mpr ⟨m, hm, rfl⟩)
      rw [meets, hm]
      refine (Bool.and_eq_true _ _).mpr ⟨(exact _ _ _ hs hm).mp hinv, ih hinv hrest ?_⟩
      rintro es₁ es₂ m' rfl hm'
      exact hall (e :: es₁) es₂ m' rfl (run_cons.mpr ⟨m, hm, hm'⟩)

end GuardedRun
