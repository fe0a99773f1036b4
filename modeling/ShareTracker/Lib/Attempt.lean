import Mathlib

/-!
# Computations that may refuse, and may round

An attempt answers a value or a refusal, beside whether every operation on the
way was exact. `Yields` is an accepted answer reached exactly.
-/

structure Attempt (ε : Type*) (α : Type*) where
  answer : Except ε α
  exact : Bool

namespace Attempt

variable {ε : Type*} {α β : Type*}

def refuse (e : ε) : Attempt ε α := ⟨.error e, true⟩

protected def bind (x : Attempt ε α) (f : α → Attempt ε β) : Attempt ε β :=
  match x.answer with
  | .error e => ⟨.error e, x.exact⟩
  | .ok a => ⟨(f a).answer, x.exact && (f a).exact⟩

instance : Monad (Attempt ε) where
  pure a := ⟨.ok a, true⟩
  bind := Attempt.bind

/-- Refuse with `e` where `c` holds. -/
def refuseIf (c : Prop) [Decidable c] (e : ε) : Attempt ε Unit := if c then refuse e else pure ()

/-- The value, or a refusal where there is none. -/
def orRefuse (o : Option α) (e : ε) : Attempt ε α := o.elim (refuse e) pure

/-- `x` accepts with `a`, and nothing rounded on the way. -/
def Yields (x : Attempt ε α) (a : α) : Prop := x.answer = .ok a ∧ x.exact = true

theorem yields_pure {a b : α} : (pure a : Attempt ε α).Yields b ↔ a = b := by
  constructor
  · intro h
    exact Except.ok.inj h.1
  · rintro rfl
    exact ⟨rfl, rfl⟩

theorem not_yields_refuse {e : ε} {a : α} : ¬ (refuse e).Yields a := by
  intro h
  cases h.1

theorem yields_refuseIf {c : Prop} [Decidable c] {e : ε} {u : Unit} :
    (refuseIf c e).Yields u ↔ ¬ c := by
  unfold refuseIf
  split
  · rename_i h
    exact ⟨fun hy => absurd hy not_yields_refuse, fun hn => absurd h hn⟩
  · rename_i h
    exact ⟨fun _ => h, fun _ => yields_pure.mpr rfl⟩

theorem yields_orRefuse {o : Option α} {e : ε} {a : α} : (orRefuse o e).Yields a ↔ o = some a := by
  cases o with
  | none => exact ⟨fun h => absurd h not_yields_refuse, fun h => nomatch h⟩
  | some b => exact yields_pure.trans (Option.some_inj).symm

theorem yields_bind {α β : Type _} {x : Attempt ε α} {f : α → Attempt ε β} {b : β} :
    (x >>= f).Yields b ↔ ∃ a, x.Yields a ∧ (f a).Yields b := by
  change (Attempt.bind x f).Yields b ↔ _
  unfold Attempt.bind Yields
  cases h : x.answer with
  | error e => simp
  | ok a =>
    constructor
    · rintro ⟨hb, hexact⟩
      obtain ⟨hx, hf⟩ := (Bool.and_eq_true _ _).mp hexact
      exact ⟨a, ⟨rfl, hx⟩, hb, hf⟩
    · rintro ⟨a', ⟨ha, hx⟩, hb, hf⟩
      cases ha
      exact ⟨hb, (Bool.and_eq_true _ _).mpr ⟨hx, hf⟩⟩

instance lawfulMonad : LawfulMonad (Attempt ε) := by
  refine LawfulMonad.mk' _ (fun x => ?_) (fun a f => ?_) (fun x f g => ?_)
  · obtain ⟨_ | a, exact⟩ := x
    · rfl
    · exact congrArg (Attempt.mk (.ok a)) (Bool.and_true exact)
  · exact congrArg (Attempt.mk _) (Bool.true_and _)
  · obtain ⟨_ | a, exact⟩ := x
    · rfl
    · change Attempt.bind (Attempt.mk (f a).answer (exact && (f a).exact)) g =
        Attempt.mk (Attempt.bind (f a) g).answer (exact && (Attempt.bind (f a) g).exact)
      unfold Attempt.bind
      cases (f a).answer with
      | error e => rfl
      | ok b => exact congrArg (Attempt.mk _) (Bool.and_assoc exact _ _)

theorem yields_mapM {α β : Type _} {f : α → Attempt ε β} {l : List α} {bs : List β}
    (h : (l.mapM f).Yields bs) : List.Forall₂ (fun a b => (f a).Yields b) l bs := by
  induction l generalizing bs with
  | nil =>
    rw [List.mapM_nil] at h
    exact yields_pure.mp h ▸ .nil
  | cons a l ih =>
    rw [List.mapM_cons] at h
    obtain ⟨b, hb, h⟩ := yields_bind.mp h
    obtain ⟨bs', hbs, h⟩ := yields_bind.mp h
    exact yields_pure.mp h ▸ .cons hb (ih hbs)

/-! ### Accepted answers, exact or not -/

theorem answer_pure {a b : α} : (pure a : Attempt ε α).answer = .ok b ↔ a = b :=
  ⟨Except.ok.inj, fun h => h ▸ rfl⟩

theorem answer_refuseIf {c : Prop} [Decidable c] {e : ε} {u : Unit} :
    (refuseIf c e).answer = .ok u ↔ ¬ c := by
  unfold refuseIf
  split
  · rename_i h
    exact ⟨nofun, fun hn => absurd h hn⟩
  · rename_i h
    exact ⟨fun _ => h, fun _ => rfl⟩

theorem answer_orRefuse {o : Option α} {e : ε} {a : α} :
    (orRefuse o e).answer = .ok a ↔ o = some a := by
  cases o with
  | none => exact ⟨nofun, nofun⟩
  | some b => exact answer_pure.trans (Option.some_inj).symm

theorem answer_bind {α β : Type _} {x : Attempt ε α} {f : α → Attempt ε β} {b : β} :
    (x >>= f).answer = .ok b ↔ ∃ a, x.answer = .ok a ∧ (f a).answer = .ok b := by
  change (Attempt.bind x f).answer = .ok b ↔ _
  unfold Attempt.bind
  cases h : x.answer with
  | error e => simp
  | ok a => simp

theorem answer_bind_of {α β : Type _} {x : Attempt ε α} {f : α → Attempt ε β} {a : α}
    (h : x.answer = .ok a) : (x >>= f).answer = (f a).answer := by
  change (Attempt.bind x f).answer = _
  rw [Attempt.bind, h]

theorem answer_forM {α : Type _} {l : List α} {f : α → Attempt ε PUnit} {u : PUnit}
    (h : (l.forM f).answer = .ok u) : ∀ a ∈ l, (f a).answer = .ok u := by
  induction l with
  | nil => exact fun a ha => absurd ha List.not_mem_nil
  | cons b l ih =>
    change (f b >>= fun _ => l.forM f).answer = .ok u at h
    obtain ⟨_, hb, h⟩ := answer_bind.mp h
    intro a ha
    rcases List.mem_cons.mp ha with rfl | ha
    · exact hb
    · exact ih h a ha

/-- What each accepted step of a loop keeps, the loop keeps. -/
theorem answer_foldlM {α σ : Type _} {Inv : σ → Prop} {f : σ → α → Attempt ε σ} {l : List α}
    (keeps : ∀ s, Inv s → ∀ a ∈ l, ∀ s', (f s a).answer = .ok s' → Inv s') {s s' : σ} (hs : Inv s)
    (h : (l.foldlM f s).answer = .ok s') : Inv s' := by
  induction l generalizing s with
  | nil => exact answer_pure.mp h ▸ hs
  | cons a l ih =>
    rw [List.foldlM_cons] at h
    obtain ⟨mid, hmid, h⟩ := answer_bind.mp h
    exact ih (fun s hs b hb => keeps s hs b (List.mem_cons_of_mem a hb))
      (keeps s hs a List.mem_cons_self mid hmid) h

/-- The same attempt, where rounding is what is asked for. -/
def asPrinted (x : Attempt ε α) : Attempt ε α := ⟨x.answer, true⟩

theorem yields_asPrinted {x : Attempt ε α} {a : α} : x.asPrinted.Yields a ↔ x.answer = .ok a :=
  ⟨And.left, fun h => ⟨h, rfl⟩⟩

/-- What the attempt answers, or `d`. -/
def answerD (x : Attempt ε α) (d : α) : α := x.answer.toOption.getD d

theorem answerD_eq {x : Attempt ε α} {a : α} (h : x.answer = .ok a) (d : α) : x.answerD d = a := by
  rw [answerD, h]
  rfl

/-- Whether the attempt is accepted exactly. -/
def succeeds (x : Attempt ε α) : Bool := x.exact && x.answer.toOption.isSome

theorem succeeds_iff {x : Attempt ε α} : x.succeeds = true ↔ ∃ a, x.Yields a := by
  unfold succeeds Yields
  cases x.answer with
  | error e => simp [Except.toOption]
  | ok a => simp [Except.toOption]

/-- The same attempt, its refusals named otherwise. -/
def mapError {ε' : Type*} (f : ε → ε') (x : Attempt ε α) : Attempt ε' α :=
  ⟨x.answer.mapError f, x.exact⟩

theorem yields_mapError {ε' : Type*} {f : ε → ε'} {x : Attempt ε α} {a : α} :
    (mapError f x).Yields a ↔ x.Yields a := by
  refine and_congr_left fun _ => ?_
  change x.answer.mapError f = .ok a ↔ x.answer = .ok a
  cases x.answer with
  | error e => exact ⟨nofun, nofun⟩
  | ok b => exact ⟨fun h => congrArg Except.ok (Except.ok.inj h), fun h => congrArg Except.ok (Except.ok.inj h)⟩

theorem yields_forM {α : Type _} {l : List α} {f : α → Attempt ε PUnit} {u : PUnit}
    (h : (l.forM f).Yields u) : ∀ a ∈ l, (f a).Yields u := by
  induction l with
  | nil => exact fun a ha => absurd ha List.not_mem_nil
  | cons b l ih =>
    change (f b >>= fun _ => l.forM f).Yields u at h
    obtain ⟨_, hb, h⟩ := yields_bind.mp h
    intro a ha
    rcases List.mem_cons.mp ha with rfl | ha
    · exact hb
    · exact ih h a ha

end Attempt
