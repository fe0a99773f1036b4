import Mathlib

/-! # Computations that check before they answer -/
namespace Checked

variable {ε α : Type*}

/-- Refuse with `e` where `c` holds. -/
def refuseIf (c : Prop) [Decidable c] (e : ε) : Except ε Unit := if c then .error e else .ok ()

def orRefuse (o : Option α) (e : ε) : Except ε α := o.elim (.error e) .ok

/-- Refuse with the error found, where there is one. -/
def refuseSome (o : Option ε) : Except ε Unit := o.elim (.ok ()) .error

/-- The condition itself, refused with `e` where it fails. -/
def ensure (c : Prop) [Decidable c] (e : ε) : Except ε (PLift c) :=
  if h : c then .ok ⟨h⟩ else .error e

/-- A computation's value, with the fact that it answered it. -/
def answered (x : Except ε α) : Except ε { a : α // x = .ok a } :=
  match x with
  | .ok a => .ok ⟨a, rfl⟩
  | .error e => .error e

theorem refuseIf_ok {c : Prop} [Decidable c] {e : ε} {u : Unit} : refuseIf c e = .ok u ↔ ¬ c := by
  unfold refuseIf
  split
  · rename_i h
    exact ⟨nofun, fun hn => absurd h hn⟩
  · rename_i h
    exact ⟨fun _ => h, fun _ => rfl⟩

theorem orRefuse_ok {o : Option α} {e : ε} {a : α} : orRefuse o e = .ok a ↔ o = some a := by
  cases o with
  | none => exact ⟨nofun, nofun⟩
  | some b => exact ⟨fun h => congrArg some (Except.ok.inj h), fun h => congrArg Except.ok (Option.some.inj h)⟩

/-- Whether a computation answers, and with a value that passes. -/
def accepts (x : Except ε α) (p : α → Bool) : Bool :=
  match x with
  | .ok a => p a
  | .error _ => false

theorem accepts_iff {x : Except ε α} {p : α → Bool} :
    accepts x p = true ↔ ∃ a, x = .ok a ∧ p a = true := by
  cases x with
  | error e => exact ⟨nofun, nofun⟩
  | ok a => exact ⟨fun h => ⟨a, rfl, h⟩, fun ⟨b, hb, h⟩ => Except.ok.inj hb ▸ h⟩

theorem exists_ok {x : Except ε α} (h : accepts x (fun _ => true) = true) : ∃ a, x = .ok a :=
  (accepts_iff.mp h).imp fun _ => And.left

theorem bind_ok {ε : Type*} {α β : Type} {x : Except ε α} {f : α → Except ε β} {b : β}
    (h : x >>= f = .ok b) : ∃ a, x = .ok a ∧ f a = .ok b := by
  cases x with
  | error e => cases h
  | ok a => exact ⟨a, rfl, h⟩

theorem bind_ok_iff {ε : Type*} {α β : Type} {x : Except ε α} {f : α → Except ε β} {b : β} :
    x >>= f = .ok b ↔ ∃ a, x = .ok a ∧ f a = .ok b := by
  constructor
  · exact bind_ok
  · rintro ⟨a, rfl, h⟩
    exact h

theorem mapM_ok {ε : Type*} {α β : Type} {f : α → Except ε β} {l : List α} {bs : List β}
    (h : l.mapM f = .ok bs) : List.Forall₂ (fun a b => f a = .ok b) l bs := by
  induction l generalizing bs with
  | nil =>
    cases h
    exact .nil
  | cons a l ih =>
    rw [List.mapM_cons] at h
    obtain ⟨b, hb, h⟩ := bind_ok h
    obtain ⟨bs', hbs, h⟩ := bind_ok h
    cases h
    exact .cons hb (ih hbs)

theorem mapM_ok_iff {ε : Type*} {α β : Type} {f : α → Except ε β} {l : List α} {bs : List β} :
    l.mapM f = .ok bs ↔ List.Forall₂ (fun a b => f a = .ok b) l bs := by
  constructor
  · exact mapM_ok
  · intro h
    induction h with
    | nil => rfl
    | cons hab _ ih =>
      rw [List.mapM_cons, hab, ih]
      rfl

theorem mem_mapM_ok {ε : Type*} {α β : Type} {f : α → Except ε β} {l : List α} {bs : List β}
    (h : l.mapM f = .ok bs) {b : β} (hb : b ∈ bs) : ∃ a ∈ l, f a = .ok b := by
  have hall := mapM_ok h
  clear h
  induction hall with
  | nil => cases hb
  | cons hab _ ih =>
    rcases List.mem_cons.mp hb with rfl | hb
    · exact ⟨_, List.mem_cons_self, hab⟩
    · exact (ih hb).imp fun _ ⟨ha, hfa⟩ => ⟨List.mem_cons_of_mem _ ha, hfa⟩

theorem mem_mapM_some {α β : Type} {f : α → Option β} {l : List α} {bs : List β}
    (h : l.mapM f = some bs) {b : β} (hb : b ∈ bs) : ∃ a ∈ l, f a = some b := by
  induction l generalizing bs with
  | nil =>
    obtain rfl := Option.some.inj h
    cases hb
  | cons a l ih =>
    rw [List.mapM_cons] at h
    obtain ⟨b', hb', h⟩ := Option.bind_eq_some_iff.mp h
    obtain ⟨bs', hbs', h⟩ := Option.bind_eq_some_iff.mp h
    obtain rfl := Option.some.inj h
    cases hb with
    | head => exact ⟨a, List.mem_cons_self, hb'⟩
    | tail _ hb =>
      obtain ⟨a', ha', hf⟩ := ih hbs' hb
      exact ⟨a', List.mem_cons_of_mem a ha', hf⟩

theorem exists_mapM {ε : Type*} {α β : Type} {f : α → Except ε β} {l : List α}
    (h : ∀ a ∈ l, ∃ b, f a = .ok b) : ∃ bs, l.mapM f = .ok bs := by
  induction l with
  | nil => exact ⟨[], rfl⟩
  | cons a l ih =>
    obtain ⟨b, hb⟩ := h a List.mem_cons_self
    obtain ⟨bs, hbs⟩ := ih fun a ha => h a (List.mem_cons_of_mem _ ha)
    refine ⟨b :: bs, ?_⟩
    rw [List.mapM_cons, hb, hbs]
    rfl

theorem exists_mem_mapM {ε : Type*} {α β : Type} {f : α → Except ε β} {l : List α} {bs : List β}
    (h : l.mapM f = .ok bs) {a : α} (ha : a ∈ l) : ∃ b ∈ bs, f a = .ok b := by
  have hall := mapM_ok h
  clear h
  induction hall with
  | nil => cases ha
  | cons hab _ ih =>
    rcases List.mem_cons.mp ha with rfl | ha
    · exact ⟨_, List.mem_cons_self, hab⟩
    · exact (ih ha).imp fun _ ⟨hb, hfb⟩ => ⟨List.mem_cons_of_mem _ hb, hfb⟩

/-- What the items' own computations decide about each answer, they decide about all. -/
theorem mapM_forall_iff {ε : Type*} {α β : Type} {f : α → Except ε β} {l : List α} {bs : List β}
    {P : β → Prop} {Q : α → Prop} (h : l.mapM f = .ok bs)
    (hf : ∀ a ∈ l, ∀ b, f a = .ok b → (P b ↔ Q a)) : (∀ b ∈ bs, P b) ↔ ∀ a ∈ l, Q a := by
  have hall := mapM_ok h
  clear h
  induction hall with
  | nil => simp
  | cons hab _ ih =>
    have hhead := hf _ List.mem_cons_self _ hab
    have htail := ih fun a ha => hf a (List.mem_cons_of_mem _ ha)
    exact List.forall_mem_cons.trans ((and_congr hhead htail).trans List.forall_mem_cons.symm)

theorem mapError_ok {ε ε' α : Type*} {f : ε → ε'} {x : Except ε α} {a : α} :
    x.mapError f = .ok a ↔ x = .ok a := by
  cases x with
  | error e => exact ⟨nofun, nofun⟩
  | ok b => exact ⟨fun h => congrArg Except.ok (Except.ok.inj h), fun h => congrArg Except.ok (Except.ok.inj h)⟩

end Checked
