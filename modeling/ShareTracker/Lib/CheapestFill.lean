import Mathlib

/-!
# Filling an amount from lots

Lots have a room and a rate. A choice of amounts within the rooms is cheapest
for its amount exactly when nothing could be moved to a cheaper lot with room
left. Filled in order of rate the lots give the least cost of every amount; as
a function of the amount it is affine between the boundaries of the lots.
-/
namespace CheapestFill

set_option linter.unusedSectionVars false

variable {ι k : Type*} [Field k] [LinearOrder k] [IsStrictOrderedRing k] {room rate : ι → k}
  {lots : List ι} {take : ι → k}

/-! ### Choices -/

/-- Amounts taken of the lots, of none more than its room. -/
structure Within (room : ι → k) (lots : List ι) (take : ι → k) : Prop where
  nonneg : ∀ i ∈ lots, 0 ≤ take i
  le_room : ∀ i ∈ lots, take i ≤ room i

def amount (lots : List ι) (take : ι → k) : k := (lots.map take).sum

def cost (rate : ι → k) (lots : List ι) (take : ι → k) : k := (lots.map fun i => rate i * take i).sum

theorem Within.of_cons {i : ι} (h : Within room (i :: lots) take) : Within room lots take :=
  ⟨fun j hj => h.nonneg j (List.mem_cons_of_mem i hj),
    fun j hj => h.le_room j (List.mem_cons_of_mem i hj)⟩

theorem amount_nonneg_of (hroom : ∀ i ∈ lots, 0 ≤ room i) : 0 ≤ amount lots room :=
  List.sum_nonneg fun x hx => by
    obtain ⟨i, hi, rfl⟩ := List.mem_map.mp hx
    exact hroom i hi

theorem Within.amount_nonneg (h : Within room lots take) : 0 ≤ amount lots take :=
  amount_nonneg_of h.nonneg

theorem Within.amount_le (h : Within room lots take) : amount lots take ≤ amount lots room :=
  List.sum_le_sum h.le_room

theorem amount_perm {lots' : List ι} (h : lots.Perm lots') (take : ι → k) :
    amount lots take = amount lots' take := (h.map take).sum_eq

theorem cost_perm {lots' : List ι} (h : lots.Perm lots') (rate take : ι → k) :
    cost rate lots take = cost rate lots' take := (h.map fun i => rate i * take i).sum_eq

/-- A sum over the lots of one kind. -/
theorem sum_map_ite (keep : ι → Prop) [DecidablePred keep] (lots : List ι) (f : ι → k) :
    (lots.map fun i => if keep i then f i else 0).sum =
      ((lots.filter fun i => decide (keep i)).map f).sum := by
  rw [List.sum_map_ite, List.map_const', List.sum_replicate, smul_zero, add_zero]

theorem amount_append (pre post : List ι) (take : ι → k) :
    amount (pre ++ post) take = amount pre take + amount post take := by
  rw [amount, List.map_append, List.sum_append, amount, amount]

theorem amount_split (lots : List ι) (keep : ι → Bool) (take : ι → k) :
    amount lots take =
      amount (lots.filter fun i => !keep i) take + amount (lots.filter keep) take := by
  rw [add_comm, ← amount_append]
  exact (amount_perm (List.filter_append_perm keep lots) take).symm

/-- Nothing taken could be moved to a cheaper lot with room left. -/
def Unimprovable (room rate : ι → k) (lots : List ι) (take : ι → k) : Prop :=
  ∀ q ∈ lots, ∀ p ∈ lots, 0 < take q → take p < room p → rate q ≤ rate p

/-- A price that every lot taken is worth and no lot with room left is below. -/
theorem exists_price (hrate : ∀ i ∈ lots, 0 ≤ rate i) (h : Unimprovable room rate lots take)
    (hwithin : Within room lots take) :
    ∃ price, 0 ≤ price ∧ ∀ i ∈ lots, (take i = room i ∧ rate i ≤ price) ∨
      (take i = 0 ∧ price ≤ rate i) ∨ rate i = price := by
  have hmax : ∀ l : List ι, ∃ price, 0 ≤ price ∧ (∀ i ∈ l, 0 < take i → rate i ≤ price) ∧
      (price = 0 ∨ ∃ q ∈ l, 0 < take q ∧ price = rate q) := by
    intro l
    induction l with
    | nil => exact ⟨0, le_rfl, fun i hi => absurd hi List.not_mem_nil, .inl rfl⟩
    | cons i l ih =>
      obtain ⟨price, hnonneg, habove, hfrom⟩ := ih
      have hkeep : price = 0 ∨ ∃ q ∈ i :: l, 0 < take q ∧ price = rate q :=
        hfrom.imp_right fun ⟨q, hq, hrest⟩ => ⟨q, List.mem_cons_of_mem i hq, hrest⟩
      by_cases hi : 0 < take i ∧ price < rate i
      · refine ⟨rate i, hnonneg.trans hi.2.le, fun j hj hpos => ?_,
          .inr ⟨i, List.mem_cons_self, hi.1, rfl⟩⟩
        rcases List.mem_cons.mp hj with rfl | hj
        · exact le_rfl
        · exact (habove j hj hpos).trans hi.2.le
      · refine ⟨price, hnonneg, fun j hj hpos => ?_, hkeep⟩
        rcases List.mem_cons.mp hj with rfl | hj
        · exact not_lt.mp fun hlt => hi ⟨hpos, hlt⟩
        · exact habove j hj hpos
  obtain ⟨price, hnonneg, habove, hfrom⟩ := hmax lots
  refine ⟨price, hnonneg, fun i hi => ?_⟩
  have hbelow : take i < room i → price ≤ rate i := by
    intro hroom
    rcases hfrom with rfl | ⟨q, hq, hpos, rfl⟩
    · exact hrate i hi
    · exact h q hq i hi hpos hroom
  rcases (hwithin.nonneg i hi).eq_or_lt with hzero | hpos
  · rcases (hwithin.le_room i hi).eq_or_lt with hfull | hroom
    · rcases le_total (rate i) price with hle | hle
      · exact .inl ⟨hfull, hle⟩
      · exact .inr (.inl ⟨hzero.symm, hle⟩)
    · exact .inr (.inl ⟨hzero.symm, hbelow hroom⟩)
  · rcases (hwithin.le_room i hi).eq_or_lt with hfull | hroom
    · exact .inl ⟨hfull, habove i hi hpos⟩
    · exact .inr (.inr (le_antisymm (habove i hi hpos) (hbelow hroom)))

/-- No choice of as much or more costs less than one that cannot be improved. -/
theorem cost_le_of_unimprovable (hrate : ∀ i ∈ lots, 0 ≤ rate i)
    (h : Unimprovable room rate lots take) (hwithin : Within room lots take) {take' : ι → k}
    (hwithin' : Within room lots take') (hamount : amount lots take ≤ amount lots take') :
    cost rate lots take ≤ cost rate lots take' := by
  obtain ⟨price, hprice, hsplit⟩ := exists_price hrate h hwithin
  have hpoint : ∀ i ∈ lots,
      rate i * take i + price * take' i ≤ rate i * take' i + price * take i := by
    intro i hi
    rcases hsplit i hi with ⟨hfull, hle⟩ | ⟨hzero, hle⟩ | heq
    · have hroom := hwithin'.le_room i hi
      rw [hfull]
      nlinarith [mul_nonneg (sub_nonneg.mpr hle) (sub_nonneg.mpr hroom)]
    · have hnonneg := hwithin'.nonneg i hi
      rw [hzero]
      nlinarith [mul_nonneg (sub_nonneg.mpr hle) hnonneg]
    · rw [heq]
      exact (add_comm _ _).le
  have hsum := List.sum_le_sum hpoint
  simp only [List.sum_map_add, List.sum_map_mul_left] at hsum
  have hpaid := mul_le_mul_of_nonneg_left hamount hprice
  unfold amount at hpaid
  unfold cost
  linarith

theorem sum_update [DecidableEq ι] (hnodup : lots.Nodup) (f : ι → k) {i : ι} (hi : i ∈ lots) (x : k) :
    (lots.map (Function.update f i x)).sum = (lots.map f).sum + (x - f i) := by
  induction lots with
  | nil => cases hi
  | cons j lots ih =>
    obtain ⟨hj, hnodup⟩ := List.nodup_cons.mp hnodup
    rw [List.map_cons, List.sum_cons, List.map_cons, List.sum_cons]
    rcases List.mem_cons.mp hi with rfl | hi
    · have hrest : lots.map (Function.update f i x) = lots.map f := by
        refine List.map_congr_left fun m hm => Function.update_of_ne ?_ _ _
        rintro rfl
        exact hj hm
      rw [hrest, Function.update_self]
      ring
    · have hne : j ≠ i := by
        rintro rfl
        exact hj hi
      rw [ih hnodup hi, Function.update_of_ne hne]
      ring

/-- A choice that can be improved is beaten at its own amount. -/
theorem exists_cheaper [DecidableEq ι] (hnodup : lots.Nodup) (hwithin : Within room lots take)
    (h : ¬ Unimprovable room rate lots take) :
    ∃ take', Within room lots take' ∧ amount lots take' = amount lots take ∧
      cost rate lots take' < cost rate lots take := by
  unfold Unimprovable at h
  push Not at h
  obtain ⟨q, hq, p, hp, htaken, hroom, hcheaper⟩ := h
  have hne : p ≠ q := fun heq => hcheaper.ne (congrArg rate heq)
  -- move what fits from the dearer lot to the cheaper one
  let moved := min (take q) (room p - take p)
  have hmoved : 0 < moved := lt_min htaken (sub_pos.mpr hroom)
  let take' := Function.update (Function.update take q (take q - moved)) p (take p + moved)
  have hat : ∀ i, take' i = if i = p then take p + moved else if i = q then take q - moved else take i := by
    intro i
    simp only [take', Function.update_apply]
  refine ⟨take', ⟨fun i hi => ?_, fun i hi => ?_⟩, ?_, ?_⟩
  · rw [hat]
    split_ifs with hip hiq
    · linarith [hwithin.nonneg p hp]
    · linarith [min_le_left (take q) (room p - take p)]
    · exact hwithin.nonneg i hi
  · rw [hat]
    split_ifs with hip hiq
    · rw [hip]
      linarith [min_le_right (take q) (room p - take p)]
    · rw [hiq]
      linarith [hwithin.le_room q hq]
    · exact hwithin.le_room i hi
  · rw [amount, sum_update hnodup _ hp, sum_update hnodup _ hq, Function.update_of_ne hne, amount]
    ring
  · have hcost : (fun i => rate i * take' i) =
        Function.update (Function.update (fun i => rate i * take i) q (rate q * (take q - moved))) p
          (rate p * (take p + moved)) := by
      funext i
      simp only [Function.update_apply, hat]
      split_ifs with hip hiq
      · rw [hip]
      · rw [hiq]
      · rfl
    rw [cost, hcost, sum_update hnodup _ hp, sum_update hnodup _ hq, Function.update_of_ne hne, cost]
    nlinarith [mul_pos (sub_pos.mpr hcheaper) hmoved]

/-! ### Filling in order -/

/-- What is taken of a lot when the lots are filled in order. -/
def FillsInOrder (room : ι → k) (filled : k) (lots : List ι) (take : ι → k) : Prop :=
  ∀ pre i post, lots = pre ++ i :: post → take i = max 0 (min (room i) (filled - amount pre room))

/-- Where a lot is cheaper than one before it, that one is not reached or this
one is filled. -/
def CheapestFirst (room rate : ι → k) (filled : k) (lots : List ι) : Prop :=
  ∀ pre q mid p post, lots = pre ++ q :: (mid ++ p :: post) → rate p < rate q →
    filled ≤ amount pre room ∨ amount (pre ++ q :: mid) room + room p ≤ filled

theorem FillsInOrder.within {filled : k} (h : FillsInOrder room filled lots take)
    (hroom : ∀ i ∈ lots, 0 ≤ room i) : Within room lots take := by
  have hat : ∀ i ∈ lots, ∃ before, take i = max 0 (min (room i) (filled - before)) := by
    intro i hi
    obtain ⟨pre, post, hsplit⟩ := List.append_of_mem hi
    exact ⟨_, h pre i post hsplit⟩
  refine ⟨fun i hi => ?_, fun i hi => ?_⟩
  · obtain ⟨before, he⟩ := hat i hi
    rw [he]
    exact le_max_left _ _
  · obtain ⟨before, he⟩ := hat i hi
    rw [he]
    exact max_le (hroom i hi) (min_le_left _ _)

theorem FillsInOrder.of_append {filled : k} (pre : List ι)
    (h : FillsInOrder room filled (pre ++ lots) take) :
    FillsInOrder room (filled - amount pre room) lots take := by
  intro inner i post hsplit
  have hi := h (pre ++ inner) i post (by rw [hsplit, List.append_assoc])
  rwa [amount_append, ← sub_sub] at hi

theorem FillsInOrder.congr {filled : k} {take' : ι → k} (h : FillsInOrder room filled lots take)
    (hsame : ∀ i ∈ lots, take' i = take i) : FillsInOrder room filled lots take' := by
  intro pre i post hsplit
  rw [hsame i (hsplit ▸ List.mem_append_right _ List.mem_cons_self)]
  exact h pre i post hsplit

/-- The lots filled in order take the amount, as far as they hold it. -/
theorem FillsInOrder.amount_eq {filled : k} (h : FillsInOrder room filled lots take)
    (hroom : ∀ i ∈ lots, 0 ≤ room i) :
    amount lots take = max 0 (min filled (amount lots room)) := by
  induction lots generalizing filled with
  | nil => exact (max_eq_left (min_le_right _ _)).symm
  | cons i lots ih =>
    have hroomi := hroom i List.mem_cons_self
    have hrest := fun j hj => hroom j (List.mem_cons_of_mem i hj)
    have hothers := amount_nonneg_of hrest
    have hfirst := h [] i lots rfl
    have htail := ih (h.of_append [i]) hrest
    have hone : amount [i] room = room i := List.sum_singleton
    have htaken : amount (i :: lots) take = take i + amount lots take := List.sum_cons
    have htotal : amount (i :: lots) room = room i + amount lots room := List.sum_cons
    rw [amount, List.map_nil, List.sum_nil, sub_zero] at hfirst
    rw [hone] at htail
    rw [htaken, htotal, hfirst, htail]
    rcases le_total filled 0 with hneg | hpos
    · rw [min_eq_right (hneg.trans hroomi), max_eq_left hneg,
        min_eq_left (by linarith : filled - room i ≤ amount lots room),
        max_eq_left (by linarith : filled - room i ≤ 0), min_eq_left (by linarith),
        max_eq_left hneg, add_zero]
    · rcases le_total filled (room i) with hpart | hfull
      · rw [min_eq_right hpart, max_eq_right hpos,
          min_eq_left (by linarith : filled - room i ≤ amount lots room),
          max_eq_left (by linarith : filled - room i ≤ 0), min_eq_left (by linarith),
          max_eq_right hpos, add_zero]
      · rw [min_eq_left hfull, max_eq_right hroomi,
          max_eq_right (le_min (by linarith : 0 ≤ filled - room i) hothers),
          max_eq_right (le_min hpos (by linarith)), ← min_add_add_left, add_sub_cancel]

/-- Two lots of a list, the one before the other. -/
theorem split_pair {q p : ι} (hq : q ∈ lots) (hp : p ∈ lots) (hne : q ≠ p) :
    (∃ pre mid post, lots = pre ++ q :: (mid ++ p :: post)) ∨
      ∃ pre mid post, lots = pre ++ p :: (mid ++ q :: post) := by
  obtain ⟨pre, post, rfl⟩ := List.append_of_mem hq
  rcases List.mem_append.mp hp with hp | hp
  · obtain ⟨first, mid, rfl⟩ := List.append_of_mem hp
    exact .inr ⟨first, mid, post, by simp⟩
  · rcases List.mem_cons.mp hp with rfl | hp
    · exact absurd rfl hne
    · obtain ⟨mid, last, rfl⟩ := List.append_of_mem hp
      exact .inl ⟨pre, mid, last, rfl⟩

/-- A filling in order cannot be improved exactly when it fills the cheapest first. -/
theorem FillsInOrder.unimprovable_iff {filled : k} (h : FillsInOrder room filled lots take)
    (hroom : ∀ i ∈ lots, 0 < room i) :
    Unimprovable room rate lots take ↔ CheapestFirst room rate filled lots := by
  have htaken : ∀ {pre i post}, lots = pre ++ i :: post →
      (0 < take i ↔ amount pre room < filled) := by
    intro pre i post hsplit
    have hi : 0 < room i := hroom i (hsplit ▸ List.mem_append_right _ List.mem_cons_self)
    rw [h pre i post hsplit, lt_max_iff, lt_min_iff, sub_pos]
    exact ⟨fun hor => (hor.resolve_left (lt_irrefl 0)).2, fun hlt => .inr ⟨hi, hlt⟩⟩
  have hleft : ∀ {pre i post}, lots = pre ++ i :: post →
      (take i < room i ↔ filled < amount pre room + room i) := by
    intro pre i post hsplit
    have hi : 0 < room i := hroom i (hsplit ▸ List.mem_append_right _ List.mem_cons_self)
    rw [h pre i post hsplit, max_lt_iff, min_lt_iff, sub_lt_iff_lt_add']
    exact ⟨fun hand => hand.2.resolve_left (lt_irrefl _), fun hlt => ⟨hi, .inr hlt⟩⟩
  constructor
  · intro hun pre q mid p post hsplit hcheaper
    have hsplit' : lots = (pre ++ q :: mid) ++ p :: post := by simp [hsplit]
    by_contra hcon
    push Not at hcon
    have hq : q ∈ lots := hsplit ▸ List.mem_append_right _ List.mem_cons_self
    have hp : p ∈ lots := hsplit' ▸ List.mem_append_right _ List.mem_cons_self
    exact absurd (hun q hq p hp ((htaken hsplit).mpr hcon.1) ((hleft hsplit').mpr hcon.2))
      (not_le.mpr hcheaper)
  · intro hfirst q hq p hp hpos hroomy
    by_contra hcheaper
    have hcheaper := not_le.mp hcheaper
    have hne : q ≠ p := fun heq => hcheaper.ne (congrArg rate heq.symm)
    rcases split_pair hq hp hne with ⟨pre, mid, post, hsplit⟩ | ⟨pre, mid, post, hsplit⟩
    · have hsplit' : lots = (pre ++ q :: mid) ++ p :: post := by simp [hsplit]
      rcases hfirst pre q mid p post hsplit hcheaper with hle | hle
      · exact absurd ((htaken hsplit).mp hpos) (not_lt.mpr hle)
      · exact absurd ((hleft hsplit').mp hroomy) (not_lt.mpr hle)
    · -- the cheaper lot comes first: with room left in it, the other is not reached
      have hsplit' : lots = (pre ++ p :: mid) ++ q :: post := by simp [hsplit]
      have hreached := (htaken hsplit').mp hpos
      have hshort := (hleft hsplit).mp hroomy
      have hmid : 0 ≤ amount mid room := amount_nonneg_of fun i hi =>
        (hroom i (by rw [hsplit]; simp [hi])).le
      rw [amount_append, show amount (p :: mid) room = room p + amount mid room from List.sum_cons]
        at hreached
      linarith

/-- The cost of an amount filled from the lots in their order. -/
def fillCost (room rate : ι → k) (filled : k) : List ι → k
  | [] => 0
  | i :: lots =>
    rate i * min (room i) filled + fillCost room rate (filled - min (room i) filled) lots

theorem fillCost_zero (hroom : ∀ i ∈ lots, 0 ≤ room i) : fillCost room rate 0 lots = 0 := by
  induction lots with
  | nil => rfl
  | cons i lots ih =>
    rw [fillCost, min_eq_right (hroom i List.mem_cons_self), mul_zero, sub_zero, zero_add]
    exact ih fun j hj => hroom j (List.mem_cons_of_mem i hj)

/-- With room for no more, the lots are full. -/
theorem fillCost_full {filled : k} (hroom : ∀ i ∈ lots, 0 ≤ room i) (h : amount lots room ≤ filled) :
    fillCost room rate filled lots = cost rate lots room := by
  induction lots generalizing filled with
  | nil => rfl
  | cons i lots ih =>
    have hrest := fun j hj => hroom j (List.mem_cons_of_mem i hj)
    have htotal : amount (i :: lots) room = room i + amount lots room := List.sum_cons
    have hcost : cost rate (i :: lots) room = rate i * room i + cost rate lots room := List.sum_cons
    have hothers := amount_nonneg_of hrest
    rw [htotal] at h
    rw [fillCost, min_eq_left (by linarith), ih hrest (by linarith), hcost]

/-- Filling further costs at least the least rate for each unit. -/
theorem fillCost_growth (least : k) {a b : k} (hroom : ∀ i ∈ lots, 0 ≤ room i)
    (hleast : ∀ i ∈ lots, least ≤ rate i) (ha : 0 ≤ a) (hab : a ≤ b)
    (hb : b ≤ amount lots room) :
    least * (b - a) ≤ fillCost room rate b lots - fillCost room rate a lots := by
  induction lots generalizing a b with
  | nil =>
    have hzero : b ≤ 0 := hb
    have hsame : b = a := le_antisymm (hzero.trans ha) hab
    rw [hsame]
    simp
  | cons i lots ih =>
    have hroomi := hroom i List.mem_cons_self
    have hratei := hleast i List.mem_cons_self
    have hrest := fun {x y : k} => ih (a := x) (b := y)
      (fun j hj => hroom j (List.mem_cons_of_mem i hj))
      (fun j hj => hleast j (List.mem_cons_of_mem i hj))
    have htotal : amount (i :: lots) room = room i + amount lots room := List.sum_cons
    rw [htotal] at hb
    have hmin : min (room i) a ≤ min (room i) b := min_le_min_left _ hab
    have hleft : 0 ≤ a - min (room i) a := sub_nonneg.mpr (min_le_right _ _)
    have hmono : a - min (room i) a ≤ b - min (room i) b := by
      rcases le_total (room i) a with h | h
      · rw [min_eq_left h, min_eq_left (h.trans hab)]
        linarith
      · rw [min_eq_right h, sub_self]
        exact sub_nonneg.mpr (min_le_right _ _)
    have hbound : b - min (room i) b ≤ amount lots room := by
      rcases le_total (room i) b with h | h
      · rw [min_eq_left h]
        linarith
      · rw [min_eq_right h, sub_self]
        exact amount_nonneg_of fun j hj => hroom j (List.mem_cons_of_mem i hj)
    have hgrow := hrest hleft hmono hbound
    rw [fillCost, fillCost]
    nlinarith [mul_nonneg (sub_nonneg.mpr hratei) (sub_nonneg.mpr hmin)]

/-- In order of rate the lots are filled as cheaply as any choice fills them. -/
theorem fillCost_le (hsorted : lots.Pairwise fun i j => rate i ≤ rate j)
    (hwithin : Within room lots take) :
    fillCost room rate (amount lots take) lots ≤ cost rate lots take := by
  induction lots with
  | nil => exact le_rfl
  | cons i lots ih =>
    obtain ⟨hfirst, hrest⟩ := List.pairwise_cons.mp hsorted
    have hw := hwithin.of_cons
    have hroom : ∀ j ∈ lots, 0 ≤ room j := fun j hj => (hw.nonneg j hj).trans (hw.le_room j hj)
    have htotal : amount (i :: lots) take = take i + amount lots take := List.sum_cons
    have hcost : cost rate (i :: lots) take = rate i * take i + cost rate lots take := List.sum_cons
    have hnonneg := hw.amount_nonneg
    have htake : take i ≤ min (room i) (take i + amount lots take) :=
      le_min (hwithin.le_room i List.mem_cons_self) (by linarith)
    have hgrow := fillCost_growth (rate i)
      (a := take i + amount lots take - min (room i) (take i + amount lots take))
      (b := amount lots take) hroom hfirst (sub_nonneg.mpr (min_le_right _ _)) (by linarith)
      hw.amount_le
    have hchosen := ih hrest hw
    rw [htotal, hcost, fillCost]
    nlinarith

theorem fillCost_nonpos {filled : k} (hroom : ∀ i ∈ lots, 0 ≤ room i) (hrate : ∀ i ∈ lots, rate i ≤ 0)
    (hfilled : 0 ≤ filled) : fillCost room rate filled lots ≤ 0 := by
  induction lots generalizing filled with
  | nil => exact le_rfl
  | cons i lots ih =>
    have hrest := ih (fun j hj => hroom j (List.mem_cons_of_mem i hj))
      (fun j hj => hrate j (List.mem_cons_of_mem i hj))
      (sub_nonneg.mpr (min_le_right (room i) filled))
    exact add_nonpos (mul_nonpos_of_nonpos_of_nonneg (hrate i List.mem_cons_self)
      (le_min (hroom i List.mem_cons_self) hfilled)) hrest

theorem fillCost_mono {a b : k} (hroom : ∀ i ∈ lots, 0 ≤ room i) (hrate : ∀ i ∈ lots, 0 ≤ rate i)
    (ha : 0 ≤ a) (hab : a ≤ b) (hb : b ≤ amount lots room) :
    fillCost room rate a lots ≤ fillCost room rate b lots := by
  have hgrow := fillCost_growth 0 hroom hrate ha hab hb
  rw [zero_mul] at hgrow
  exact sub_nonneg.mp hgrow

theorem FillsInOrder.clamp {filled : k} (h : FillsInOrder room filled lots take)
    (hroom : ∀ i ∈ lots, 0 ≤ room i) : FillsInOrder room (max 0 filled) lots take := by
  intro pre i post hsplit
  rw [h pre i post hsplit]
  rcases le_total 0 filled with hpos | hneg
  · rw [max_eq_right hpos]
  · have hpre : 0 ≤ amount pre room := amount_nonneg_of fun j hj =>
      hroom j (hsplit ▸ List.mem_append_left _ hj)
    rw [max_eq_left hneg, max_eq_left ((min_le_right _ _).trans (by linarith)),
      max_eq_left ((min_le_right _ _).trans (by linarith))]

/-- What a filling in order costs. -/
theorem FillsInOrder.cost_eq {filled : k} (h : FillsInOrder room filled lots take)
    (hroom : ∀ i ∈ lots, 0 ≤ room i) (hfilled : 0 ≤ filled) :
    cost rate lots take = fillCost room rate filled lots := by
  induction lots generalizing filled with
  | nil => rfl
  | cons i lots ih =>
    have hroomi := hroom i List.mem_cons_self
    have hrest := fun j hj => hroom j (List.mem_cons_of_mem i hj)
    have hfirst := h [] i lots rfl
    have hone : amount [i] room = room i := List.sum_singleton
    rw [amount, List.map_nil, List.sum_nil, sub_zero, max_eq_right (le_min hroomi hfilled)] at hfirst
    have htail : FillsInOrder room (filled - min (room i) filled) lots take := by
      have hshifted := (h.of_append [i]).clamp hrest
      rw [hone] at hshifted
      rcases le_total (room i) filled with hfull | hpart
      · rw [min_eq_left hfull]
        rwa [max_eq_right (sub_nonneg.mpr hfull)] at hshifted
      · rw [min_eq_right hpart, sub_self]
        rwa [max_eq_left (sub_nonpos.mpr hpart)] at hshifted
    have hcost : cost rate (i :: lots) take = rate i * take i + cost rate lots take := List.sum_cons
    rw [hcost, hfirst, ih htail hrest (sub_nonneg.mpr (min_le_right _ _)), fillCost]

/-! ### Between the boundaries -/

/-- On a chord: affine between two points. -/
def AffineOn (f : k → k) (a b : k) : Prop :=
  ∀ x, a ≤ x → x ≤ b → f x * (b - a) = f a * (b - x) + f b * (x - a)

namespace AffineOn
variable {f g : k → k} {a b : k}

theorem add (hf : AffineOn f a b) (hg : AffineOn g a b) : AffineOn (fun x => f x + g x) a b := by
  intro x hax hxb
  have h := hf x hax hxb
  have h' := hg x hax hxb
  linear_combination h + h'

theorem of_linear (slope shift : k) (h : ∀ x, a ≤ x → x ≤ b → f x = slope * x + shift) :
    AffineOn f a b := by
  intro x hax hxb
  rw [h x hax hxb, h a le_rfl (hax.trans hxb), h b (hax.trans hxb) le_rfl]
  ring

theorem reflect {c : k} (hf : AffineOn f (c - b) (c - a)) : AffineOn (fun x => f (c - x)) a b := by
  intro x hax hxb
  have h := hf (c - x) (sub_le_sub_left hxb c) (sub_le_sub_left hax c)
  linear_combination h

/-- An affine figure is no less than at the better end. -/
theorem min_le (hf : AffineOn f a b) {x : k} (hax : a ≤ x) (hxb : x ≤ b) :
    min (f a) (f b) ≤ f x := by
  rcases (hax.trans hxb).eq_or_lt with rfl | hlt
  · rw [le_antisymm hxb hax, min_self]
  · have h := hf x hax hxb
    have hpos : 0 < b - a := sub_pos.mpr hlt
    have hleft := mul_le_mul_of_nonneg_right (min_le_left (f a) (f b)) (sub_nonneg.mpr hxb)
    have hright := mul_le_mul_of_nonneg_right (min_le_right (f a) (f b)) (sub_nonneg.mpr hax)
    refine le_of_mul_le_mul_right ?_ hpos
    rw [h]
    calc min (f a) (f b) * (b - a) = min (f a) (f b) * (b - x) + min (f a) (f b) * (x - a) := by ring
      _ ≤ f a * (b - x) + f b * (x - a) := add_le_add hleft hright

end AffineOn

/-- The amounts at which each lot is full, after `before`. -/
def boundaries (room : ι → k) (before : k) : List ι → List k
  | [] => []
  | i :: lots => (before + room i) :: boundaries room (before + room i) lots

theorem boundaries_shift (before : k) (lots : List ι) :
    boundaries room before lots = (boundaries room 0 lots).map (before + ·) := by
  induction lots generalizing before with
  | nil => rfl
  | cons i lots ih =>
    rw [boundaries, boundaries, zero_add, ih (before + room i), ih (room i), List.map_cons,
      List.map_map]
    congr 1
    refine List.map_congr_left fun x _ => ?_
    exact add_assoc _ _ _

/-- With no boundary inside it, an interval is filled at one rate. -/
theorem fillCost_affine (rate : ι → k) {a b : k} (hroom : ∀ i ∈ lots, 0 ≤ room i) (ha : 0 ≤ a)
    (h : ∀ c ∈ boundaries room 0 lots, ¬ (a < c ∧ c < b)) :
    AffineOn (fun x => fillCost room rate x lots) a b := by
  induction lots generalizing a b with
  | nil => exact .of_linear 0 0 fun x _ _ => by simp [fillCost]
  | cons i lots ih =>
    have hrest := fun j hj => hroom j (List.mem_cons_of_mem i hj)
    have hfirst := h (0 + room i) List.mem_cons_self
    rw [zero_add] at hfirst
    rcases le_or_gt b (room i) with hb | hb
    · refine .of_linear (rate i) 0 fun x _ hxb => ?_
      rw [fillCost, min_eq_right (hxb.trans hb), sub_self, fillCost_zero hrest]
    · have ha' : room i ≤ a := not_lt.mp fun hlt => hfirst ⟨hlt, hb⟩
      have hinner := ih (a := a - room i) (b := b - room i) hrest (sub_nonneg.mpr ha') ?_
      · intro x hax hxb
        have hx := hinner (x - room i) (sub_le_sub_right hax _) (sub_le_sub_right hxb _)
        simp only [fillCost]
        rw [min_eq_left (ha'.trans hax), min_eq_left ha', min_eq_left hb.le]
        linear_combination hx
      · intro c hc hinside
        refine h (room i + c) ?_ ⟨by linarith [hinside.1], by linarith [hinside.2]⟩
        rw [boundaries, zero_add, boundaries_shift]
        exact List.mem_cons_of_mem _ (List.mem_map_of_mem hc)

/-- Where the cost of the filled amount reaches a target. -/
def crossings (room rate : ι → k) (target before spent : k) : List ι → List k
  | [] => []
  | i :: lots =>
    (if spent < target ∧ target ≤ spent + rate i * room i then
      [before + (target - spent) / rate i] else []) ++
    crossings room rate target (before + room i) (spent + rate i * room i) lots

/-- A target short of the whole cost is reached at one of the crossings. -/
theorem exists_crossing (before spent : k) {target : k} (hroom : ∀ i ∈ lots, 0 ≤ room i)
    (hrate : ∀ i ∈ lots, 0 < rate i) (hspent : spent < target)
    (htarget : target ≤ spent + fillCost room rate (amount lots room) lots) :
    ∃ c ∈ crossings room rate target before spent lots, before ≤ c ∧
      c ≤ before + amount lots room ∧ spent + fillCost room rate (c - before) lots = target := by
  induction lots generalizing before spent with
  | nil =>
    rw [fillCost, add_zero] at htarget
    exact absurd htarget (not_le.mpr hspent)
  | cons i lots ih =>
    have hroomi := hroom i List.mem_cons_self
    have hratei := hrate i List.mem_cons_self
    have hrest := fun j hj => hroom j (List.mem_cons_of_mem i hj)
    have htotal : amount (i :: lots) room = room i + amount lots room := List.sum_cons
    have hothers := amount_nonneg_of hrest
    rw [crossings]
    by_cases hhere : target ≤ spent + rate i * room i
    · have hunits : (target - spent) / rate i ≤ room i := by
        rw [div_le_iff₀ hratei, mul_comm]
        linarith
      have hpos : 0 ≤ (target - spent) / rate i := div_nonneg (sub_nonneg.mpr hspent.le) hratei.le
      refine ⟨before + (target - spent) / rate i, ?_, by linarith, by rw [htotal]; linarith, ?_⟩
      · rw [if_pos ⟨hspent, hhere⟩]
        exact List.mem_append_left _ (List.mem_singleton.mpr rfl)
      · rw [fillCost, add_sub_cancel_left, min_eq_right hunits, sub_self, fillCost_zero hrest,
          mul_div_cancel₀ _ hratei.ne']
        ring
    · have hfull : fillCost room rate (amount (i :: lots) room) (i :: lots) =
          rate i * room i + fillCost room rate (amount lots room) lots := by
        rw [fillCost, htotal, min_eq_left (by linarith), add_sub_cancel_left]
      rw [hfull, ← add_assoc] at htarget
      obtain ⟨c, hc, hbefore, hafter, hreached⟩ := ih (before + room i) (spent + rate i * room i) hrest
        (fun j hj => hrate j (List.mem_cons_of_mem i hj)) (not_le.mp hhere) htarget
      refine ⟨c, List.mem_append_right _ hc, by linarith, by rw [htotal]; linarith, ?_⟩
      rw [fillCost, min_eq_left (by linarith), ← hreached]
      have hshift : c - before - room i = c - (before + room i) := by ring
      rw [hshift]
      ring

/-! ### The least of the points -/

/-- A figure that is never less than at the nearest points around is never less
than at some point. -/
theorem exists_point_le {f : k → k} {points : List k} {lo hi x : k} (hlo : lo ∈ points)
    (hhi : hi ∈ points) (hlox : lo ≤ x) (hxhi : x ≤ hi)
    (h : ∀ a ∈ points, ∀ b ∈ points, a ≤ x → x ≤ b → (∀ c ∈ points, ¬ (a < c ∧ c < b)) →
      min (f a) (f b) ≤ f x) : ∃ c ∈ points, f c ≤ f x := by
  obtain ⟨a, ha, hamax⟩ := (points.toFinset.filter (· ≤ x)).exists_max_image id
    ⟨lo, Finset.mem_filter.mpr ⟨List.mem_toFinset.mpr hlo, hlox⟩⟩
  obtain ⟨b, hb, hbmin⟩ := (points.toFinset.filter (x ≤ ·)).exists_min_image id
    ⟨hi, Finset.mem_filter.mpr ⟨List.mem_toFinset.mpr hhi, hxhi⟩⟩
  obtain ⟨ha, hax⟩ := Finset.mem_filter.mp ha
  obtain ⟨hb, hxb⟩ := Finset.mem_filter.mp hb
  have hends := h a (List.mem_toFinset.mp ha) b (List.mem_toFinset.mp hb) hax hxb ?_
  · rcases min_le_iff.mp hends with hle | hle
    · exact ⟨a, List.mem_toFinset.mp ha, hle⟩
    · exact ⟨b, List.mem_toFinset.mp hb, hle⟩
  · rintro c hc ⟨hac, hcb⟩
    rcases le_total c x with hcx | hxc
    · exact absurd (hamax c (Finset.mem_filter.mpr ⟨List.mem_toFinset.mpr hc, hcx⟩)) (not_le.mpr hac)
    · exact absurd (hbmin c (Finset.mem_filter.mpr ⟨List.mem_toFinset.mpr hc, hxc⟩)) (not_le.mpr hcb)

/-! ### Two classes and an allowance

An amount is split between two classes; what the first costs beyond an allowance
counts twice. -/

section Split
variable {others discounts : List ι} {left allowance : k}

def dividedCost (room rate : ι → k) (others discounts : List ι) (left allowance x : k) : k :=
  fillCost room rate x others + fillCost room rate (left - x) discounts +
    max (fillCost room rate x others - allowance) 0

/-- Where the cost of the one class stays on one side of the allowance, and no
boundary of either class lies inside, the split is affine. -/
theorem dividedCost_affine (left allowance : k) {a b : k} (hothers : ∀ i ∈ others, 0 ≤ room i)
    (hdiscounts : ∀ i ∈ discounts, 0 ≤ room i) (hrate : ∀ i ∈ others, 0 ≤ rate i) (ha : 0 ≤ a)
    (hb : b ≤ amount others room) (hleft : b ≤ left)
    (hinside : ∀ c ∈ boundaries room 0 others, ¬ (a < c ∧ c < b))
    (hinside' : ∀ c ∈ boundaries room 0 discounts, ¬ (a < left - c ∧ left - c < b))
    (hside : allowance ≤ fillCost room rate a others ∨ fillCost room rate b others ≤ allowance) :
    AffineOn (dividedCost room rate others discounts left allowance) a b := by
  have hfirst := fillCost_affine rate hothers ha hinside
  have hsecond := fillCost_affine rate (a := left - b) (b := left - a) hdiscounts
    (sub_nonneg.mpr hleft) fun c hc hin => hinside' c hc ⟨by linarith [hin.2], by linarith [hin.1]⟩
  have hmono : ∀ x y, a ≤ x → x ≤ y → y ≤ b →
      fillCost room rate x others ≤ fillCost room rate y others := fun x y hax hxy hyb =>
    fillCost_mono hothers hrate (ha.trans hax) hxy (hyb.trans hb)
  refine (hfirst.add hsecond.reflect).add ?_
  rcases hside with habove | hbelow
  · -- beyond the allowance throughout
    intro x hax hxb
    have hx := hfirst x hax hxb
    have hat : ∀ y, a ≤ y → y ≤ b → max (fillCost room rate y others - allowance) 0 =
        fillCost room rate y others - allowance := fun y hay hyb =>
      max_eq_left (sub_nonneg.mpr (habove.trans (hmono a y le_rfl hay hyb)))
    dsimp only at hx ⊢
    rw [hat x hax hxb, hat a le_rfl (hax.trans hxb), hat b (hax.trans hxb) le_rfl]
    linear_combination hx
  · -- within it throughout
    refine .of_linear 0 0 fun x hax hxb => ?_
    rw [max_eq_right (sub_nonpos.mpr ((hmono x b hax hxb le_rfl).trans hbelow)), zero_mul, zero_add]

/-- A split costs no less than at one of the points, if these hold the ends of
the range, the boundaries of both classes, and something between the split and
every crossing of the allowance. -/
theorem exists_divided_le {points : List k} {lo hi x : k} (hothers : ∀ i ∈ others, 0 ≤ room i)
    (hdiscounts : ∀ i ∈ discounts, 0 ≤ room i) (hrate : ∀ i ∈ others, 0 < rate i) (hlo : lo ∈ points)
    (hhi : hi ∈ points) (hnonneg : 0 ≤ lo) (hroomy : hi ≤ amount others room) (hleft : hi ≤ left)
    (hlox : lo ≤ x) (hxhi : x ≤ hi)
    (hbounds : ∀ c ∈ boundaries room 0 others, lo ≤ c → c ≤ hi → c ∈ points)
    (hbounds' : ∀ c ∈ boundaries room 0 discounts, lo ≤ left - c → left - c ≤ hi → left - c ∈ points)
    (hcross : ∀ c ∈ crossings room rate allowance 0 0 others, lo ≤ c → c ≤ hi →
      (x ≤ c → ∃ d ∈ points, x ≤ d ∧ d ≤ c) ∧ (c ≤ x → ∃ d ∈ points, c ≤ d ∧ d ≤ x))
    (hrange : ∀ c ∈ points, lo ≤ c ∧ c ≤ hi) :
    ∃ c ∈ points, dividedCost room rate others discounts left allowance c ≤
      dividedCost room rate others discounts left allowance x := by
  refine exists_point_le hlo hhi hlox hxhi fun a ha b hb hax hxb hnone => ?_
  have hrate' := fun i hi => (hrate i hi).le
  have hla := (hrange a ha).1
  have hbh := (hrange b hb).2
  have ha0 : 0 ≤ a := hnonneg.trans hla
  have hb' : b ≤ amount others room := hbh.trans hroomy
  have haffine := dividedCost_affine left allowance hothers hdiscounts hrate'
    ha0 hb' (hbh.trans hleft)
    (fun c hc hin => hnone c (hbounds c hc (hla.trans hin.1.le) (hin.2.le.trans hbh)) hin)
    (fun c hc hin => hnone _ (hbounds' c hc (hla.trans hin.1.le) (hin.2.le.trans hbh)) hin)
  by_cases hside : allowance ≤ fillCost room rate a others ∨ fillCost room rate b others ≤ allowance
  · exact (haffine hside).min_le hax hxb
  · -- the allowance is crossed inside: the split is one of the ends
    push Not at hside
    have hstart : 0 ≤ fillCost room rate a others := by
      have hzero := fillCost_mono hothers hrate' le_rfl ha0 (hax.trans (hxb.trans hb'))
      rwa [fillCost_zero hothers] at hzero
    have hwhole := hside.2.le.trans
      (fillCost_mono hothers hrate' (ha0.trans (hax.trans hxb)) hb' le_rfl)
    obtain ⟨c, hc, hc0, hcmax, hreached⟩ := exists_crossing 0 0 hothers hrate
      (hstart.trans_lt hside.1) (by rwa [zero_add])
    rw [zero_add, sub_zero] at hreached
    rw [zero_add] at hcmax
    have hac : a < c := by
      by_contra hle
      exact absurd (fillCost_mono hothers hrate' hc0 (not_lt.mp hle) (hax.trans (hxb.trans hb')))
        (not_le.mpr (hreached ▸ hside.1))
    have hcb : c < b := by
      by_contra hle
      exact absurd (fillCost_mono hothers hrate' (ha0.trans (hax.trans hxb)) (not_lt.mp hle) hcmax)
        (not_le.mpr (hreached ▸ hside.2))
    obtain ⟨hbelow, habove⟩ := hcross c hc (hla.trans hac.le) (hcb.le.trans hbh)
    rcases le_total x c with hxc | hcx
    · obtain ⟨d, hd, hxd, hdc⟩ := hbelow hxc
      have hda : d ≤ a := not_lt.mp fun hlt => hnone d hd ⟨hlt, hdc.trans_lt hcb⟩
      rw [le_antisymm (hxd.trans hda) hax]
      exact min_le_left _ _
    · obtain ⟨d, hd, hcd, hdx⟩ := habove hcx
      have hbd : b ≤ d := not_lt.mp fun hlt => hnone d hd ⟨hac.trans_le hcd, hlt⟩
      rw [le_antisymm hxb (hbd.trans hdx)]
      exact min_le_right _ _

end Split

end CheapestFill
