import ShareTracker.RoundedCounts

/-!
What one listing's recompute asks to be stored: it names each parcel once, it
reads no more than its own listing's facts, and asked again of its own answer
it gives the same.
-/
namespace ShareTracker.RoundedCounts

/-! ### Tasks -/

theorem Stood.before_eq (p : Stood) (prior prior' : Option Prior) :
    p.before prior' = (p.before prior).map fun b => b.withPrior prior' := by
  unfold Stood.before
  split <;> rfl

theorem Stood.before_tradeId {p : Stood} {prior : Option Prior} {b : ParcelBefore}
    (h : p.before prior = some b) : b.tradeId = p.parcel.id := by
  unfold Stood.before at h
  split at h
  · obtain rfl := Option.some.inj h
    rfl
  · cases h

def Task.befores (t : Task) (prior : TradeId → Option Prior) : List ParcelBefore :=
  t.parcels.filterMap fun p => p.before (prior p.parcel.id)

theorem Task.befores_eq (t : Task) (prior prior' : TradeId → Option Prior) :
    t.befores prior' = withPriors (fun b => prior' b.tradeId) (t.befores prior) := by
  unfold Task.befores withPriors
  rw [List.map_filterMap]
  refine List.filterMap_congr fun p _ => ?_
  rw [p.before_eq (prior p.parcel.id)]
  cases hb : p.before (prior p.parcel.id) with
  | none => rfl
  | some b =>
    change some (b.withPrior (prior' p.parcel.id)) = some (b.withPrior (prior' b.tradeId))
    rw [Stood.before_tradeId hb]

theorem Task.befores_ids (t : Task) (prior : TradeId → Option Prior) :
    ((t.befores prior).map (·.tradeId)).Sublist (t.parcels.map (·.parcel.id)) := by
  refine Keyed.filterMap_sublist (fun p b hb => ?_) t.parcels
  exact Stood.before_tradeId hb

theorem roundedTo_ids {step total : ℚ} {share : ParcelBefore → ℚ} {parcels : List ParcelBefore}
    {counts : List ParcelCount} (h : RoundedTo step total share parcels counts) :
    counts.map (·.tradeId) = parcels.map (·.tradeId) := by
  have heach := h.each
  clear h
  induction heach with
  | nil => rfl
  | cons hfirst _ ih => rw [List.map_cons, List.map_cons, hfirst.1, ih]

section Round
variable {parcels : List ParcelBefore} {ratio : Ratio} {scale : ℕ} {rule : Rounding}
  {received : Option ℚ} {counts : List ParcelCount}

theorem roundHolding_ids (h : roundHolding parcels ratio scale rule received = .ok counts) :
    counts.map (·.tradeId) = parcels.map (·.tradeId) := by
  by_cases hne : parcels = []
  · subst hne
    obtain rfl := Except.ok.inj h
    rfl
  · exact roundedTo_ids (roundHolding_ok hne h).1

theorem roundRegisteredHolding_ids {register : Register}
    (h : roundRegisteredHolding parcels register ratio scale rule received = .ok counts) :
    counts.map (·.tradeId) = parcels.map (·.tradeId) := by
  by_cases hne : parcels = []
  · subst hne
    obtain rfl := Except.ok.inj h
    rfl
  · exact roundedTo_ids (roundRegisteredHolding_ok hne h).1

end Round

section Tasks
variable {action : ℤ} {ratio : Ratio} {scale : HoldingAccountId → Option ℕ}
  {prior prior' : TradeId → Option Prior} {counts : List ParcelCount}

/-- A task's counts name its parcels, each at most once. -/
theorem Task.round_ids {t : Task} (h : t.round action ratio scale prior = .ok counts) :
    (counts.map (·.tradeId)).Sublist (t.parcels.map (·.parcel.id)) := by
  unfold Task.round at h
  split at h
  · obtain rfl := Except.ok.inj h
    exact List.nil_sublist _
  · have h := Checked.mapError_ok.mp h
    have hids : counts.map (·.tradeId) = (t.befores prior).map (·.tradeId) := by
      split at h
      · exact roundHolding_ids h
      · exact roundRegisteredHolding_ids h
    rw [hids]
    exact t.befores_ids prior

theorem Task.round_again {t : Task} (h : t.round action ratio scale prior = .ok counts)
    (hprior : ∀ c ∈ counts, prior' c.tradeId = some c.prior) :
    t.round action ratio scale prior' = .ok counts := by
  unfold Task.round at h ⊢
  split at h
  · exact h
  · have h := Checked.mapError_ok.mp h
    change (if t.pending.isEmpty = true then roundHolding (t.befores prior) _ _ _ _
      else roundRegisteredHolding (t.befores prior) _ _ _ _ _) = _ at h
    refine Checked.mapError_ok.mpr ?_
    change (if t.pending.isEmpty = true then roundHolding (t.befores prior') _ _ _ _
      else roundRegisteredHolding (t.befores prior') _ _ _ _ _) = _
    have hids : counts.map (·.tradeId) = (t.befores prior).map (·.tradeId) := by
      split at h
      · exact roundHolding_ids h
      · exact roundRegisteredHolding_ids h
    have hlen : counts.length = (t.befores prior).length := by
      simpa using congrArg List.length hids
    rw [t.befores_eq prior]
    have H := sameHolding_withPriors (fun b => prior' b.tradeId) (t.befores prior)
    have hindex : ∀ i : Fin (withPriors (fun b => prior' b.tradeId) (t.befores prior)).length,
        ((withPriors (fun b => prior' b.tradeId) (t.befores prior)).get i).prior =
          (counts[i.val]?).map ParcelCount.prior := by
      intro i
      have hi : i.val < (t.befores prior).length := i.isLt.trans_eq H.length_eq
      have hic : i.val < counts.length := hi.trans_eq hlen.symm
      have hid : counts[i.val].tradeId = ((t.befores prior).get ⟨i.val, hi⟩).tradeId := by
        have hget := congrArg (·[i.val]?) hids
        simpa [hi, hic] using hget
      have hprior' := hprior _ (List.getElem_mem hic)
      rw [hid] at hprior'
      rw [List.getElem?_eq_getElem hic, Option.map_some, ← hprior']
      exact congrArg ParcelBefore.prior
        (List.getElem_map fun p : ParcelBefore => p.withPrior (prior' p.tradeId))
    split at h
    · rename_i hnone
      rw [if_pos hnone]
      exact roundHolding_again H hindex h
    · rename_i hsome
      rw [if_neg hsome]
      exact roundRegisteredHolding_again H hindex h

theorem roundTasks_ids {ts : List Task} (h : roundTasks action ratio scale prior ts = .ok counts) :
    (counts.map (·.tradeId)).Sublist (ts.flatMap fun t => t.parcels.map (·.parcel.id)) := by
  induction ts generalizing counts with
  | nil =>
    obtain rfl := Except.ok.inj h
    exact List.Sublist.refl []
  | cons t ts ih =>
    unfold roundTasks at h
    obtain ⟨first, hfirst, h⟩ := bind_ok h
    obtain ⟨rest, hrest, h⟩ := bind_ok h
    obtain rfl := Except.ok.inj h
    rw [List.map_append, List.flatMap_cons]
    exact (Task.round_ids hfirst).append (ih hrest)

theorem roundTasks_again {ts : List Task}
    (h : roundTasks action ratio scale prior ts = .ok counts)
    (hprior : ∀ c ∈ counts, prior' c.tradeId = some c.prior) :
    roundTasks action ratio scale prior' ts = .ok counts := by
  induction ts generalizing counts with
  | nil => exact h
  | cons t ts ih =>
    unfold roundTasks at h ⊢
    obtain ⟨first, hfirst, h⟩ := bind_ok h
    obtain ⟨rest, hrest, h⟩ := bind_ok h
    obtain rfl := Except.ok.inj h
    rw [Task.round_again hfirst fun c hc => hprior c (List.mem_append_left rest hc),
      ih hrest fun c hc => hprior c (List.mem_append_right first hc)]
    rfl

theorem roundTasks_congr {scale' : HoldingAccountId → Option ℕ} {ts : List Task}
    (h : ∀ t ∈ ts, scale' t.account = scale t.account) :
    roundTasks action ratio scale' prior ts = roundTasks action ratio scale prior ts := by
  induction ts with
  | nil => rfl
  | cons t ts ih =>
    have hround : t.round action ratio scale' prior = t.round action ratio scale prior := by
      rw [Task.round, h t List.mem_cons_self, Task.round]
    unfold roundTasks
    rw [hround, ih fun u hu => h u (List.mem_cons_of_mem t hu)]

end Tasks

section Stand
variable {F : Facts} {a : ActionRow} {rule : Rounding} {stood : List Stood}

theorem stand_parcel {D : DecimalRounding} {done : List Done} {parcel : TradeRow} {p : Stood}
    (h : (stand D F done a parcel).answer = .ok p) : p.parcel = parcel := by
  have hpeel : ∀ {β : Type} {x : Attempt RoundError β} {k : β → Attempt RoundError Stood},
      (x >>= k).answer = .ok p → ∃ b, (k b).answer = .ok p := by
    intro β x k hx
    change (Attempt.bind x k).answer = _ at hx
    unfold Attempt.bind at hx
    split at hx
    · cases hx
    · exact ⟨_, hx⟩
  unfold stand at h
  obtain ⟨_, h⟩ := hpeel h
  obtain ⟨_, h⟩ := hpeel h
  obtain ⟨_, h⟩ := hpeel h
  obtain ⟨_, h⟩ := hpeel h
  exact (congrArg Stood.parcel (Except.ok.inj h)).symm

theorem standAll_parcels {D : DecimalRounding} {done : List Done} {parcels : List TradeRow}
    (h : standAll D F done a parcels = .ok stood) : stood.map (·.parcel) = parcels := by
  induction parcels generalizing stood with
  | nil =>
    obtain rfl := Except.ok.inj h
    rfl
  | cons parcel rest ih =>
    unfold standAll at h
    obtain ⟨p, hp, h⟩ := bind_ok h
    obtain ⟨ps, hps, h⟩ := bind_ok h
    obtain rfl := Except.ok.inj h
    rw [List.map_cons, ih hps]
    congr 1
    exact stand_parcel hp

/-- Every parcel that stood is in one task, and in one alone. -/
theorem tasks_nodup (hstood : (stood.map (·.parcel.id)).Nodup) :
    ((tasks F a rule stood).flatMap fun t => t.parcels.map (·.parcel.id)).Nodup := by
  have hinj : ∀ p ∈ stood, ∀ q ∈ stood, p.parcel.id = q.parcel.id → p = q :=
    fun p hp q hq => Keyed.eq_of_key hstood hp hq
  unfold tasks
  rw [List.flatMap_append, List.nodup_append]
  refine ⟨?_, ?_, ?_⟩
  · rw [List.flatMap_map, List.nodup_flatMap]
    refine ⟨fun account _ => Keyed.nodup_filter (Keyed.nodup_filter hstood _) _, ?_⟩
    have haccounts : (StableSort.sortBy id ((stood.filter fun p =>
        a.registered p.parcel.settled).map fun p => p.parcel.account).dedup).Nodup :=
      (StableSort.sortBy_perm id _).nodup_iff.mpr (List.nodup_dedup _)
    refine haccounts.imp fun {x y} hxy => ?_
    intro i hi hj
    obtain ⟨p, hp, rfl⟩ := List.mem_map.mp hi
    obtain ⟨q, hq, hid⟩ := List.mem_map.mp hj
    obtain ⟨hp, hpx⟩ := List.mem_filter.mp hp
    obtain ⟨hq, hqy⟩ := List.mem_filter.mp hq
    have heq := hinj q (List.mem_of_mem_filter hq) p (List.mem_of_mem_filter hp) hid
    exact hxy ((of_decide_eq_true hpx).symm.trans (heq ▸ of_decide_eq_true hqy))
  · rw [List.flatMap_map]
    change ((stood.filter _).flatMap fun p => [p.parcel.id]).Nodup
    rw [← List.map_eq_flatMap]
    exact Keyed.nodup_filter hstood _
  · intro i hi j hj
    obtain ⟨t, ht, hi⟩ := List.mem_flatMap.mp hi
    obtain ⟨u, hu, hj⟩ := List.mem_flatMap.mp hj
    obtain ⟨account, -, rfl⟩ := List.mem_map.mp ht
    obtain ⟨q, hq, rfl⟩ := List.mem_map.mp hu
    obtain ⟨p, hp, rfl⟩ := List.mem_map.mp hi
    obtain rfl := List.mem_singleton.mp hj
    obtain ⟨hp, hregistered⟩ := List.mem_filter.mp (List.mem_of_mem_filter hp)
    obtain ⟨hq, hnot⟩ := List.mem_filter.mp hq
    intro hid
    rw [hinj p hp q hq hid] at hregistered
    rw [hregistered] at hnot
    cases hnot

theorem tasks_parcels {t : Task} (ht : t ∈ tasks F a rule stood) : ∀ p ∈ t.parcels, p ∈ stood := by
  intro p hp
  rcases List.mem_append.mp ht with ht | ht
  · obtain ⟨account, -, rfl⟩ := List.mem_map.mp ht
    exact List.mem_of_mem_filter (List.mem_of_mem_filter hp)
  · obtain ⟨q, hq, rfl⟩ := List.mem_map.mp ht
    obtain rfl := List.mem_singleton.mp hp
    exact List.mem_of_mem_filter hq

theorem tasks_account {t : Task} (ht : t ∈ tasks F a rule stood) :
    ∃ p ∈ stood, t.account = p.parcel.account := by
  rcases List.mem_append.mp ht with ht | ht
  · obtain ⟨account, haccount, rfl⟩ := List.mem_map.mp ht
    have haccount := List.mem_dedup.mp (StableSort.mem_sortBy.mp haccount)
    obtain ⟨p, hp, rfl⟩ := List.mem_map.mp haccount
    exact ⟨p, List.mem_of_mem_filter hp, rfl⟩
  · obtain ⟨q, hq, rfl⟩ := List.mem_map.mp ht
    exact ⟨q, List.mem_of_mem_filter hq, rfl⟩

theorem standAll_congr {D : DecimalRounding} {F' : Facts} {done : List Done}
    {parcels : List TradeRow}
    (h : ∀ p ∈ parcels, (F'.sales p.id).filter (fun sale => sale.units.basis < a.date) =
      (F.sales p.id).filter fun sale => sale.units.basis < a.date) :
    standAll D F' done a parcels = standAll D F done a parcels := by
  induction parcels with
  | nil => rfl
  | cons p rest ih =>
    have hstand : stand D F' done a p = stand D F done a p := by
      unfold stand
      simp only [h p List.mem_cons_self]
    unfold standAll
    rw [hstand, ih fun q hq => h q (List.mem_cons_of_mem p hq)]

end Stand

/-! ### An action -/

/-- Facts alike for the parcels of a listing and its rounded `actions`. -/
structure Facts.Alike (F F' : Facts) (actions : List ActionRow) : Prop where
  parcels : F'.parcels = F.parcels
  sales : ∀ p ∈ F.parcels, F'.sales p.id = F.sales p.id
  scale : ∀ p ∈ F.parcels, F'.scale p.account = F.scale p.account
  received : ∀ a ∈ actions, a.rounded → F'.received a.id = F.received a.id

section Action
variable {D : DecimalRounding} {F F' : Facts} {done : List Done} {a : ActionRow}
  {event : SplitEvent} {rule : Rounding} {prior prior' : TradeId → Option Prior}
  {counts : List ParcelCount}

theorem roundAction_again (h : roundAction D F done a event rule prior = .ok counts)
    (hprior : ∀ c ∈ counts, prior' c.tradeId = some c.prior) :
    roundAction D F done a event rule prior' = .ok counts := by
  unfold roundAction at h ⊢
  obtain ⟨stood, hstood, h⟩ := bind_ok h
  rw [hstood]
  exact roundTasks_again h hprior

/-- An action's counts name parcels of the listing, each at most once. -/
theorem roundAction_ids (hF : (F.parcels.map (·.id)).Nodup)
    (h : roundAction D F done a event rule prior = .ok counts) :
    (counts.map (·.tradeId)).Nodup ∧ ∀ c ∈ counts, ∃ p ∈ F.parcels, p.id = c.tradeId := by
  unfold roundAction at h
  obtain ⟨stood, hstood, h⟩ := bind_ok h
  have hparcels := standAll_parcels hstood
  have hids : stood.map (·.parcel.id) = (F.parcels.filter fun p => p.date < a.date).map (·.id) := by
    rw [← hparcels, List.map_map]
    rfl
  have hnodup : (stood.map (·.parcel.id)).Nodup := hids ▸ Keyed.nodup_filter hF _
  have hsub := roundTasks_ids h
  refine ⟨hsub.nodup (tasks_nodup hnodup), fun c hc => ?_⟩
  obtain ⟨t, ht, hid⟩ := List.mem_flatMap.mp (hsub.subset (List.mem_map_of_mem hc))
  obtain ⟨p, hp, hid⟩ := List.mem_map.mp hid
  have hmem : p.parcel ∈ F.parcels.filter fun p => p.date < a.date :=
    hparcels ▸ List.mem_map_of_mem (tasks_parcels ht p hp)
  exact ⟨p.parcel, List.mem_of_mem_filter hmem, hid⟩

theorem roundAction_congr {actions : List ActionRow} (hF : F.Alike F' actions)
    (ha : a ∈ actions) (hrounded : a.rounded) :
    roundAction D F' done a event rule prior = roundAction D F done a event rule prior := by
  have hstand : standAll D F' done a (F.parcels.filter fun p => p.date < a.date) =
      standAll D F done a (F.parcels.filter fun p => p.date < a.date) :=
    standAll_congr fun p hp => by rw [hF.sales p (List.mem_of_mem_filter hp)]
  unfold roundAction
  rw [hF.parcels, hstand]
  cases hstood : standAll D F done a (F.parcels.filter fun p => p.date < a.date) with
  | error e => rfl
  | ok stood =>
    have htasks : tasks F' a rule stood = tasks F a rule stood := by
      unfold tasks holdingTask
      rw [hF.received a ha hrounded]
    change roundTasks _ _ _ _ _ = roundTasks _ _ _ _ _
    rw [htasks]
    refine roundTasks_congr fun t ht => ?_
    obtain ⟨p, hp, haccount⟩ := tasks_account ht
    have hmem : p.parcel ∈ F.parcels.filter fun p => p.date < a.date :=
      standAll_parcels hstood ▸ List.mem_map_of_mem hp
    rw [haccount, hF.scale p.parcel (List.mem_of_mem_filter hmem)]

end Action

/-! ### The pass -/

section Pass
variable {D : DecimalRounding} {F F' : Facts} {prior prior' : ℤ → TradeId → Option Prior}
  {done : List Done} {actions : List ActionRow} {rows : List CountRow}

theorem ActionRow.rounded_iff {a : ActionRow} :
    a.rounded ↔ ∃ event rule, a.event = some event ∧ a.rounding = some rule := by
  unfold ActionRow.rounded
  rw [Bool.and_eq_true, Option.isSome_iff_exists, Option.isSome_iff_exists]
  exact ⟨fun ⟨⟨e, he⟩, r, hr⟩ => ⟨e, r, he, hr⟩, fun ⟨e, r, he, hr⟩ => ⟨⟨e, he⟩, r, hr⟩⟩

theorem desired_cons_rounded {a : ActionRow} {event : SplitEvent} {rule : Rounding}
    (he : a.event = some event) (hr : a.rounding = some rule) :
    desired D F prior done (a :: actions) = (do
      let counts ← roundAction D F done a event rule (prior a.id)
      return counts.map (CountRow.mk a.id) ++
        (← desired D F prior (done ++ [⟨a, counts⟩]) actions)) := by
  rw [desired, he, hr]

theorem desired_cons_unrounded {a : ActionRow} (h : a.rounded = false) :
    desired D F prior done (a :: actions) = desired D F prior (done ++ [⟨a, []⟩]) actions := by
  rw [desired]
  split
  · rename_i event rule he hr
    rw [ActionRow.rounded_iff.mpr ⟨event, rule, he, hr⟩] at h
    cases h
  · rfl

/-- What a pass asks for, of its first action and of the rest. -/
theorem desired_cons {a : ActionRow} (h : desired D F prior done (a :: actions) = .ok rows) :
    (a.rounded = false ∧ desired D F prior (done ++ [⟨a, []⟩]) actions = .ok rows) ∨
      ∃ event rule counts rest, a.event = some event ∧ a.rounding = some rule ∧
        roundAction D F done a event rule (prior a.id) = .ok counts ∧
        desired D F prior (done ++ [⟨a, counts⟩]) actions = .ok rest ∧
        rows = counts.map (CountRow.mk a.id) ++ rest := by
  cases hrounded : a.rounded with
  | false => exact .inl ⟨rfl, desired_cons_unrounded hrounded ▸ h⟩
  | true =>
    obtain ⟨event, rule, he, hr⟩ := ActionRow.rounded_iff.mp hrounded
    rw [desired_cons_rounded he hr] at h
    obtain ⟨counts, hcounts, h⟩ := bind_ok h
    obtain ⟨rest, hrest, h⟩ := bind_ok h
    exact .inr ⟨event, rule, counts, rest, he, hr, hcounts, hrest, (Except.ok.inj h).symm⟩

/-- Asked again with its own answer as the priors, a pass answers the same. -/
theorem desired_again (h : desired D F prior done actions = .ok rows)
    (hprior : ∀ r ∈ rows, prior' r.action r.count.tradeId = some r.count.prior) :
    desired D F prior' done actions = .ok rows := by
  induction actions generalizing done rows with
  | nil => exact h
  | cons a actions ih =>
    rcases desired_cons h with ⟨hrounded, h⟩ | ⟨event, rule, counts, rest, he, hr, hcounts, hrest, rfl⟩
    · rw [desired_cons_unrounded hrounded]
      exact ih h hprior
    · have hfirst : ∀ c ∈ counts, prior' a.id c.tradeId = some c.prior := fun c hc =>
        hprior ⟨a.id, c⟩ (List.mem_append_left rest (List.mem_map_of_mem hc))
      rw [desired_cons_rounded he hr, roundAction_again hcounts hfirst]
      have hlast : desired D F prior' (done ++ [⟨a, counts⟩]) actions = .ok rest :=
        ih hrest fun r hr => hprior r (List.mem_append_right _ hr)
      change (desired D F prior' (done ++ [⟨a, counts⟩]) actions >>= fun rest =>
        pure (counts.map (CountRow.mk a.id) ++ rest)) = _
      rw [hlast]
      rfl

/-- A row asked for is of a rounded action and of a parcel of the listing. -/
theorem desired_rows (hF : (F.parcels.map (·.id)).Nodup)
    (h : desired D F prior done actions = .ok rows) :
    ∀ r ∈ rows, (∃ a ∈ actions, a.rounded ∧ a.id = r.action) ∧
      ∃ p ∈ F.parcels, p.id = r.count.tradeId := by
  induction actions generalizing done rows with
  | nil =>
    obtain rfl := Except.ok.inj h
    exact fun r hr => absurd hr List.not_mem_nil
  | cons a actions ih =>
    have hrest : ∀ {done rest}, desired D F prior done actions = .ok rest → ∀ r ∈ rest,
        (∃ b ∈ a :: actions, b.rounded ∧ b.id = r.action) ∧
          ∃ p ∈ F.parcels, p.id = r.count.tradeId := by
      intro done rest hrest r hr
      obtain ⟨⟨b, hb, hrounded⟩, hparcel⟩ := ih hrest r hr
      exact ⟨⟨b, List.mem_cons_of_mem a hb, hrounded⟩, hparcel⟩
    rcases desired_cons h with ⟨-, htail⟩ | ⟨event, rule, counts, rest, he, hr, hcounts, htail, rfl⟩
    · exact hrest htail
    · intro r hmem
      rcases List.mem_append.mp hmem with hmem | hmem
      · obtain ⟨c, hc, rfl⟩ := List.mem_map.mp hmem
        exact ⟨⟨a, List.mem_cons_self, ActionRow.rounded_iff.mpr ⟨event, rule, he, hr⟩, rfl⟩,
          (roundAction_ids hF hcounts).2 c hc⟩
      · exact hrest htail r hmem

theorem desired_nodup (hF : (F.parcels.map (·.id)).Nodup)
    (hactions : (actions.map ActionRow.id).Nodup)
    (h : desired D F prior done actions = .ok rows) : (rows.map CountRow.key).Nodup := by
  induction actions generalizing done rows with
  | nil =>
    obtain rfl := Except.ok.inj h
    exact List.nodup_nil
  | cons a actions ih =>
    obtain ⟨hnew, hactions⟩ := List.nodup_cons.mp hactions
    rcases desired_cons h with ⟨-, htail⟩ | ⟨event, rule, counts, rest, -, -, hcounts, htail, rfl⟩
    · exact ih hactions htail
    · rw [List.map_append, List.nodup_append]
      refine ⟨?_, ih hactions htail, ?_⟩
      · have hkeys : (counts.map (CountRow.mk a.id)).map CountRow.key =
            (counts.map (·.tradeId)).map (Prod.mk a.id) := by
          rw [List.map_map, List.map_map]
          rfl
        rw [hkeys]
        exact (roundAction_ids hF hcounts).1.map (Prod.mk_right_injective a.id)
      · intro k hk k' hk' heq
        obtain ⟨r, hr, rfl⟩ := List.mem_map.mp hk
        obtain ⟨c, -, rfl⟩ := List.mem_map.mp hr
        obtain ⟨r', hr', rfl⟩ := List.mem_map.mp hk'
        obtain ⟨⟨b, hb, -, hid⟩, -⟩ := desired_rows hF htail r' hr'
        have haction : a.id = r'.action := congrArg Prod.fst heq
        exact hnew (haction ▸ hid ▸ List.mem_map_of_mem hb)

theorem desired_congr {all : List ActionRow} (hF : F.Alike F' all) (hsub : ∀ a ∈ actions, a ∈ all) :
    desired D F' prior done actions = desired D F prior done actions := by
  induction actions generalizing done with
  | nil => rfl
  | cons a actions ih =>
    have hrest : ∀ done, desired D F' prior done actions = desired D F prior done actions :=
      fun done => ih fun b hb => hsub b (List.mem_cons_of_mem a hb)
    cases hrounded : a.rounded with
    | false =>
      rw [desired_cons_unrounded hrounded, desired_cons_unrounded hrounded, hrest]
    | true =>
      obtain ⟨event, rule, he, hr⟩ := ActionRow.rounded_iff.mp hrounded
      rw [desired_cons_rounded he hr, desired_cons_rounded he hr,
        roundAction_congr hF (hsub a List.mem_cons_self) hrounded]
      simp only [hrest]

/-- Actions without rounding ask for nothing. -/
theorem desired_unrounded (h : ∀ a ∈ actions, a.rounded = false) :
    desired D F prior done actions = .ok [] := by
  induction actions generalizing done with
  | nil => rfl
  | cons a actions ih =>
    rw [desired_cons_unrounded (h a List.mem_cons_self)]
    exact ih fun b hb => h b (List.mem_cons_of_mem a hb)

/-- Nor do those after the last rounded one move what is asked for. -/
theorem desired_trailing {trailing : List ActionRow} (h : ∀ a ∈ trailing, a.rounded = false) :
    desired D F prior done (actions ++ trailing) = desired D F prior done actions := by
  induction actions generalizing done with
  | nil => exact desired_unrounded h
  | cons a actions ih =>
    rw [List.cons_append]
    cases hrounded : a.rounded with
    | false =>
      rw [desired_cons_unrounded hrounded, desired_cons_unrounded hrounded, ih]
    | true =>
      obtain ⟨event, rule, he, hr⟩ := ActionRow.rounded_iff.mp hrounded
      rw [desired_cons_rounded he hr, desired_cons_rounded he hr]
      simp only [ih]

end Pass

end ShareTracker.RoundedCounts
