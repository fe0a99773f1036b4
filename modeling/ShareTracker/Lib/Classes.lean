import Mathlib

/-!
# Classes of a list by a key

Rows are put one after another into the first group whose first row has their
key. The groups are the classes of the list: one for each key, in the order the
keys first come, each with all rows of its key in their order.
-/
namespace Classes
variable {ρ κ : Type*} [DecidableEq κ] (key : ρ → κ)

def place (row : ρ) : List (List ρ) → List (List ρ)
  | [] => [[row]]
  | group :: groups =>
    if group.head?.map key = some (key row) then (group ++ [row]) :: groups
    else group :: place row groups

def groups (rows : List ρ) : List (List ρ) := rows.foldl (fun gs row => place key row gs) []

/-- The rows of a key. -/
def classOf (rows : List ρ) (k : κ) : List ρ := rows.filter fun row => key row = k

def addKey (ks : List κ) (k : κ) : List κ := if k ∈ ks then ks else ks ++ [k]

/-- The keys in the order they first come. -/
def firstKeys (rows : List ρ) : List κ := rows.foldl (fun ks row => addKey ks (key row)) []

variable {key} {rows : List ρ} {row : ρ}

theorem firstKeys_concat (rows : List ρ) (row : ρ) :
    firstKeys key (rows ++ [row]) = addKey (firstKeys key rows) (key row) := by
  rw [firstKeys, List.foldl_append]
  rfl

theorem groups_concat (rows : List ρ) (row : ρ) :
    groups key (rows ++ [row]) = place key row (groups key rows) := by
  rw [groups, List.foldl_append]
  rfl

theorem mem_addKey {ks : List κ} {k k' : κ} : k' ∈ addKey ks k ↔ k' ∈ ks ∨ k' = k := by
  unfold addKey
  split
  · exact ⟨.inl, fun h => h.elim id fun heq => heq ▸ by assumption⟩
  · rw [List.mem_append, List.mem_singleton]

theorem nodup_addKey {ks : List κ} (h : ks.Nodup) (k : κ) : (addKey ks k).Nodup := by
  unfold addKey
  split
  · exact h
  · rename_i hk
    rw [List.nodup_append]
    refine ⟨h, List.nodup_singleton k, ?_⟩
    intro a ha b hb hab
    exact hk (List.mem_singleton.mp hb ▸ hab ▸ ha)

theorem mem_firstKeys {k : κ} : k ∈ firstKeys key rows ↔ ∃ row ∈ rows, key row = k := by
  induction rows using List.reverseRecOn with
  | nil => exact iff_of_false List.not_mem_nil (by simp)
  | append_singleton rows row ih =>
    rw [firstKeys_concat, mem_addKey, ih]
    constructor
    · rintro (⟨r, hr, heq⟩ | rfl)
      · exact ⟨r, List.mem_append_left _ hr, heq⟩
      · exact ⟨row, List.mem_append_right _ (List.mem_singleton_self row), rfl⟩
    · rintro ⟨r, hr, rfl⟩
      rcases List.mem_append.mp hr with hr | hr
      · exact .inl ⟨r, hr, rfl⟩
      · exact .inr (congrArg key (List.mem_singleton.mp hr))

theorem nodup_firstKeys (rows : List ρ) : (firstKeys key rows).Nodup := by
  induction rows using List.reverseRecOn with
  | nil => exact List.nodup_nil
  | append_singleton rows row ih =>
    rw [firstKeys_concat]
    exact nodup_addKey ih _

theorem classOf_concat (rows : List ρ) (row : ρ) (k : κ) :
    classOf key (rows ++ [row]) k = classOf key rows k ++ if key row = k then [row] else [] := by
  rw [classOf, List.filter_append]
  by_cases h : key row = k
  · simp [classOf, h]
  · simp [classOf, h]

theorem head_classOf {k : κ} (h : k ∈ firstKeys key rows) :
    (classOf key rows k).head?.map key = some k := by
  obtain ⟨r, hr, rfl⟩ := mem_firstKeys.mp h
  have hmem : r ∈ classOf key rows (key r) := List.mem_filter.mpr ⟨hr, decide_eq_true rfl⟩
  obtain ⟨c, cs, hcons⟩ := List.exists_cons_of_ne_nil (List.ne_nil_of_mem hmem)
  have hc : c ∈ classOf key rows (key r) := hcons ▸ List.mem_cons_self
  rw [hcons, List.head?_cons, Option.map_some, of_decide_eq_true (List.mem_filter.mp hc).2]

/-- A row goes to the group of its key, or makes one behind all others. -/
theorem place_classes {ks : List κ} (hks : ks.Nodup)
    (hhead : ∀ k ∈ ks, (classOf key rows k).head?.map key = some k)
    (hnew : key row ∉ ks → classOf key rows (key row) = []) :
    place key row (ks.map (classOf key rows)) =
      (addKey ks (key row)).map (classOf key (rows ++ [row])) := by
  induction ks with
  | nil =>
    rw [addKey, if_neg List.not_mem_nil, List.nil_append, List.map_singleton, classOf_concat,
      if_pos rfl, hnew List.not_mem_nil]
    rfl
  | cons k ks ih =>
    obtain ⟨hk, hnodup⟩ := List.nodup_cons.mp hks
    rw [List.map_cons, place, hhead k List.mem_cons_self]
    by_cases heq : k = key row
    · have hrest : ∀ k' ∈ ks, classOf key rows k' = classOf key (rows ++ [row]) k' := by
        intro k' hk'
        have hne : key row ≠ k' := fun h => hk (heq ▸ h ▸ hk')
        rw [classOf_concat, if_neg hne, List.append_nil]
      rw [if_pos (congrArg some heq), addKey, if_pos (heq ▸ List.mem_cons_self), List.map_cons,
        classOf_concat, if_pos heq.symm, List.map_congr_left hrest]
    · have htail := ih hnodup (fun k' hk' => hhead k' (List.mem_cons_of_mem k hk'))
        fun hnot => hnew fun hmem => (List.mem_cons.mp hmem).elim (fun h => heq h.symm) hnot
      have hkeys : addKey (k :: ks) (key row) = k :: addKey ks (key row) := by
        unfold addKey
        by_cases hmem : key row ∈ ks
        · rw [if_pos hmem, if_pos (List.mem_cons_of_mem k hmem)]
        · rw [if_neg hmem, if_neg fun h => (List.mem_cons.mp h).elim (fun h => heq h.symm) hmem]
          rfl
      rw [if_neg fun h => heq (Option.some.inj h), htail, hkeys, List.map_cons, classOf_concat,
        if_neg fun h => heq h.symm, List.append_nil]

theorem groups_eq (rows : List ρ) :
    groups key rows = (firstKeys key rows).map (classOf key rows) := by
  induction rows using List.reverseRecOn with
  | nil => rfl
  | append_singleton rows row ih =>
    rw [groups_concat, ih, firstKeys_concat]
    refine place_classes (nodup_firstKeys rows) (fun k hk => head_classOf hk) fun hnot => ?_
    refine List.filter_eq_nil_iff.mpr fun r hr heq => hnot (mem_firstKeys.mpr ⟨r, hr, ?_⟩)
    exact of_decide_eq_true heq

theorem mem_groups {g : List ρ} :
    g ∈ groups key rows ↔ ∃ r ∈ rows, g = classOf key rows (key r) := by
  rw [groups_eq, List.mem_map]
  constructor
  · rintro ⟨k, hk, rfl⟩
    obtain ⟨r, hr, rfl⟩ := mem_firstKeys.mp hk
    exact ⟨r, hr, rfl⟩
  · rintro ⟨r, hr, rfl⟩
    exact ⟨key r, mem_firstKeys.mpr ⟨r, hr, rfl⟩, rfl⟩

theorem nodup_groups (rows : List ρ) : (groups key rows).Nodup := by
  rw [groups_eq]
  refine (nodup_firstKeys rows).map_on fun k hk k' hk' heq => ?_
  exact Option.some.inj ((head_classOf hk).symm.trans (heq ▸ head_classOf hk'))

end Classes
