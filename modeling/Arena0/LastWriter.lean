import Arena0.OrdMap

/-!
# Last writer wins

A map that keeps one value per key: a value takes a free place while there is room,
and the place of a value of lower rank.  When all keys fit, the map holds for
every key the value of the highest rank, whatever the order in which the values come
and however often they are repeated.
-/

namespace OrdMap

variable {K V : Type} [LinearOrder K] {m : OrdMap K V}

def retain (m : OrdMap K V) (keep : V → Bool) : OrdMap K V :=
  ⟨m.entries.filter fun p => keep p.2, m.sorted.filter _⟩

theorem get?_retain {keep : V → Bool} {k : K} {v : V} :
    (m.retain keep).get? k = some v ↔ m.get? k = some v ∧ keep v = true := by
  rw [← mem_entries_iff, ← mem_entries_iff, retain, List.mem_filter]

theorem retain_eq_self {keep : V → Bool}
    (h : ∀ k v, m.get? k = some v → keep v = true) : m.retain keep = m := by
  apply OrdMap.ext
  refine List.filter_eq_self.2 fun p hp => ?_
  exact h p.1 p.2 ((mem_entries_iff m p.1 p.2).1 hp)

theorem eq_of_get? {m n : OrdMap K V} (h : ∀ k, m.get? k = n.get? k) : m = n := by
  have hmem : ∀ p, p ∈ m.entries ↔ p ∈ n.entries := by
    rintro ⟨k, v⟩
    rw [mem_entries_iff, mem_entries_iff, h k]
  have hnodup : ∀ o : OrdMap K V, o.entries.Nodup := fun o =>
    o.sorted.imp fun hlt heq => (ne_of_lt hlt) (congrArg Prod.fst heq)
  have hperm : m.entries.Perm n.entries :=
    (List.perm_ext_iff_of_nodup (hnodup m) (hnodup n)).2 hmem
  apply OrdMap.ext
  exact hperm.eq_of_pairwise (fun p q _ _ hpq hqp => absurd (hpq.trans hqp) (lt_irrefl _))
    m.sorted n.sorted

def values (m : OrdMap K V) : List V := m.entries.map (·.2)

theorem mem_values {v : V} : v ∈ m.values ↔ ∃ k, m.get? k = some v := by
  simp only [values, List.mem_map, Prod.exists, exists_eq_right, mem_entries_iff]

theorem values_retain (m : OrdMap K V) (keep : V → Bool) :
    (m.retain keep).values = m.values.filter keep := by
  simp only [values, retain, List.filter_map]
  rfl

theorem pairwise_values {key : V → K}
    (h : ∀ k v, m.get? k = some v → key v = k) : m.values.Pairwise fun v w => key v < key w := by
  refine List.pairwise_map.2 (m.sorted.imp_of_mem fun {p q} hp hq hlt => ?_)
  rw [h p.1 p.2 ((mem_entries_iff m _ _).1 hp), h q.1 q.2 ((mem_entries_iff m _ _).1 hq)]
  exact hlt

end OrdMap

namespace LastWriter

variable {K V R : Type} [LinearOrder K] [LinearOrder R] (key : V → K) (rank : V → R)
  (capacity : ℕ)

def apply (m : OrdMap K V) (v : V) : OrdMap K V :=
  match m.get? (key v) with
  | none => if capacity ≤ m.size then m else m.insert (key v) v
  | some w => if rank w < rank v then m.insert (key v) v else m

def applyAll (m : OrdMap K V) (l : List V) : OrdMap K V :=
  l.foldl (apply key rank capacity) m

theorem forall_apply {m : OrdMap K V} {v : V} {P : V → Prop}
    (h : ∀ k w, m.get? k = some w → P w) (hv : P v) :
    ∀ k w, (apply key rank capacity m v).get? k = some w → P w := by
  rw [apply]
  have hinsert : ∀ k w, (m.insert (key v) v).get? k = some w → P w :=
    OrdMap.forall_insert (fun k w _ hw => h k w hw) hv
  split <;> split
  all_goals assumption

theorem forall_applyAll {m : OrdMap K V} {l : List V} {P : V → Prop}
    (h : ∀ k w, m.get? k = some w → P w) (hl : ∀ v ∈ l, P v) :
    ∀ k w, (applyAll key rank capacity m l).get? k = some w → P w := by
  induction l generalizing m with
  | nil => exact h
  | cons v l ih =>
    obtain ⟨hv, hl⟩ := List.forall_mem_cons.1 hl
    exact ih (forall_apply key rank capacity h hv) hl

/-- The map holds values of the list under their keys, and no value of the list ranks higher than
the one held under its key. -/
structure Best (m : OrdMap K V) (l : List V) : Prop where
  held : ∀ k w, m.get? k = some w → w ∈ l ∧ key w = k
  top : ∀ v ∈ l, ∃ w, m.get? (key v) = some w ∧ rank v ≤ rank w

variable {key rank capacity} {m n : OrdMap K V} {l l' : List V} {v : V} {S : Finset K}

theorem Best.values (h : ∀ k v, m.get? k = some v → key v = k) : Best key rank m m.values := by
  constructor
  · exact fun k w hw => ⟨OrdMap.mem_values.2 ⟨k, hw⟩, h k w hw⟩
  · intro v hv
    obtain ⟨k, hk⟩ := OrdMap.mem_values.1 hv
    exact ⟨v, by rw [h k v hk, hk], le_rfl⟩

theorem Best.insert (h : Best key rank m l)
    (hv : ∀ w, m.get? (key v) = some w → rank w ≤ rank v) :
    Best key rank (m.insert (key v) v) (l ++ [v]) := by
  constructor
  · refine OrdMap.forall_insert (fun k w _ hw => ?_) ?_
    · exact ⟨List.mem_append_left _ (h.held k w hw).1, (h.held k w hw).2⟩
    · exact ⟨List.mem_append_right _ (List.mem_singleton_self v), rfl⟩
  · intro u hu
    by_cases hk : key u = key v
    · refine ⟨v, by rw [hk, OrdMap.get?_insert_self], ?_⟩
      obtain hu | hu := List.mem_append.1 hu
      · obtain ⟨w, hw, hle⟩ := h.top u hu
        exact hle.trans (hv w (hk ▸ hw))
      · rw [List.mem_singleton.1 hu]
    · rw [OrdMap.get?_insert_of_ne m v hk]
      obtain hu | hu := List.mem_append.1 hu
      · exact h.top u hu
      · exact absurd (congrArg key (List.mem_singleton.1 hu)) hk

theorem Best.keep (h : Best key rank m l) {w : V} (hw : m.get? (key v) = some w)
    (hle : rank v ≤ rank w) : Best key rank m (l ++ [v]) := by
  constructor
  · exact fun k u hu => ⟨List.mem_append_left _ (h.held k u hu).1, (h.held k u hu).2⟩
  · intro u hu
    obtain hu | hu := List.mem_append.1 hu
    · exact h.top u hu
    · rw [List.mem_singleton.1 hu]
      exact ⟨w, hw, hle⟩

theorem Best.size_lt (h : Best key rank m l) (hl : ∀ u ∈ l, key u ∈ S)
    (hv : key v ∈ S) (hnone : m.get? (key v) = none) : m.size < S.card := by
  have hkeys : ∀ p ∈ m.entries, p.1 ∈ (S.erase (key v)).toList := by
    rintro ⟨k, w⟩ hp
    have hget := (OrdMap.mem_entries_iff m k w).1 hp
    obtain ⟨hw, rfl⟩ := h.held k w hget
    refine Finset.mem_toList.2 (Finset.mem_erase.2 ⟨fun heq => ?_, hl w hw⟩)
    rw [← heq, hget] at hnone
    cases hnone
  have hle := OrdMap.size_le_of_keys hkeys
  rw [Finset.length_toList, Finset.card_erase_of_mem hv] at hle
  have hpos := Finset.card_pos.2 ⟨_, hv⟩
  omega

theorem Best.apply (h : Best key rank m l) (hl : ∀ u ∈ l, key u ∈ S)
    (hv : key v ∈ S) (hS : S.card ≤ capacity) :
    Best key rank (LastWriter.apply key rank capacity m v) (l ++ [v]) := by
  rw [LastWriter.apply]
  split
  next hnone =>
    rw [if_neg (not_le.2 ((h.size_lt hl hv hnone).trans_le hS))]
    refine h.insert fun w hw => ?_
    rw [hnone] at hw
    cases hw
  next w hw =>
    split
    next hlt =>
      refine h.insert fun u hu => ?_
      rw [← Option.some.inj (hw.symm.trans hu)]
      exact hlt.le
    next hlt => exact h.keep hw (not_lt.1 hlt)

theorem Best.applyAll (h : Best key rank m l) (hl : ∀ u ∈ l ++ l', key u ∈ S)
    (hS : S.card ≤ capacity) :
    Best key rank (LastWriter.applyAll key rank capacity m l') (l ++ l') := by
  induction l' generalizing m l with
  | nil =>
    rw [List.append_nil]
    exact h
  | cons v l' ih =>
    have hstep := h.apply (fun u hu => hl u (List.mem_append_left _ hu))
      (hl v (List.mem_append_right _ List.mem_cons_self)) hS
    have hall := ih hstep (by
      intro u hu
      apply hl
      rwa [List.append_assoc] at hu)
    rwa [List.append_assoc] at hall

def Distinct (key : V → K) (rank : V → R) (l : List V) : Prop :=
  ∀ v ∈ l, ∀ w ∈ l, key v = key w → rank v = rank w → v = w

theorem Best.get?_iff (h : Best key rank m l) (hd : Distinct key rank l) {k : K} :
    m.get? k = some v ↔ v ∈ l ∧ key v = k ∧ ∀ w ∈ l, key w = k → rank w ≤ rank v := by
  constructor
  · intro hv
    obtain ⟨hmem, hk⟩ := h.held k v hv
    refine ⟨hmem, hk, fun w hw hkw => ?_⟩
    obtain ⟨u, hu, hle⟩ := h.top w hw
    rw [hkw, hv] at hu
    rwa [Option.some.inj hu]
  · rintro ⟨hmem, rfl, hmax⟩
    obtain ⟨w, hw, hle⟩ := h.top v hmem
    obtain ⟨hwl, hkw⟩ := h.held _ w hw
    rw [hw, hd w hwl v hmem hkw (le_antisymm (hmax w hwl hkw) hle)]

/-- Order and repetition leave no trace. -/
theorem Best.unique (h : Best key rank m l) (h' : Best key rank n l') (hd : Distinct key rank l)
    (hmem : ∀ v, v ∈ l ↔ v ∈ l') : m = n := by
  have hd' : Distinct key rank l' := fun v hv w hw =>
    hd v ((hmem v).2 hv) w ((hmem w).2 hw)
  refine OrdMap.eq_of_get? fun k => Option.ext fun v => ?_
  rw [h.get?_iff hd, h'.get?_iff hd', hmem v]
  simp only [hmem]

end LastWriter
