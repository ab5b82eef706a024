import Mathlib

/-!
# Ordered maps

Finite maps as association lists in strictly ascending key order, so that equal
maps are equal values and iteration follows the key order.
-/

/-- A finite map with its entries in ascending key order. -/
@[ext] structure OrdMap (K V : Type) [LinearOrder K] where
  entries : List (K × V)
  sorted : entries.Pairwise fun x y => x.1 < y.1

namespace OrdMap

variable {K V : Type} [LinearOrder K] {m : OrdMap K V} {k : K} {v : V}

instance [DecidableEq V] : DecidableEq (OrdMap K V) := fun m n =>
  decidable_of_iff (m.entries = n.entries) OrdMap.ext_iff.symm

def empty : OrdMap K V := ⟨[], .nil⟩

def size (m : OrdMap K V) : ℕ := m.entries.length

def keys (m : OrdMap K V) : List K := m.entries.map (·.1)

def lookupList (k : K) : List (K × V) → Option V
  | [] => none
  | (k', v) :: l => if k' = k then some v else lookupList k l

def get? (m : OrdMap K V) (k : K) : Option V := lookupList k m.entries

def insertList (k : K) (v : V) : List (K × V) → List (K × V)
  | [] => [(k, v)]
  | (k', v') :: l =>
    if k < k' then (k, v) :: (k', v') :: l
    else if k' = k then (k, v) :: l
    else (k', v') :: insertList k v l

theorem mem_insertList {l : List (K × V)} {p : K × V}
    (h : p ∈ insertList k v l) : p = (k, v) ∨ p ∈ l := by
  induction l with
  | nil => simpa [insertList] using h
  | cons q l ih =>
    unfold insertList at h
    split at h
    · simpa using h
    · split at h
      · rcases List.mem_cons.1 h with h | h
        · exact .inl h
        · exact .inr (by simp [h])
      · rcases List.mem_cons.1 h with h | h
        · exact .inr (by simp [h])
        · rcases ih h with h | h
          · exact .inl h
          · exact .inr (by simp [h])

theorem insertList_sorted {l : List (K × V)}
    (h : l.Pairwise fun x y => x.1 < y.1) : (insertList k v l).Pairwise fun x y => x.1 < y.1 := by
  induction l with
  | nil => simp [insertList]
  | cons q l ih =>
    obtain ⟨hq, hl⟩ := List.pairwise_cons.1 h
    unfold insertList
    split
    · rename_i hlt
      refine List.pairwise_cons.2 ⟨?_, h⟩
      intro p hp
      rcases List.mem_cons.1 hp with rfl | hp
      · exact hlt
      · exact hlt.trans (hq p hp)
    · rename_i hge
      split
      · rename_i heq
        exact List.pairwise_cons.2 ⟨fun p hp => heq ▸ hq p hp, hl⟩
      · rename_i hne
        refine List.pairwise_cons.2 ⟨?_, ih hl⟩
        intro p hp
        rcases mem_insertList hp with rfl | hp
        · exact lt_of_le_of_ne (not_lt.1 hge) hne
        · exact hq p hp

def insert (m : OrdMap K V) (k : K) (v : V) : OrdMap K V :=
  ⟨insertList k v m.entries, insertList_sorted m.sorted⟩

def mapValues (m : OrdMap K V) (f : V → V) : OrdMap K V :=
  ⟨m.entries.map fun p => (p.1, f p.2), List.pairwise_map.2 m.sorted⟩

@[simp] theorem get?_empty (k : K) : (empty : OrdMap K V).get? k = none := rfl

@[simp] theorem get?_insert_self (m : OrdMap K V) (k : K) (v : V) :
    (m.insert k v).get? k = some v := by
  have h : ∀ l : List (K × V), lookupList k (insertList k v l) = some v := by
    intro l
    induction l with
    | nil => simp [insertList, lookupList]
    | cons q l ih =>
      unfold insertList
      split
      · simp [lookupList]
      · split
        · simp [lookupList]
        · rename_i hne
          simp [lookupList, hne, ih]
  exact h m.entries

theorem get?_insert_of_ne (m : OrdMap K V) {k k' : K} (v : V) (hne : k' ≠ k) :
    (m.insert k v).get? k' = m.get? k' := by
  have h : ∀ l : List (K × V), lookupList k' (insertList k v l) = lookupList k' l := by
    intro l
    induction l with
    | nil => simp [insertList, lookupList, hne.symm]
    | cons q l ih =>
      unfold insertList
      split
      · simp [lookupList, hne.symm]
      · split
        · rename_i heq
          simp [lookupList, heq, hne.symm]
        · simp [lookupList, ih]
  exact h m.entries

/-- A value after the insertion is the inserted one, or an old one under another key. -/
theorem get?_insert_cases {k' : K} {v' : V} (hget : (m.insert k v).get? k' = some v') :
    k' = k ∧ v' = v ∨ k' ≠ k ∧ m.get? k' = some v' := by
  by_cases hk : k' = k
  · subst hk
    rw [get?_insert_self] at hget
    exact .inl ⟨rfl, (Option.some.inj hget).symm⟩
  · rw [get?_insert_of_ne m v hk] at hget
    exact .inr ⟨hk, hget⟩

theorem forall_insert {P : K → V → Prop}
    (h : ∀ k' v', k' ≠ k → m.get? k' = some v' → P k' v') (hv : P k v) (k' : K) (v' : V)
    (hget : (m.insert k v).get? k' = some v') : P k' v' := by
  rcases get?_insert_cases hget with ⟨rfl, rfl⟩ | ⟨hk, hget⟩
  · exact hv
  · exact h k' v' hk hget

theorem keeps_insert {R : V → V → Prop} (hrefl : ∀ a, R a a)
    (hv : ∀ a, m.get? k = some a → R a v) (k' : K) (a : V) (hget : m.get? k' = some a) :
    ∃ b, (m.insert k v).get? k' = some b ∧ R a b := by
  by_cases hk : k' = k
  · subst hk
    exact ⟨v, get?_insert_self m k' v, hv a hget⟩
  · exact ⟨a, (get?_insert_of_ne m v hk).trans hget, hrefl a⟩

@[simp] theorem get?_mapValues (m : OrdMap K V) (f : V → V) (k : K) :
    (m.mapValues f).get? k = (m.get? k).map f := by
  have h : ∀ l : List (K × V),
      lookupList k (l.map fun p => (p.1, f p.2)) = (lookupList k l).map f := by
    intro l
    induction l with
    | nil => rfl
    | cons q l ih =>
      simp only [List.map_cons, lookupList, ih]
      split <;> rfl
  exact h m.entries

theorem mem_entries_iff (m : OrdMap K V) (k : K) (v : V) :
    (k, v) ∈ m.entries ↔ m.get? k = some v := by
  have h : ∀ l : List (K × V), (l.Pairwise fun x y => x.1 < y.1) →
      ((k, v) ∈ l ↔ lookupList k l = some v) := by
    intro l hl
    induction l with
    | nil => simp [lookupList]
    | cons q l ih =>
      obtain ⟨k', v'⟩ := q
      obtain ⟨hq, hl'⟩ := List.pairwise_cons.1 hl
      by_cases hk : k' = k
      · subst hk
        have hnot : (k', v) ∉ l := fun hm => lt_irrefl k' (hq (k', v) hm)
        simp [lookupList, hnot, eq_comm]
      · simp [lookupList, hk, ih hl', Ne.symm hk]
  exact h m.entries m.sorted

theorem keys_nodup (m : OrdMap K V) : m.keys.Nodup :=
  List.pairwise_map.2 (m.sorted.imp fun h => ne_of_lt h)

theorem size_le_of_keys {l : List K} (h : ∀ p ∈ m.entries, p.1 ∈ l) : m.size ≤ l.length := by
  have hsub : m.keys ⊆ l := by
    intro k hk
    obtain ⟨p, hp, rfl⟩ := List.mem_map.1 hk
    exact h p hp
  have hlen := (List.subperm_of_subset m.keys_nodup hsub).length_le
  simpa [keys, size] using hlen

end OrdMap
