import Mathlib

/-!
# Seeded permutations

The Host draws a permutation by a descending Fisher-Yates pass over the identity, and
the guest applies it in place by following its cycles.  The words of the seeded ChaCha20
generator are a stream; an index out of range, which panics in the source, is `none`.
-/

namespace Arena0

variable {α β : Type}

def swapAt (l : List α) (i j : ℕ) : Option (List α) := do
  let a ← l[i]?
  let b ← l[j]?
  return (l.set i b).set j a

/-! ## Drawing -/

abbrev Words := ℕ → UInt64

def maxRejections : ℕ := 1024

/-- `upper_bound.wrapping_neg() % upper_bound`. -/
def threshold (upperBound : UInt64) : UInt64 := (0 - upperBound) % upperBound

def draw (upperBound : UInt64) : ℕ → Words → Option (UInt64 × Words)
  | 0, _ => none
  | budget + 1, words =>
    if threshold upperBound ≤ words 0 then some (words 0 % upperBound, fun i => words (i + 1))
    else draw upperBound budget fun i => words (i + 1)

def choose (words : Words) (upperBound : UInt64) : Option (UInt64 × Words) :=
  draw upperBound maxRejections words

def descend : ℕ → Words → List α → Option (List α)
  | 0, _, l => some l
  | index + 1, words, l => do
    let (swap, words) ← choose words (.ofNat (index + 2))
    let l ← swapAt l (index + 1) swap.toNat
    descend index words l

def permutation (words : Words) (n : UInt32) : Option (List ℕ) :=
  descend (n.toNat - 1) words (List.range n.toNat)

/-! ## Choices -/

/-- The choices of the draws of a pass; `budget` words are left for the first of them. -/
def choicesFrom (budget : ℕ) : ℕ → Words → Option (List ℕ)
  | 0, _ => some []
  | index + 1, words => do
    let (swap, words) ← draw (.ofNat (index + 2)) budget words
    let rest ← choicesFrom maxRejections index words
    return swap.toNat :: rest

def choices : ℕ → Words → Option (List ℕ) := choicesFrom maxRejections

def IsChoice : ℕ → List ℕ → Prop
  | 0, cs => cs = []
  | _ + 1, [] => False
  | index + 1, c :: cs => c ≤ index + 1 ∧ IsChoice index cs

def swapAll : ℕ → List ℕ → List α → Option (List α)
  | 0, [], l => some l
  | index + 1, c :: cs, l => do
    let l ← swapAt l (index + 1) c
    swapAll index cs l
  | _, _, _ => none

section Swaps

variable {l l' p : List α} {i j k c : ℕ} {cs : List ℕ}

theorem swapAt_eq (hi : i < l.length) (hj : j < l.length) :
    swapAt l i j = some ((l.set i l[j]).set j l[i]) := by
  simp [swapAt, hi, hj]

theorem swapAt_perm (h : swapAt l i j = some l') : l'.Perm l := by
  simp only [swapAt, Option.bind_eq_bind, Option.bind_eq_some_iff, Option.pure_def,
    Option.some.injEq, List.getElem?_eq_some_iff] at h
  obtain ⟨_, ⟨hi, rfl⟩, _, ⟨hj, rfl⟩, rfl⟩ := h
  exact List.set_set_perm hi hj

theorem swapAt_map (f : α → β) (l : List α) (i j : ℕ) :
    swapAt (l.map f) i j = (swapAt l i j).map (List.map f) := by
  simp only [swapAt, List.getElem?_map, Option.bind_eq_bind, Option.pure_def]
  cases l[i]? <;> cases l[j]? <;> simp

theorem swapAt_append (hi : i < l.length) (hj : j < l.length) (t : List α) :
    swapAt (l ++ t) i j = (swapAt l i j).map (· ++ t) := by
  have hlength : l.length ≤ (l ++ t).length := by simp
  rw [swapAt_eq hi hj, swapAt_eq (hi.trans_le hlength) (hj.trans_le hlength)]
  simp [List.getElem_append_left, hi, hj, List.set_append_left]

theorem swapAt_last (hl : l.length = k + 1) (hc : c ≤ k) :
    ∃ init, swapAt l k c = some (init ++ [l[c]]) ∧ init.length = k := by
  have hk : k < l.length := by omega
  refine ⟨((l.set k l[c]).set c l[k]).take k, ?_, by simp; omega⟩
  have hlen : ((l.set k l[c]).set c l[k]).length = k + 1 := by simpa using hl
  rw [swapAt_eq hk (by omega)]
  congr 1
  conv_lhs => rw [← List.take_append_drop k ((l.set k l[c]).set c l[k])]
  rw [List.drop_eq_getElem_cons (by omega), List.drop_eq_nil_of_le (by omega)]
  rcases eq_or_ne c k with rfl | hne
  · simp
  · simp [hne]

theorem swapAll_perm (h : swapAll k cs l = some p) : p.Perm l := by
  induction k generalizing cs l with
  | zero =>
    cases cs with
    | nil =>
      cases h
      exact .refl _
    | cons => cases h
  | succ k ih =>
    cases cs with
    | nil => cases h
    | cons c cs =>
      obtain ⟨l', hl', h⟩ := Option.bind_eq_some_iff.1 h
      exact (ih h).trans (swapAt_perm hl')

theorem swapAll_map (f : α → β) (k : ℕ) (cs : List ℕ) (l : List α) :
    swapAll k cs (l.map f) = (swapAll k cs l).map (List.map f) := by
  induction k generalizing cs l with
  | zero => cases cs <;> rfl
  | succ k ih =>
    cases cs with
    | nil => rfl
    | cons c cs =>
      rw [swapAll, swapAll, swapAt_map]
      cases swapAt l (k + 1) c with
      | none => rfl
      | some l' => exact ih cs l'

theorem swapAll_append (hk : k < l.length) (hcs : IsChoice k cs) (t : List α) :
    swapAll k cs (l ++ t) = (swapAll k cs l).map (· ++ t) := by
  induction k generalizing cs l with
  | zero => rw [hcs]; rfl
  | succ k ih =>
    cases cs with
    | nil => cases hcs
    | cons c cs =>
      rw [swapAll, swapAll, swapAt_append hk (by have := hcs.1; omega)]
      cases h : swapAt l (k + 1) c with
      | none => rfl
      | some l' => exact ih (by rw [(swapAt_perm h).length_eq]; omega) hcs.2

theorem exists_swapAll (hk : k ≤ l.length - 1) (hcs : IsChoice k cs) :
    ∃ p, swapAll k cs l = some p := by
  induction k generalizing cs l with
  | zero => exact ⟨l, by rw [hcs]; rfl⟩
  | succ k ih =>
    cases cs with
    | nil => cases hcs
    | cons c cs =>
      have hc := hcs.1
      have hswap := swapAt_eq (l := l) (i := k + 1) (j := c) (by omega) (by omega)
      obtain ⟨p, hp⟩ := ih (l := (l.set (k + 1) l[c]).set c l[k + 1]) (by simp; omega) hcs.2
      exact ⟨p, by rw [swapAll, hswap]; exact hp⟩

/-- Every order of distinct elements comes from exactly one sequence of choices. -/
theorem existsUnique_choice (hl : l.length - 1 = k) (hnodup : l.Nodup) (hp : p.Perm l) :
    ∃! cs, IsChoice k cs ∧ swapAll k cs l = some p := by
  induction k generalizing l p with
  | zero =>
    have hsame : p = l := by
      match l, hl with
      | [], _ => exact hp.eq_nil
      | [a], _ => exact List.perm_singleton.1 hp
    exact ⟨[], ⟨rfl, by rw [hsame]; rfl⟩, fun cs h => h.1⟩
  | succ k ih =>
    -- the last element of the order says which element is chosen first
    have hlength : l.length = k + 2 := by omega
    obtain ⟨front, a, rfl⟩ : ∃ front a, p = front ++ [a] := by
      refine (List.eq_nil_or_concat' p).resolve_left ?_
      rintro rfl
      rw [← hp.length_eq] at hlength
      cases hlength
    obtain ⟨c, hc, rfl⟩ := List.getElem_of_mem (hp.subset (List.mem_append_right _ List.mem_cons_self))
    obtain ⟨init, hswap, hinit⟩ := swapAt_last hlength (by omega : c ≤ k + 1)
    have hperm := swapAt_perm hswap
    have hfront : front.Perm init := (List.perm_append_right_iff _).1 (hp.trans hperm.symm)
    have hrest := ih (by omega) ((List.nodup_append.1 (hperm.nodup_iff.2 hnodup)).1) hfront
    obtain ⟨cs, ⟨hcs, hall⟩, hunique⟩ := hrest
    refine ⟨c :: cs, ⟨⟨by omega, hcs⟩, ?_⟩, ?_⟩
    · rw [swapAll, hswap, Option.bind_eq_bind, Option.bind_some,
        swapAll_append (by omega) hcs, hall]
      rfl
    · rintro cs' ⟨hcs', hall'⟩
      cases cs' with
      | nil => cases hcs'
      | cons c' cs' =>
        obtain ⟨init', hswap', hinit'⟩ := swapAt_last hlength hcs'.1
        rw [swapAll, hswap', Option.bind_eq_bind, Option.bind_some,
          swapAll_append (by omega) hcs'.2, Option.map_eq_some_iff] at hall'
        obtain ⟨q, hq, heq⟩ := hall'
        obtain ⟨rfl, hlast⟩ := List.append_inj' heq rfl
        obtain rfl : c' = c := (hnodup.getElem_inj_iff).1 (List.cons.inj hlast).1
        obtain ⟨rfl, -⟩ := List.append_inj' (Option.some.inj (hswap.symm.trans hswap')) rfl
        rw [hunique cs' ⟨hcs'.2, hq⟩]

end Swaps

/-! ## Words -/

theorem toNat_bound {k : ℕ} (hk : k < 2 ^ 32) : (UInt64.ofNat (k + 2)).toNat = k + 2 :=
  UInt64.toNat_ofNat_of_lt' (lt_of_lt_of_le (by omega : k + 2 < 2 ^ 33) (by decide))

theorem draw_lt {m swap : UInt64} {budget : ℕ} {words rest : Words} (hm : 0 < m.toNat)
    (h : draw m budget words = some (swap, rest)) : swap.toNat < m.toNat := by
  induction budget generalizing words with
  | zero => cases h
  | succ budget ih =>
    rw [draw] at h
    split at h
    · cases h
      rw [UInt64.toNat_mod]
      exact Nat.mod_lt _ hm
    · exact ih h

theorem isChoice_choicesFrom {budget k : ℕ} {words : Words} {cs : List ℕ} (hk : k < 2 ^ 32)
    (h : choicesFrom budget k words = some cs) : IsChoice k cs := by
  induction k generalizing budget words cs with
  | zero => exact (Option.some.inj h).symm
  | succ k ih =>
    simp only [choicesFrom, Option.bind_eq_bind, Option.bind_eq_some_iff, Option.pure_def,
      Option.some.injEq, Prod.exists] at h
    obtain ⟨swap, words', hdraw, rest, hrest, rfl⟩ := h
    have hlt := draw_lt (by rw [toNat_bound (by omega)]; omega) hdraw
    rw [toNat_bound (by omega)] at hlt
    exact ⟨by omega, ih (by omega) hrest⟩

theorem descend_eq (k : ℕ) (words : Words) (l : List α) :
    descend k words l = (choices k words).bind fun cs => swapAll k cs l := by
  induction k generalizing words l with
  | zero => rfl
  | succ k ih =>
    rw [descend, choices, choicesFrom, choose]
    cases draw (.ofNat (k + 2)) maxRejections words with
    | none => rfl
    | some drawn =>
      obtain ⟨swap, words'⟩ := drawn
      have ih' : ∀ l : List α, descend k words' l =
          (choicesFrom maxRejections k words').bind fun cs => swapAll k cs l := ih words'
      simp only [Option.bind_eq_bind, Option.bind_some, ih', Option.pure_def]
      cases choicesFrom maxRejections k words' with
      | none => cases swapAt l (k + 1) swap.toNat <;> rfl
      | some cs => rfl

theorem toNat_threshold {m : UInt64} (h : m ≠ 0) : (threshold m).toNat = 2 ^ 64 % m.toNat := by
  have hm : 0 < m.toNat := Nat.pos_of_ne_zero fun h0 => h (UInt64.toNat_inj.1 h0)
  have hlt := m.toNat_lt
  rw [threshold, UInt64.toNat_mod, UInt64.toNat_sub]
  have hneg : (2 ^ 64 - m.toNat + (0 : UInt64).toNat) % 2 ^ 64 = 2 ^ 64 - m.toNat :=
    Nat.mod_eq_of_lt (by simp; omega)
  rw [hneg]
  exact (Nat.mod_eq_sub_mod hlt.le).symm

theorem card_range_mod {m r : ℕ} (hr : r < m) (b : ℕ) :
    ((Finset.range b).filter fun x => x % m = r).card = b / m + if r < b % m then 1 else 0 := by
  have hm : 0 < m := by omega
  have hcount := Nat.count_modEq_card b hm r
  rw [Nat.count_eq_card_filter_range, Nat.mod_eq_of_lt hr] at hcount
  rw [← hcount]
  congr 1
  ext x
  simp [Nat.ModEq, Nat.mod_eq_of_lt hr]

theorem card_range_from {m r : ℕ} (hr : r < m) (b : ℕ) :
    ((Finset.range b).filter fun x => b % m ≤ x ∧ x % m = r).card = b / m := by
  have hlt : b % m < m := Nat.mod_lt _ (by omega)
  have hsplit := Finset.card_filter_add_card_filter_not (s := (Finset.range b).filter (· % m = r))
    (fun x => b % m ≤ x)
  have hlow : (((Finset.range b).filter (· % m = r)).filter fun x => ¬ b % m ≤ x) =
      (Finset.range (b % m)).filter (· % m = r) := by
    ext x
    have := Nat.mod_le b m
    simp only [Finset.mem_filter, Finset.mem_range]
    omega
  rw [hlow, card_range_mod hr, card_range_mod hr, Nat.div_eq_of_lt hlt, Nat.mod_eq_of_lt hlt,
    Finset.filter_filter] at hsplit
  simp only [and_comm (a := b % m ≤ _)]
  omega

/-- Every residue is the residue of equally many accepted words. -/
theorem card_accepted {m r : UInt64} (hr : r < m) :
    (Finset.univ.filter fun w : UInt64 => threshold m ≤ w ∧ w % m = r).card =
      2 ^ 64 / m.toNat := by
  have hrm : r.toNat < m.toNat := UInt64.lt_iff_toNat_lt.1 hr
  have hm : m ≠ 0 := by
    rintro rfl
    simp at hrm
  rw [← card_range_from hrm, ← toNat_threshold hm]
  refine Finset.card_nbij' UInt64.toNat UInt64.ofNat ?_ ?_ ?_ ?_
  · intro w hw
    simp only [Finset.coe_filter, Finset.mem_univ, true_and, Set.mem_ofPred_eq] at hw
    simpa [← hw.2, UInt64.le_iff_toNat_le.1 hw.1] using w.toNat_lt
  · intro x hx
    simp only [Finset.coe_filter, Finset.mem_range, Set.mem_ofPred_eq] at hx
    have hx' : (UInt64.ofNat x).toNat = x := UInt64.toNat_ofNat_of_lt' hx.1
    simp [UInt64.le_iff_toNat_le, ← UInt64.toNat_inj, hx', hx.2]
  · exact fun w _ => UInt64.ofNat_toNat
  · intro x hx
    simp only [Finset.coe_filter, Finset.mem_range, Set.mem_ofPred_eq] at hx
    exact UInt64.toNat_ofNat_of_lt' hx.1

/-- A draw skips the words under the threshold and takes the residue of the next one. -/
theorem draw_first {m : UInt64} {words : Words} {budget k : ℕ} (hk : k < budget)
    (hbefore : ∀ i < k, words i < threshold m) (hword : threshold m ≤ words k) :
    draw m budget words = some (words k % m, fun i => words (i + k + 1)) := by
  induction k generalizing budget words with
  | zero =>
    obtain ⟨budget, rfl⟩ := Nat.exists_eq_succ_of_ne_zero (Nat.ne_of_gt hk)
    rw [Nat.succ_eq_add_one, draw, if_pos hword]
  | succ k ih =>
    obtain ⟨budget, rfl⟩ := Nat.exists_eq_succ_of_ne_zero (Nat.ne_of_gt (Nat.zero_lt_of_lt hk))
    have hskip := UInt64.not_le.2 (hbefore 0 (Nat.succ_pos k))
    rw [Nat.succ_eq_add_one, draw, if_neg hskip]
    exact ih (Nat.lt_of_succ_lt_succ hk) (fun i hi => hbefore (i + 1) (Nat.succ_lt_succ hi)) hword

theorem draw_none {m : UInt64} {words : Words} {budget : ℕ}
    (hall : ∀ i < budget, words i < threshold m) : draw m budget words = none := by
  induction budget generalizing words with
  | zero => rfl
  | succ budget ih =>
    rw [draw, if_neg (UInt64.not_le.2 (hall 0 (Nat.succ_pos budget)))]
    exact ih fun i hi => hall (i + 1) (Nat.succ_lt_succ hi)

def prepend {L : ℕ} (ws : Fin L → UInt64) (rest : Words) : Words :=
  fun i => if h : i < L then ws ⟨i, h⟩ else rest (i - L)

section Uniform

variable {L : ℕ} {rest : Words}

theorem prepend_cons (w : UInt64) (ws : Fin L → UInt64) :
    prepend (Fin.cons w ws : Fin (L + 1) → UInt64) rest 0 = w ∧
      (fun i => prepend (Fin.cons w ws : Fin (L + 1) → UInt64) rest (i + 1)) = prepend ws rest := by
  refine ⟨rfl, ?_⟩
  funext i
  by_cases hi : i < L
  · simp only [prepend, hi, Nat.add_lt_add_iff_right, dite_true]
    exact Fin.cons_succ (α := fun _ => UInt64) w ws ⟨i, hi⟩
  · simp [prepend, hi]

theorem card_filter_cons (P : (Fin (L + 1) → UInt64) → Prop) [DecidablePred P] :
    (Finset.univ.filter P).card =
      ∑ w : UInt64, (Finset.univ.filter fun ws : Fin L → UInt64 => P (Fin.cons w ws)).card := by
  simp only [Finset.card_filter]
  rw [← (Fin.consEquiv fun _ : Fin (L + 1) => UInt64).sum_comp, Fintype.sum_prod_type]
  rfl

theorem choicesFrom_cons (budget k : ℕ) (w : UInt64) (ws : Fin L → UInt64) :
    choicesFrom (budget + 1) (k + 1) (prepend (Fin.cons w ws : Fin (L + 1) → UInt64) rest) =
      if threshold (.ofNat (k + 2)) ≤ w then
        (choicesFrom maxRejections k (prepend ws rest)).map ((w % .ofNat (k + 2)).toNat :: ·)
      else choicesFrom budget (k + 1) (prepend ws rest) := by
  obtain ⟨hhead, htail⟩ : prepend (Fin.cons w ws : Fin (L + 1) → UInt64) rest 0 = w ∧ _ :=
    prepend_cons w ws
  rw [choicesFrom, draw, hhead, htail]
  split
  · rw [Option.bind_eq_bind, Option.bind_some]
    dsimp only
    cases choicesFrom maxRejections k (prepend ws rest) <;> rfl
  · rfl

theorem card_choicesFrom_succ {k c : ℕ} (hk : k < 2 ^ 32) (hc : c ≤ k + 1) (budget : ℕ)
    (cs : List ℕ) :
    (Finset.univ.filter fun ws : Fin (L + 1) → UInt64 =>
        choicesFrom (budget + 1) (k + 1) (prepend ws rest) = some (c :: cs)).card =
      2 ^ 64 / (k + 2) * (Finset.univ.filter fun ws : Fin L → UInt64 =>
        choicesFrom maxRejections k (prepend ws rest) = some cs).card +
      (Finset.univ.filter fun w : UInt64 => ¬ threshold (.ofNat (k + 2)) ≤ w).card *
        (Finset.univ.filter fun ws : Fin L → UInt64 =>
          choicesFrom budget (k + 1) (prepend ws rest) = some (c :: cs)).card := by
  have hm := toNat_bound hk
  have hc' : (UInt64.ofNat c).toNat = c :=
    UInt64.toNat_ofNat_of_lt' (lt_of_lt_of_le (by omega : c < 2 ^ 33) (by decide))
  have hres : ∀ w : UInt64, (w % .ofNat (k + 2)).toNat = c ↔ w % .ofNat (k + 2) = .ofNat c := by
    intro w
    rw [← UInt64.toNat_inj, hc']
  have haccepted := card_accepted (m := .ofNat (k + 2)) (r := .ofNat c)
    (by rw [UInt64.lt_iff_toNat_lt, hm, hc']; omega)
  rw [hm] at haccepted
  have hfirst : ∀ w : UInt64, (Finset.univ.filter fun ws : Fin L → UInt64 =>
      choicesFrom (budget + 1) (k + 1) (prepend (Fin.cons w ws : Fin (L + 1) → UInt64) rest) =
        some (c :: cs)).card =
      (if threshold (.ofNat (k + 2)) ≤ w ∧ w % .ofNat (k + 2) = .ofNat c then
        (Finset.univ.filter fun ws : Fin L → UInt64 =>
          choicesFrom maxRejections k (prepend ws rest) = some cs).card else 0) +
      (if ¬ threshold (.ofNat (k + 2)) ≤ w then (Finset.univ.filter fun ws : Fin L → UInt64 =>
        choicesFrom budget (k + 1) (prepend ws rest) = some (c :: cs)).card else 0) := by
    intro w
    have hw := hres w
    simp only [choicesFrom_cons]
    generalize UInt64.ofNat (k + 2) = m at hw ⊢
    by_cases haccept : threshold m ≤ w
    · by_cases hwc : w % m = .ofNat c
      · simp only [haccept, hwc, hc', if_true, not_true, if_false, and_self,
          Option.map_eq_some_iff, List.cons.injEq, true_and, exists_eq_right, Nat.add_zero]
      · have hne := mt hw.1 hwc
        simp only [haccept, hwc, if_true, not_true, if_false, and_false,
          Option.map_eq_some_iff, List.cons.injEq, hne, false_and, exists_false,
          Finset.filter_false, Finset.card_empty]
    · simp only [haccept, if_false, false_and, not_false_eq_true, if_true, Nat.zero_add]
  rw [card_filter_cons]
  simp only [hfirst, Finset.sum_add_distrib, ← Finset.sum_filter, Finset.sum_const, smul_eq_mul,
    haccepted]

/-- Equally many word sequences lead to each sequence of choices. -/
theorem card_choicesFrom {k : ℕ} (hk : k < 2 ^ 32) {cs cs' : List ℕ} (h : IsChoice k cs)
    (h' : IsChoice k cs') {budget : ℕ} (hL : k ≠ 0 → budget + maxRejections * (k - 1) ≤ L) :
    (Finset.univ.filter fun ws : Fin L → UInt64 =>
        choicesFrom budget k (prepend ws rest) = some cs).card =
      (Finset.univ.filter fun ws : Fin L → UInt64 =>
        choicesFrom budget k (prepend ws rest) = some cs').card := by
  induction k generalizing cs cs' budget L with
  | zero => rw [h, h']
  | succ k ih =>
    match cs, cs', h, h' with
    | c :: cs, c' :: cs', ⟨hc, h⟩, ⟨hc', h'⟩ =>
      induction budget generalizing L with
      | zero => rfl
      | succ budget ihb =>
        replace hL := hL (Nat.succ_ne_zero k)
        obtain ⟨L, rfl⟩ : ∃ L', L = L' + 1 := Nat.exists_eq_succ_of_ne_zero (by omega)
        rw [card_choicesFrom_succ (by omega) hc, card_choicesFrom_succ (by omega) hc',
          ihb fun _ => by omega, ih (by omega) h h' fun hk0 => ?_]
        obtain ⟨k, rfl⟩ := Nat.exists_eq_succ_of_ne_zero hk0
        simp only [Nat.succ_eq_add_one, Nat.add_sub_cancel] at hL ⊢
        rw [Nat.mul_add] at hL
        omega

theorem card_choicesFrom_pos {k : ℕ} (hk : k < 2 ^ 32) {cs : List ℕ} (h : IsChoice k cs)
    {budget : ℕ} (hL : k ≠ 0 → 0 < budget ∧ budget + maxRejections * (k - 1) ≤ L) :
    0 < (Finset.univ.filter fun ws : Fin L → UInt64 =>
      choicesFrom budget k (prepend ws rest) = some cs).card := by
  induction k generalizing cs budget L with
  | zero =>
    rw [show cs = [] from h]
    exact Finset.card_pos.2 ⟨fun _ => 0, Finset.mem_filter.2 ⟨Finset.mem_univ _, rfl⟩⟩
  | succ k ih =>
    cases cs with
    | nil => exact h.elim
    | cons c cs =>
      obtain ⟨hc, hcs⟩ := h
      obtain ⟨hpos, hle⟩ := hL (Nat.succ_ne_zero k)
      obtain ⟨budget, rfl⟩ := Nat.exists_eq_succ_of_ne_zero hpos.ne'
      obtain ⟨L, rfl⟩ : ∃ L', L = L' + 1 := Nat.exists_eq_succ_of_ne_zero (by omega)
      have hwords : 0 < 2 ^ 64 / (k + 2) := Nat.div_pos (by omega) (Nat.succ_pos _)
      have hrest := @ih L (by omega) cs hcs maxRejections fun hk0 => by
        obtain ⟨k, rfl⟩ := Nat.exists_eq_succ_of_ne_zero hk0
        simp only [Nat.succ_eq_add_one, Nat.add_sub_cancel, Nat.mul_add] at hle ⊢
        exact ⟨by decide, by omega⟩
      rw [Nat.succ_eq_add_one, card_choicesFrom_succ (by omega) hc]
      exact Nat.add_pos_left (Nat.mul_pos hwords hrest) _

end Uniform

/-- A drawn permutation is one of `0..n`, and applying it is the pass over the items themselves;
choices and permutations correspond one to one; a choice is the residue of the first of 1024 words
that is accepted, each residue has equally many accepted words, and each permutation equally many
word sequences. -/
theorem permutation_exact_and_unbiased (n : UInt32) :
    (∀ words, (permutation words n = none ↔ choices (n.toNat - 1) words = none) ∧
      ∀ p, permutation words n = some p → p.Perm (List.range n.toNat) ∧
        ∀ (α : Type) (items : List α), items.length = n.toNat →
          ∃ out, descend (n.toNat - 1) words items = some out ∧
            out.map some = p.map (items[·]?)) ∧
    (∀ cs, IsChoice (n.toNat - 1) cs → ∃ p,
      swapAll (n.toNat - 1) cs (List.range n.toNat) = some p ∧ p.Perm (List.range n.toNat)) ∧
    (∀ p, p.Perm (List.range n.toNat) → ∃! cs, IsChoice (n.toNat - 1) cs ∧
      swapAll (n.toNat - 1) cs (List.range n.toNat) = some p) ∧
    (∀ m : UInt64, m ≠ 0 → (threshold m).toNat = 2 ^ 64 % m.toNat ∧ ∀ r < m,
      (Finset.univ.filter fun w : UInt64 => threshold m ≤ w ∧ w % m = r).card =
        2 ^ 64 / m.toNat) ∧
    (∀ (m : UInt64) (words : Words),
      (∀ k < maxRejections, (∀ i < k, words i < threshold m) → threshold m ≤ words k →
        choose words m = some (words k % m, fun i => words (i + k + 1))) ∧
      ((∀ i < maxRejections, words i < threshold m) → choose words m = none)) ∧
    ∀ (L : ℕ) (rest : Words), maxRejections * (n.toNat - 1) ≤ L →
      ∀ p q, p.Perm (List.range n.toNat) → q.Perm (List.range n.toNat) →
        (Finset.univ.filter fun ws : Fin L → UInt64 =>
            permutation (prepend ws rest) n = some p).card =
          (Finset.univ.filter fun ws : Fin L → UInt64 =>
            permutation (prepend ws rest) n = some q).card ∧
        0 < (Finset.univ.filter fun ws : Fin L → UInt64 =>
          permutation (prepend ws rest) n = some p).card := by
  have hn : n.toNat - 1 < 2 ^ 32 := lt_of_le_of_lt (Nat.sub_le _ _) n.toNat_lt
  have hlength : (List.range n.toNat).length - 1 = n.toNat - 1 := by rw [List.length_range]
  have hchoice : ∀ {p}, p.Perm (List.range n.toNat) → ∃! cs, IsChoice (n.toNat - 1) cs ∧
      swapAll (n.toNat - 1) cs (List.range n.toNat) = some p :=
    fun hp => existsUnique_choice hlength List.nodup_range hp
  have hdrawn : ∀ {words cs}, choices (n.toNat - 1) words = some cs → IsChoice (n.toNat - 1) cs :=
    fun h => isChoice_choicesFrom hn h
  refine ⟨fun words => ⟨?_, fun p hp => ?_⟩, fun cs hcs => ?_, fun p hp => hchoice hp,
    fun m hm => ⟨toNat_threshold hm, fun r hr => card_accepted hr⟩,
    fun m words => ⟨fun k hk => draw_first hk, draw_none⟩, ?_⟩
  · rw [permutation, descend_eq]
    cases hcs : choices (n.toNat - 1) words with
    | none => simp
    | some cs =>
      obtain ⟨p, hp⟩ := exists_swapAll hlength.ge (hdrawn hcs)
      simp [hp]
  · rw [permutation, descend_eq, Option.bind_eq_some_iff] at hp
    obtain ⟨cs, hcs, hp⟩ := hp
    refine ⟨swapAll_perm hp, fun α items hitems => ?_⟩
    obtain ⟨out, hout⟩ := exists_swapAll (l := items) (by rw [hitems]) (hdrawn hcs)
    refine ⟨out, by rw [descend_eq, hcs, Option.bind_some, hout], ?_⟩
    -- both are the swaps of the list of items, read through their indices
    have hread : items.map some = (List.range n.toNat).map (items[·]?) := by
      apply List.ext_getElem
      · simp [hitems]
      · intro i h₁ h₂
        simp
    have hsome := swapAll_map some (n.toNat - 1) cs items
    rw [hread, swapAll_map, hp, hout] at hsome
    exact (Option.some.inj hsome).symm
  · obtain ⟨p, hp⟩ := exists_swapAll hlength.ge hcs
    exact ⟨p, hp, swapAll_perm hp⟩
  · intro L rest hL p q hp hq
    have hcount : ∀ {p}, p.Perm (List.range n.toNat) → ∃ cs, IsChoice (n.toNat - 1) cs ∧
        ∀ words, permutation words n = some p ↔ choices (n.toNat - 1) words = some cs := by
      intro p hp
      obtain ⟨cs, ⟨hcs, hall⟩, hunique⟩ := hchoice hp
      refine ⟨cs, hcs, fun words => ?_⟩
      rw [permutation, descend_eq, Option.bind_eq_some_iff]
      constructor
      · rintro ⟨cs', hcs', hall'⟩
        rw [hcs', hunique cs' ⟨hdrawn hcs', hall'⟩]
      · exact fun h => ⟨cs, h, hall⟩
    obtain ⟨cs, hcs, hp⟩ := hcount hp
    obtain ⟨cs', hcs', hq⟩ := hcount hq
    simp only [hp, hq]
    have hroom : n.toNat - 1 ≠ 0 → maxRejections + maxRejections * (n.toNat - 1 - 1) ≤ L := by
      intro hne
      obtain ⟨k, hk⟩ := Nat.exists_eq_succ_of_ne_zero hne
      rw [hk, Nat.succ_eq_add_one, Nat.mul_add] at hL
      rw [hk, Nat.succ_sub_one]
      omega
    exact ⟨card_choicesFrom hn hcs hcs' hroom,
      card_choicesFrom_pos hn hcs fun hne => ⟨by decide, hroom hne⟩⟩

/-! ## Applying an order in place -/

/-- Follow the cycle of an order from `start`, pulling each source into place. -/
def applyCycle (start : ℕ) : ℕ → ℕ → List ℕ → List α → Option (List ℕ × List α)
  | 0, _, _, _ => none
  | fuel + 1, current, order, items => do
    let next ← order[current]?
    if next = start then return (order.set current current, items)
    else do
      let items ← swapAt items current next
      applyCycle start fuel next (order.set current current) items

/-- The loop of `shuffle`; each inner loop has some fuel. -/
def applyOrder (fuel : ℕ) (order : List ℕ) (items : List α) : Option (List ℕ × List α) :=
  (List.range order.length).foldlM
    (fun (order, items) start => applyCycle start fuel start order items) (order, items)

section Cycles

variable {n fuel : ℕ} {π : Equiv.Perm (Fin n)} {f : Fin n → α} {start current : Fin n}

theorem set_ofFn (f : Fin n → α) (i : Fin n) (a : α) :
    (List.ofFn f).set i a = List.ofFn (Function.update f i a) := by
  apply List.ext_getElem
  · simp
  · intro j h₁ h₂
    simp [List.getElem_set, Function.update_apply, Fin.ext_iff, eq_comm]

theorem swapAt_ofFn (f : Fin n → α) (i j : Fin n) :
    swapAt (List.ofFn f) i j = some (List.ofFn (f ∘ Equiv.swap i j)) := by
  rw [swapAt_eq (by simp) (by simp)]
  simp only [List.getElem_ofFn, Fin.eta, set_ofFn]
  congr 2
  funext k
  simp only [Function.update_apply, Function.comp_apply, Equiv.swap_apply_def]
  split
  · next h => split <;> simp_all
  · split <;> simp_all

/-- The order within a cycle: what still has to come from `current` came from `start`. -/
def orderAt (π : Equiv.Perm (Fin n)) (start current : Fin n) : List ℕ :=
  List.ofFn fun i => if π i = current then (start : ℕ) else π i

theorem orderAt_self (π : Equiv.Perm (Fin n)) (start : Fin n) :
    orderAt π start start = List.ofFn fun i => (π i : ℕ) := by
  rw [orderAt]
  congr 1
  funext i
  split <;> simp_all

/-- One swap takes `current` out of the permutation. -/
theorem set_orderAt (h : π current ≠ current) :
    (orderAt π start current).set current current =
      orderAt (Equiv.swap current (π current) * π) start (π current) := by
  rw [orderAt, orderAt, set_ofFn]
  congr 1
  funext i
  rcases eq_or_ne i current with rfl | hi
  · simp [h.symm]
  · have hne : π i ≠ π current := fun heq => hi (π.injective heq)
    rw [Function.update_of_ne hi, Equiv.Perm.mul_apply]
    split
    · next heq => rw [heq, Equiv.swap_apply_left, if_pos rfl]
    · next heq => rw [Equiv.swap_apply_of_ne_of_ne heq hne, if_neg hne]

theorem set_orderAt_of_fixed (h : π current = current) :
    (orderAt π start current).set current current = List.ofFn fun i => (π i : ℕ) := by
  rw [orderAt, set_ofFn]
  congr 1
  funext i
  rcases eq_or_ne i current with rfl | hi
  · simp [h]
  · rw [Function.update_of_ne hi, if_neg fun heq => hi (π.injective (heq.trans h.symm))]

/-- A followed cycle is left with fixed points only, and what the items have to become stays. -/
theorem applyCycle_eq (π : Equiv.Perm (Fin n)) (f : Fin n → α) (start current : Fin n)
    (hstart : current ≠ start → π start = start) (hfuel : π.support.card < fuel) :
    ∃ (π' : Equiv.Perm (Fin n)) (f' : Fin n → α),
      applyCycle start fuel current (orderAt π start current) (List.ofFn f) =
        some (List.ofFn fun i => (π' i : ℕ), List.ofFn f') ∧
      f' ∘ π' = f ∘ π ∧ π' start = start ∧ ∀ i, π i = i → π' i = i := by
  induction fuel generalizing π f current with
  | zero => cases hfuel
  | succ fuel ih =>
    have hget : (orderAt π start current)[(current : ℕ)]? =
        some (if π current = current then (start : ℕ) else π current) := by
      simp [orderAt]
    rw [applyCycle, hget, Option.bind_eq_bind, Option.bind_some]
    by_cases hfixed : π current = current
    · have hself : π start = start := by
        by_cases hs : current = start
        · exact hs ▸ hfixed
        · exact hstart hs
      rw [if_pos hfixed, if_pos rfl, set_orderAt_of_fixed hfixed]
      exact ⟨π, f, rfl, rfl, hself, fun i hi => hi⟩
    · have hne : (π current : ℕ) ≠ start := by
        intro heq
        have heq' : π current = start := Fin.ext heq
        by_cases hs : current = start
        · exact hfixed (heq'.trans hs.symm)
        · exact hs (π.injective (heq'.trans (hstart hs).symm))
      rw [if_neg hfixed, if_neg hne, swapAt_ofFn, Option.bind_eq_bind, Option.bind_some,
        set_orderAt hfixed]
      have hkeeps : ∀ i, π i = i → i ≠ current → (Equiv.swap current (π current) * π) i = i := by
        intro i hi hic
        rw [Equiv.Perm.mul_apply, hi]
        refine Equiv.swap_apply_of_ne_of_ne hic fun heq => hic ?_
        exact π.injective (hi.trans heq)
      have hcurrent : (Equiv.swap current (π current) * π) current = current := by simp
      obtain ⟨π', f', hrun, htarget, hself, hfix⟩ := ih (Equiv.swap current (π current) * π)
        (f ∘ Equiv.swap current (π current)) (π current) (fun _ => by
          by_cases hs : current = start
          · exact hs ▸ hcurrent
          · exact hkeeps start (hstart hs) (Ne.symm hs))
        (lt_of_lt_of_le (Equiv.Perm.card_support_swap_mul hfixed) (Nat.lt_succ_iff.1 hfuel))
      refine ⟨π', f', hrun, htarget.trans ?_, hself, fun i hi => hfix i ?_⟩
      · funext i
        simp
      · rcases eq_or_ne i current with rfl | hic
        · exact hcurrent
        · exact hkeeps i hi hic

theorem exists_perm_of_perm_range {order : List ℕ} (h : order.Perm (List.range n)) :
    ∃ π : Equiv.Perm (Fin n), order = List.ofFn fun i => (π i : ℕ) := by
  have hlength : order.length = n := by simpa using h.length_eq
  have hlt : ∀ (i : ℕ) (hi : i < order.length), order[i] < n := fun i hi =>
    List.mem_range.1 (h.subset (List.getElem_mem hi))
  subst hlength
  have hinj : Function.Injective fun i : Fin order.length => (⟨order[i], hlt i i.2⟩ : Fin _) := by
    intro i j hij
    have hnodup : order.Nodup := h.nodup_iff.2 List.nodup_range
    exact Fin.ext ((hnodup.getElem_inj_iff).1 (congrArg Fin.val hij))
  refine ⟨Equiv.ofBijective _ (Finite.injective_iff_bijective.1 hinj), ?_⟩
  apply List.ext_getElem <;> simp

end Cycles

/-- Applying an order in place ends, stays in range, puts at each place the item the order names
and leaves the identity for the order. -/
theorem applyOrder_in_place {α : Type} {n : ℕ} {order : List ℕ} {items : List α}
    (horder : order.Perm (List.range n)) (hitems : items.length = n) {fuel : ℕ} (hfuel : n < fuel) :
    ∃ items', applyOrder fuel order items = some (List.range n, items') ∧
      items'.map some = order.map (items[·]?) := by
  obtain ⟨π, rfl⟩ := exists_perm_of_perm_range horder
  obtain ⟨f, rfl⟩ : ∃ f : Fin n → α, items = List.ofFn f := by
    subst hitems
    exact ⟨items.get, (List.ofFn_get items).symm⟩
  -- after the first `k` starts the permutation fixes them
  have hloop : ∀ k ≤ n, ∃ (π' : Equiv.Perm (Fin n)) (f' : Fin n → α),
      (List.range k).foldlM (fun (order, items) start => applyCycle start fuel start order items)
        (List.ofFn fun i => (π i : ℕ), List.ofFn f) =
          some (List.ofFn fun i => (π' i : ℕ), List.ofFn f') ∧
        f' ∘ π' = f ∘ π ∧ ∀ i : Fin n, i.val < k → π' i = i := by
    intro k hk
    induction k with
    | zero => exact ⟨π, f, rfl, rfl, fun i hi => absurd hi (Nat.not_lt_zero _)⟩
    | succ k ih =>
      obtain ⟨π', f', hrun, htarget, hfix⟩ := ih (by omega)
      have hcard : π'.support.card < fuel :=
        lt_of_le_of_lt (π'.support.card_le_univ.trans (by simp)) hfuel
      obtain ⟨π'', f'', hcycle, htarget', hself, hkeep⟩ := applyCycle_eq π' f' ⟨k, hk⟩
        ⟨k, hk⟩ (fun hne => absurd rfl hne) hcard
      rw [orderAt_self] at hcycle
      refine ⟨π'', f'', ?_, htarget'.trans htarget, fun i hi => ?_⟩
      · rw [List.range_succ, List.foldlM_append, hrun]
        simpa using hcycle
      · rcases Nat.lt_succ_iff_lt_or_eq.1 hi with hi | hi
        · exact hkeep i (hfix i hi)
        · obtain rfl : i = ⟨k, hk⟩ := Fin.ext hi
          exact hself
  obtain ⟨π', f', hrun, htarget, hfix⟩ := hloop n le_rfl
  obtain rfl : π' = 1 := Equiv.ext fun i => hfix i i.2
  refine ⟨List.ofFn f', ?_, ?_⟩
  · rw [applyOrder, List.length_ofFn, hrun]
    congr 2
    apply List.ext_getElem <;> simp
  · apply List.ext_getElem
    · simp
    · intro i h₁ h₂
      simpa using congrFun htarget ⟨i, by simpa using h₁⟩

/-- The permutation of the module's test. -/
theorem applyOrder_in_place_five :
    ∃ items', applyOrder 6 [4, 0, 3, 2, 1] [10, 11, 12, 13, 14] = some (List.range 5, items') ∧
      items'.map some = [4, 0, 3, 2, 1].map ([10, 11, 12, 13, 14][·]?) :=
  applyOrder_in_place (by decide) rfl (by decide)

end Arena0
