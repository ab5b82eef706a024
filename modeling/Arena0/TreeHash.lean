import Mathlib

/-!
# Left-balanced tree hashes

A tree hash over chunks of fixed length: more than one chunk is split so that
the left subtree holds the largest power of two of chunks smaller than their
number.  The chunk and parent compressions are parameters.

The main result is that the tree may be computed at a coarser grain: cut the
input into leaves of `2 ^ j` chunks, hash each as a subtree, and join the values
by the same rule over leaves.
-/

namespace TreeHash

variable {α : Type}

/-! ## The split -/

/-- The largest power of two smaller than `n`. -/
def split (n : ℕ) : ℕ := 2 ^ Nat.log 2 (n - 1)

theorem split_pos (n : ℕ) : 0 < split n := Nat.two_pow_pos _

theorem split_lt {n : ℕ} (h : 2 ≤ n) : split n < n := by
  have hle : split n ≤ n - 1 := Nat.pow_log_le_self 2 (by omega)
  omega

/-- Splits at two grains agree: where `g` groups of `2 ^ j` cover `n` items and
fewer do not, the split of the items falls on the split of the groups. -/
theorem split_eq_mul {j g n : ℕ} (hg : 2 ≤ g) (hlo : 2 ^ j * (g - 1) < n)
    (hhi : n ≤ 2 ^ j * g) : split n = 2 ^ j * split g := by
  have hpow : 2 ^ j * split g = 2 ^ (j + Nat.log 2 (g - 1)) := (Nat.pow_add 2 j _).symm
  have hlog : Nat.log 2 (n - 1) = j + Nat.log 2 (g - 1) := by
    apply Nat.log_eq_of_pow_le_of_lt_pow
    · rw [← hpow]
      have hle : split g ≤ g - 1 := Nat.pow_log_le_self 2 (by omega)
      have := Nat.mul_le_mul_left (2 ^ j) hle
      omega
    · have hlt : g - 1 < 2 ^ (Nat.log 2 (g - 1) + 1) := Nat.lt_pow_succ_log_self (by omega) _
      have hmul : 2 ^ j * g ≤ 2 ^ j * 2 ^ (Nat.log 2 (g - 1) + 1) :=
        Nat.mul_le_mul_left _ (by omega)
      rw [← Nat.pow_add, ← Nat.add_assoc] at hmul
      have hpos := Nat.mul_pos (Nat.two_pow_pos j) (by omega : 0 < g - 1)
      omega
  rw [hpow, split, hlog]

/-! ## Pieces -/

/-- How many pieces of `size` cover `length`. -/
def pieces (size length : ℕ) : ℕ := (length + (size - 1)) / size

def piece (size : ℕ) (l : List α) (i : ℕ) : List α := (l.drop (i * size)).take size

variable {size length : ℕ}

theorem pieces_eq {g : ℕ} (hlo : size * (g - 1) < length) (hhi : length ≤ size * g) :
    pieces size length = g := by
  have hg : g = (g - 1) + 1 := by
    by_contra h
    have : g = 0 := by omega
    simp [this] at hhi
    omega
  rw [hg, Nat.mul_succ] at hhi
  apply Nat.div_eq_of_lt_le
  · rw [hg, Nat.add_mul, Nat.mul_comm]
    omega
  · rw [hg, Nat.add_mul, Nat.add_mul, Nat.mul_comm]
    omega

theorem pieces_bounds (hs : 0 < size) (hl : 0 < length) :
    size * (pieces size length - 1) < length ∧ length ≤ size * pieces size length := by
  have hdiv := Nat.div_add_mod (length + (size - 1)) size
  have hmod := Nat.mod_lt (length + (size - 1)) hs
  have hpos : 0 < pieces size length := Nat.div_pos (by omega) hs
  have hsub : size * (pieces size length - 1) + size = size * pieces size length := by
    rw [← Nat.mul_succ]
    congr 1
    omega
  change size * pieces size length + _ = _ at hdiv
  omega

theorem two_le_pieces (hs : 0 < size) (h : size < length) : 2 ≤ pieces size length := by
  obtain ⟨-, hhi⟩ := pieces_bounds hs (by omega : 0 < length)
  by_contra hlt
  have := Nat.mul_le_mul_left size (by omega : pieces size length ≤ 1)
  omega

theorem split_pieces_mul_lt (hs : 0 < size) (h : size < length) :
    split (pieces size length) * size < length := by
  obtain ⟨hlo, -⟩ := pieces_bounds hs (by omega : 0 < length)
  have hlt := split_lt (two_le_pieces hs h)
  have := Nat.mul_le_mul_left size (by omega : split (pieces size length) ≤ pieces size length - 1)
  rw [Nat.mul_comm]
  omega

theorem split_pieces_mul_pos (hs : 0 < size) (length : ℕ) : 0 < split (pieces size length) * size :=
  Nat.mul_pos (split_pos _) hs

/-! ## The tree -/

/-- The compressions: a chunk with its counter, and two children; each with the
flag that marks the root. -/
structure Compression (α : Type) where
  chunk : ℕ → List UInt8 → Bool → α
  parent : α → α → Bool → α

def chunkLen : ℕ := 1024

namespace Compression

/-- The value of the tree over `bytes`, whose first chunk has the given counter. -/
def tree (c : Compression α) (counter : ℕ) (bytes : List UInt8) (root : Bool) : α :=
  if bytes.length ≤ chunkLen then c.chunk counter bytes root
  else
    let left := split (pieces chunkLen bytes.length)
    c.parent (c.tree counter (bytes.take (left * chunkLen)) false)
      (c.tree (counter + left) (bytes.drop (left * chunkLen)) false) root
termination_by bytes.length
decreasing_by
  all_goals
    have hlen : chunkLen < bytes.length := by omega
    have hlt := split_pieces_mul_lt (by decide : 0 < chunkLen) hlen
    have hpos := split_pieces_mul_pos (by decide : 0 < chunkLen) bytes.length
  · rw [List.length_take]
    omega
  · rw [List.length_drop]
    omega

/-- The subtree values of the leaves of `chunks` chunks each. -/
def leaves (c : Compression α) (chunks counter : ℕ) (bytes : List UInt8) : List α :=
  (List.range (pieces (chunks * chunkLen) bytes.length)).map fun i =>
    c.tree (counter + chunks * i) (piece (chunks * chunkLen) bytes i) false

end Compression

/-! ## Joining leaf values -/

def fold (parent : α → α → α) (l : List α) : Option α :=
  if l.length ≤ 1 then l.head?
  else do
    let left ← fold parent (l.take (split l.length))
    let right ← fold parent (l.drop (split l.length))
    pure (parent left right)
termination_by l.length
decreasing_by
  all_goals
    have hlt := split_lt (by omega : 2 ≤ l.length)
    have hpos := split_pos l.length
  · rw [List.length_take]
    omega
  · rw [List.length_drop]
    omega

def join (parent top : α → α → α) (l : List α) : Option α := do
  let left ← fold parent (l.take (split l.length))
  let right ← fold parent (l.drop (split l.length))
  pure (top left right)

theorem fold_of_two_le (parent : α → α → α) {l : List α} (h : 2 ≤ l.length) :
    fold parent l = join parent parent l := by
  rw [fold, if_neg (by omega)]
  rfl

theorem fold_singleton (parent : α → α → α) (a : α) : fold parent [a] = some a := by
  rw [fold]
  rfl

namespace Compression

section

variable (c : Compression α) {j : ℕ}

private theorem leafLen_pos (j : ℕ) : 0 < 2 ^ j * chunkLen :=
  Nat.mul_pos (Nat.two_pow_pos j) (by decide)

theorem length_leaves (chunks counter : ℕ) (bytes : List UInt8) :
    (c.leaves chunks counter bytes).length = pieces (chunks * chunkLen) bytes.length := by
  rw [leaves, List.length_map, List.length_range]

theorem split_chunks {length : ℕ} (h : 2 ^ j * chunkLen < length) :
    split (pieces chunkLen length) = 2 ^ j * split (pieces (2 ^ j * chunkLen) length) := by
  have hchunk : 0 < chunkLen := by decide
  obtain ⟨hlo, hhi⟩ := pieces_bounds hchunk (by omega : 0 < length)
  obtain ⟨hlo', hhi'⟩ := pieces_bounds (leafLen_pos j) (by omega : 0 < length)
  rw [Nat.mul_comm (2 ^ j), Nat.mul_assoc] at hlo' hhi'
  apply split_eq_mul (two_le_pieces (leafLen_pos j) h)
  · rw [Nat.mul_comm (2 ^ j) chunkLen]
    exact Nat.lt_of_mul_lt_mul_left (hlo'.trans_le hhi)
  · rw [Nat.mul_comm (2 ^ j) chunkLen]
    have hlt := Nat.lt_of_mul_lt_mul_left (hlo.trans_le hhi')
    omega

variable {bytes : List UInt8}

theorem leaves_take (counter : ℕ) {k chunks : ℕ} (hk : 0 < k) (hc : 0 < chunks)
    (h : k * (chunks * chunkLen) ≤ bytes.length) :
    (c.leaves chunks counter bytes).take k =
      c.leaves chunks counter (bytes.take (k * (chunks * chunkLen))) := by
  have hsize : 0 < chunks * chunkLen := Nat.mul_pos hc (by decide)
  have hmul : k * (chunks * chunkLen) = chunks * chunkLen * (k - 1) + chunks * chunkLen := by
    rw [← Nat.mul_succ, Nat.mul_comm]
    congr 1
    omega
  have hleft : pieces (chunks * chunkLen) (bytes.take (k * (chunks * chunkLen))).length = k := by
    rw [List.length_take, Nat.min_eq_left h]
    apply pieces_eq
    · omega
    · rw [Nat.mul_comm]
  have hle : k ≤ pieces (chunks * chunkLen) bytes.length := by
    obtain ⟨-, hhi⟩ := pieces_bounds hsize (by omega : 0 < bytes.length)
    rw [Nat.mul_comm k] at h
    exact Nat.le_of_mul_le_mul_left (h.trans hhi) hsize
  apply List.ext_getElem
  · rw [List.length_take, length_leaves, length_leaves, hleft, Nat.min_eq_left hle]
  · intro i h₁ h₂
    rw [length_leaves, hleft] at h₂
    have hi : i * (chunks * chunkLen) + chunks * chunkLen ≤ k * (chunks * chunkLen) := by
      rw [← Nat.succ_mul]
      exact Nat.mul_le_mul_right _ h₂
    simp only [leaves, List.getElem_take, List.getElem_map, List.getElem_range, piece]
    rw [List.drop_take, List.take_take, Nat.min_eq_left (by omega)]

theorem leaves_drop (counter : ℕ) {k chunks : ℕ} (hc : 0 < chunks)
    (h : k * (chunks * chunkLen) < bytes.length) :
    (c.leaves chunks counter bytes).drop k =
      c.leaves chunks (counter + chunks * k) (bytes.drop (k * (chunks * chunkLen))) := by
  have hsize : 0 < chunks * chunkLen := Nat.mul_pos hc (by decide)
  obtain ⟨hlo, hhi⟩ := pieces_bounds hsize (by omega : 0 < bytes.length)
  have hright : pieces (chunks * chunkLen) (bytes.drop (k * (chunks * chunkLen))).length =
      pieces (chunks * chunkLen) bytes.length - k := by
    rw [List.length_drop]
    apply pieces_eq
    · rw [Nat.sub_right_comm, Nat.mul_sub, Nat.mul_comm _ k]
      omega
    · rw [Nat.mul_sub, Nat.mul_comm _ k]
      omega
  apply List.ext_getElem
  · rw [List.length_drop, length_leaves, length_leaves, hright]
  · intro i h₁ h₂
    simp only [leaves, List.getElem_drop, List.getElem_map, List.getElem_range, piece]
    rw [List.drop_drop, Nat.add_mul, Nat.mul_add, Nat.add_assoc]

theorem join_leaves_of_fold (counter : ℕ) (h : 2 ^ j * chunkLen < bytes.length)
    (ih : ∀ counter' (bytes' : List UInt8), 0 < bytes'.length → bytes'.length < bytes.length →
      fold (c.parent · · false) (c.leaves (2 ^ j) counter' bytes') =
        some (c.tree counter' bytes' false)) (root : Bool) :
    join (c.parent · · false) (c.parent · · root) (c.leaves (2 ^ j) counter bytes) =
      some (c.tree counter bytes root) := by
  have hsplit := split_chunks h
  have hpos := split_pos (pieces (2 ^ j * chunkLen) bytes.length)
  have hlt := split_pieces_mul_lt (leafLen_pos j) h
  have hmul := split_pieces_mul_pos (leafLen_pos j) bytes.length
  have hchunk : chunkLen < bytes.length :=
    lt_of_le_of_lt (Nat.le_mul_of_pos_left _ (Nat.two_pow_pos j)) h
  have hbytes : split (pieces chunkLen bytes.length) * chunkLen =
      split (pieces (2 ^ j * chunkLen) bytes.length) * (2 ^ j * chunkLen) := by
    rw [hsplit]
    ring
  rw [join, length_leaves, c.leaves_take counter hpos (Nat.two_pow_pos j) hlt.le,
    c.leaves_drop counter (Nat.two_pow_pos j) hlt, tree, if_neg (by omega)]
  dsimp only
  rw [hbytes, hsplit, ih, ih]
  · rfl
  all_goals simp only [List.length_take, List.length_drop]; omega

/-- The leaves of a subtree join to its value. -/
theorem fold_leaves (counter : ℕ) (h : 0 < bytes.length) :
    fold (c.parent · · false) (c.leaves (2 ^ j) counter bytes) =
      some (c.tree counter bytes false) := by
  -- induction on the length: both sides of a split are shorter
  induction hn : bytes.length using Nat.strong_induction_on generalizing counter bytes with
  | _ n ih =>
    subst hn
    by_cases hleaf : bytes.length ≤ 2 ^ j * chunkLen
    · have hone : pieces (2 ^ j * chunkLen) bytes.length = 1 := pieces_eq (by omega) (by omega)
      have hpiece : piece (2 ^ j * chunkLen) bytes 0 = bytes := by
        rw [piece, Nat.zero_mul, List.drop_zero, List.take_of_length_le hleaf]
      simp only [leaves, hone, List.range_one, List.map_singleton, hpiece, Nat.mul_zero,
        Nat.add_zero]
      exact fold_singleton _ _
    · have hlt : 2 ^ j * chunkLen < bytes.length := by omega
      have htwo : 2 ≤ (c.leaves (2 ^ j) counter bytes).length := by
        rw [length_leaves]
        exact two_le_pieces (leafLen_pos j) hlt
      rw [fold_of_two_le _ htwo]
      apply c.join_leaves_of_fold counter hlt
      intro counter' bytes' hpos hshort
      exact ih _ hshort counter' hpos rfl

/-- The leaves of an input longer than a leaf join to its value, the root's included. -/
theorem join_leaves (counter : ℕ) (h : 2 ^ j * chunkLen < bytes.length) (root : Bool) :
    join (c.parent · · false) (c.parent · · root) (c.leaves (2 ^ j) counter bytes) =
      some (c.tree counter bytes root) :=
  c.join_leaves_of_fold counter h (fun counter' _ hpos _ => c.fold_leaves counter' hpos) root

end

end Compression

end TreeHash
