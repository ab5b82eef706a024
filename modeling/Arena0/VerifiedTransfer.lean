import Arena0.Ballots
import Arena0.Blobs
import Arena0.TreeHash

/-!
# Verified transfers: terms and leaf values

The agreed terms of one blob transfer, the leaves its object is cut into, and
the merging of leaf chaining values into the object's hash.

BLAKE3 is the tree of `TreeHash` over its own chunk and parent compressions,
which stay a parameter; an operation that panics in the source returns `none`.
-/

namespace Arena0

open Borsh TreeHash

abbrev ChainingValue := FixedBytes 32

/-! ## BLAKE3's tree, one node at a time -/

namespace Blake3Tree

/-- The index of the lowest set bit of a `u64`, 64 for zero. -/
def trailingZeros (n : ℕ) : ℕ :=
  ((List.range 64).find? fun i => n.testBit i).getD 64

/-- The longest subtree that can start at a chunk-aligned offset; no bound at the start. -/
def maxSubtreeLen (inputOffset : ℕ) : Option ℕ :=
  if inputOffset = 0 then none
  else some (2 ^ trailingZeros (inputOffset / chunkLen) * chunkLen)

def isSubtree (offset len : ℕ) : Bool :=
  len ≠ 0 && offset % chunkLen = 0 && (maxSubtreeLen offset).all (len ≤ ·)

variable (c : Compression ChainingValue)

def subtreeCv (bytes : Bytes) (offset : ℕ) : Option ChainingValue :=
  if isSubtree offset bytes.length then some (c.tree (offset / chunkLen) bytes false) else none

def mergeCv (left right : ChainingValue) (root : Bool) : ChainingValue :=
  c.parent left right root

end Blake3Tree

open Blake3Tree

/-! ## Merging leaf values -/

section

variable (c : Compression ChainingValue)

mutual

/-- The parent value of at least two leaves: the root only at the top. -/
def merge (leaves : List ChainingValue) (root : Bool) : Option ChainingValue :=
  if 2 ≤ leaves.length then do
    let left := 2 ^ Nat.log 2 (leaves.length - 1)
    let l ← subtree (leaves.take left)
    let r ← subtree (leaves.drop left)
    pure (mergeCv c l r root)
  else none
termination_by (leaves.length, 0)
decreasing_by
  all_goals
    have hlt := split_lt (by assumption : 2 ≤ leaves.length)
    have hpos := split_pos leaves.length
    rw [split] at hlt hpos
    simp only [List.length_take, List.length_drop, Prod.lex_def]
    omega

/-- A subtree's value: the leaf itself for one leaf. -/
def subtree (leaves : List ChainingValue) : Option ChainingValue :=
  if leaves.length = 1 then leaves.head? else merge leaves false
termination_by (leaves.length, 1)

end

def root (leaves : List ChainingValue) : Option BlobHash :=
  (merge c leaves true).map Id.mk

theorem subtree_eq_fold (leaves : List ChainingValue) :
    subtree c leaves = fold (mergeCv c · · false) leaves := by
  induction hn : leaves.length using Nat.strong_induction_on generalizing leaves with
  | _ n ih =>
    rw [subtree, fold]
    subst hn
    by_cases hle : leaves.length ≤ 1
    · rw [if_pos hle]
      split
      · rfl
      · have hnil : leaves = [] := List.length_eq_zero_iff.1 (by omega)
        rw [hnil, merge]
        rfl
    · have hlt := split_lt (by omega : 2 ≤ leaves.length)
      have hpos := split_pos leaves.length
      have hl := ih _ (by rw [List.length_take]; omega) (leaves.take (split leaves.length)) rfl
      have hr := ih _ (by rw [List.length_drop]; omega) (leaves.drop (split leaves.length)) rfl
      rw [if_neg hle, if_neg (by omega), merge, if_pos (by omega), ← hl, ← hr]
      rfl

theorem merge_eq_join {leaves : List ChainingValue} (h : 2 ≤ leaves.length) (root : Bool) :
    merge c leaves root = join (mergeCv c · · false) (mergeCv c · · root) leaves := by
  rw [merge, if_pos h, join, ← subtree_eq_fold, ← subtree_eq_fold]
  rfl

end

/-! ## Terms -/

def leafBytes : ℕ := 32 * 1024

inductive TransferStatus where
  | complete
  | failed
  deriving DecidableEq

structure VerifiedTransfer where
  id : UInt64
  sender : Participant
  receiver : Participant
  hash : BlobHash
  length : ℕ
  status : Option TransferStatus
  deriving DecidableEq

inductive TransferError where
  | configuration
  | invalidMessage
  deriving DecidableEq

namespace VerifiedTransfer

def new (id : UInt64) (sender receiver : Participant) (hash : BlobHash) (length : ℕ) :
    Except TransferError VerifiedTransfer :=
  if sender = receiver ∨ length = 0 ∨ maxBlobBytes < length then .error .configuration
  else .ok ⟨id, sender, receiver, hash, length, none⟩

def leafCount (transfer : VerifiedTransfer) : ℕ := pieces leafBytes transfer.length

def leafRange (transfer : VerifiedTransfer) (index : ℕ) : ℕ × ℕ :=
  (index * leafBytes, min (index * leafBytes + leafBytes) transfer.length)

def slice (bytes : Bytes) (range : ℕ × ℕ) : Bytes :=
  (bytes.take range.2).drop range.1

/-- The chaining value of every leaf of the object, at its offset. -/
def leafValues (c : Compression ChainingValue) (transfer : VerifiedTransfer) (bytes : Bytes) :
    Option (List ChainingValue) :=
  (List.range transfer.leafCount).mapM fun index =>
    subtreeCv c (slice bytes (transfer.leafRange index)) (transfer.leafRange index).1

/-! ## Leaves are subtrees -/

theorem leafBytes_eq : leafBytes = 2 ^ 5 * chunkLen := rfl

theorem five_le_trailingZeros {n : ℕ} (h : 32 ∣ n) : 5 ≤ trailingZeros n := by
  unfold trailingZeros
  cases hf : (List.range 64).find? fun i => n.testBit i with
  | none => decide
  | some i =>
    have hbit : n.testBit i = true := List.find?_some hf
    by_contra hlt
    obtain ⟨m, rfl⟩ := h
    have hi : i < 5 := by simpa using hlt
    rw [show 32 * m = 2 ^ 5 * m from rfl, Nat.testBit_two_pow_mul] at hbit
    simp [Nat.not_le.2 hi] at hbit

variable {transfer : VerifiedTransfer} {index : ℕ} {bytes : Bytes}

theorem start_lt (hl : 0 < transfer.length) (h : index < transfer.leafCount) :
    index * leafBytes < transfer.length := by
  obtain ⟨hlo, -⟩ := pieces_bounds (by decide : 0 < leafBytes) hl
  have := Nat.mul_le_mul_left leafBytes (by rw [leafCount] at h; omega :
    index ≤ pieces leafBytes transfer.length - 1)
  rw [Nat.mul_comm]
  omega

/-- Every leaf is a subtree of BLAKE3's tree. -/
theorem isSubtree_leafRange (hl : 0 < transfer.length) (h : index < transfer.leafCount) :
    isSubtree (transfer.leafRange index).1
      ((transfer.leafRange index).2 - (transfer.leafRange index).1) = true := by
  have hstart := start_lt hl h
  have hchunk : index * leafBytes = 32 * index * chunkLen := by
    rw [leafBytes, chunkLen]
    omega
  have hmax : (maxSubtreeLen (index * leafBytes)).all
      ((min (index * leafBytes + leafBytes) transfer.length - index * leafBytes) ≤ ·) = true := by
    unfold maxSubtreeLen
    split
    · rfl
    · rw [hchunk, Nat.mul_div_cancel _ (by decide), Option.all_some, ← hchunk]
      have hpow : 2 ^ 5 ≤ 2 ^ trailingZeros (32 * index) :=
        Nat.pow_le_pow_right (by decide) (five_le_trailingZeros (Nat.dvd_mul_right 32 index))
      have := Nat.mul_le_mul_right chunkLen hpow
      have := leafBytes_eq
      apply decide_eq_true
      omega
  have hne : min (index * leafBytes + leafBytes) transfer.length - index * leafBytes ≠ 0 := by
    have : 0 < leafBytes := by decide
    omega
  have hmod : index * leafBytes % chunkLen = 0 := by
    rw [hchunk, Nat.mul_mod_left]
  rw [isSubtree, Bool.and_eq_true, Bool.and_eq_true, decide_eq_true_iff, decide_eq_true_iff]
  exact ⟨⟨hne, hmod⟩, hmax⟩

theorem slice_leafRange (h : bytes.length = transfer.length) :
    slice bytes (transfer.leafRange index) = piece leafBytes bytes index := by
  rw [slice, leafRange, piece, ← h, ← List.take_take, List.take_length, List.drop_take]
  congr 1
  omega

theorem length_slice {range : ℕ × ℕ} (h : range.2 ≤ bytes.length) :
    (slice bytes range).length = range.2 - range.1 := by
  rw [slice, List.length_drop, List.length_take, Nat.min_eq_left h]

theorem subtreeCv_leaf (c : Compression ChainingValue)
    (hb : bytes.length = transfer.length) (hl : 0 < transfer.length)
    (h : index < transfer.leafCount) :
    subtreeCv c (slice bytes (transfer.leafRange index)) (transfer.leafRange index).1 =
      some (c.tree (32 * index) (piece leafBytes bytes index) false) := by
  have hlen : (slice bytes (transfer.leafRange index)).length =
      (transfer.leafRange index).2 - (transfer.leafRange index).1 :=
    length_slice (by rw [hb]; exact Nat.min_le_right _ _)
  have hoffset : (transfer.leafRange index).1 / chunkLen = 32 * index := by
    rw [leafRange, leafBytes, chunkLen]
    omega
  rw [subtreeCv, hlen, if_pos (isSubtree_leafRange hl h), slice_leafRange hb, hoffset]

theorem mapM_eq_some {α β : Type} {f : α → Option β} {g : α → β} {l : List α}
    (h : ∀ a ∈ l, f a = some (g a)) : l.mapM f = some (l.map g) := by
  induction l with
  | nil => rfl
  | cons a l ih =>
    rw [List.mapM_cons, h a List.mem_cons_self,
      ih fun b hb => h b (List.mem_cons_of_mem _ hb)]
    rfl

theorem leafValues_eq (c : Compression ChainingValue)
    (hb : bytes.length = transfer.length) (hl : 0 < transfer.length) :
    transfer.leafValues c bytes = some (c.leaves (2 ^ 5) 0 bytes) := by
  rw [leafValues, mapM_eq_some fun index hi => subtreeCv_leaf c hb hl (List.mem_range.1 hi),
    Compression.leaves, ← leafBytes_eq, leafCount, hb]
  simp only [Nat.zero_add]
  rfl

/-- The count of leaves fits the `u32` it is narrowed to. -/
theorem leafCount_lt (h : transfer.length ≤ maxBlobBytes) : transfer.leafCount < 2 ^ 32 := by
  have hle : (transfer.length + (leafBytes - 1)) / leafBytes ≤
      (maxBlobBytes + (leafBytes - 1)) / leafBytes :=
    Nat.div_le_div_right (by omega)
  exact lt_of_le_of_lt hle (by decide)

/-- The leaf values of an object of at least two leaves merge to its BLAKE3 hash,
and no leaf makes `subtree_cv` panic. -/
theorem leaf_values_merge_to_hash (c : Compression ChainingValue) (transfer : VerifiedTransfer)
    (bytes : Bytes) (hb : bytes.length = transfer.length)
    (hmin : leafBytes < transfer.length) (hmax : transfer.length ≤ maxBlobBytes) :
    (∃ leaves, transfer.leafValues c bytes = some leaves ∧
      root c leaves = some ⟨c.tree 0 bytes true⟩) ∧
    transfer.leafCount < 2 ^ 32 ∧
    ∀ index < transfer.leafCount,
      (transfer.leafRange index).1 < (transfer.leafRange index).2 ∧
      isSubtree (transfer.leafRange index).1
        ((transfer.leafRange index).2 - (transfer.leafRange index).1) = true := by
  have hpos : 0 < transfer.length := by omega
  refine ⟨⟨_, leafValues_eq c hb hpos, ?_⟩, leafCount_lt hmax,
    fun index h => ⟨?_, isSubtree_leafRange hpos h⟩⟩
  · have hlong : 2 ^ 5 * chunkLen < bytes.length := by
      rw [← leafBytes_eq, hb]
      exact hmin
    have htwo : 2 ≤ (c.leaves (2 ^ 5) 0 bytes).length := by
      rw [Compression.length_leaves]
      exact two_le_pieces (by decide) hlong
    have hjoin := c.join_leaves 0 hlong true
    rw [root, merge_eq_join c htwo]
    exact congrArg (Option.map Id.mk) hjoin
  · have hstart := start_lt hpos h
    have : 0 < leafBytes := by decide
    rw [leafRange]
    omega

end VerifiedTransfer

def Sample.compression : Compression ChainingValue where
  chunk counter bytes root :=
    .padded 32 (UInt8.ofNat counter :: (if root then 1 else 0) :: bytes.take 8)
  parent left right root :=
    .padded 32 ((if root then 3 else 2) :: (left.bytes.take 8 ++ right.bytes.take 8))

def Sample.transfer : VerifiedTransfer := ⟨1, 0, 1, ⟨0⟩, 40000, none⟩

open Sample in
theorem leaf_values_merge_to_hash_short_leaf :
    ∃ leaves, transfer.leafValues compression (List.replicate 40000 7) =
        some leaves ∧
      root compression leaves =
        some ⟨compression.tree 0 (List.replicate 40000 7) true⟩ :=
  (VerifiedTransfer.leaf_values_merge_to_hash compression transfer
    (List.replicate 40000 7) List.length_replicate (by decide) (by decide)).1

end Arena0
