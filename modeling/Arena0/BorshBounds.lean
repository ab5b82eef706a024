import Arena0.BorshContainers

/-!
# Bounds on encoded lengths

A value lies within a bound of a codec when its reader accepts it and its
encoding is no longer than the bound.  The bounds of a composite format add up
from those of its parts, so one sum bounds the whole.
-/

namespace Borsh

namespace Codec

variable {α β : Type}

/-- The reader accepts `a`, whose encoding has at most `n` bytes. -/
structure Within (c : Codec α) (n : ℕ) (a : α) : Prop where
  valid : c.valid a = true
  length_le : (c.encode a).length ≤ n

variable {c : Codec α} {n : ℕ} {a : α}

theorem Within.mono {m : ℕ} (h : c.Within m a) (hmn : m ≤ n) : c.Within n a :=
  ⟨h.valid, h.length_le.trans hmn⟩

theorem Within.toVec (h : c.Within n a) : c.toVec a = some (c.encode a) := by
  rw [toVec_eq_some_iff]
  exact ⟨c.fits_of_valid a h.valid, rfl⟩

/-! ## Scalars -/

theorem within_u8 (a : UInt8) : u8.Within 1 a := ⟨rfl, (length_u8_encode a).le⟩
theorem within_u16 (a : UInt16) : u16.Within 2 a := ⟨rfl, (length_u16_encode a).le⟩
theorem within_u32 (a : UInt32) : u32.Within 4 a := ⟨rfl, (length_u32_encode a).le⟩
theorem within_u64 (a : UInt64) : u64.Within 8 a := ⟨rfl, (length_u64_encode a).le⟩

theorem within_le {w : ℕ} (h : n < 256 ^ w) : (le w).Within w n :=
  ⟨decide_eq_true h, (le_encode_length w n).le⟩

theorem within_fixed (n : ℕ) (a : FixedBytes n) : (fixed n).Within n a :=
  ⟨rfl, (length_fixed_encode n a).le⟩

variable {max : ℕ}

theorem within_byteVec (hmax) {b : Bytes} (hb : b.length ≤ n) (hn : n ≤ max) :
    (byteVec max hmax).Within (4 + n) b := by
  refine ⟨by simpa using hb.trans hn, ?_⟩
  simp only [byteVec_encode, List.length_append, length_leBytes]
  omega

theorem within_string (hmax) {s : String} (hs : (utf8 s).length ≤ n)
    (hn : n ≤ max) : (string max hmax).Within (4 + n) s := by
  have h := within_byteVec hmax hs hn
  exact ⟨h.valid, h.length_le⟩

/-! ## Composites -/

variable {b : β} {d : Codec β}

theorem Within.pair {m : ℕ} (ha : c.Within m a) (hb : d.Within n b) :
    (c.pair d).Within (m + n) (a, b) := by
  refine ⟨by simp [ha.valid, hb.valid], ?_⟩
  simp only [pair_encode, List.length_append]
  exact Nat.add_le_add ha.length_le hb.length_le

theorem Within.left (h : (c.pair d).Within n (a, b)) : c.Within n a := by
  obtain ⟨hvalid, hlength⟩ := h
  simp only [pair_valid, Bool.and_eq_true, pair_encode, List.length_append] at hvalid hlength
  exact ⟨hvalid.1, by omega⟩

theorem Within.right (h : (c.pair d).Within n (a, b)) : d.Within n b := by
  obtain ⟨hvalid, hlength⟩ := h
  simp only [pair_valid, Bool.and_eq_true, pair_encode, List.length_append] at hvalid hlength
  exact ⟨hvalid.2, by omega⟩

theorem Within.equiv {e : α ≃ β} (h : c.Within n (e.symm b)) : (c.equiv e).Within n b :=
  ⟨h.valid, h.length_le⟩

theorem Within.partialInv {f : β → α} {g : α → Option β} {hgf : ∀ b, g (f b) = some b}
    (h : c.Within n (f b)) : (c.partialInv f g hgf).Within n b :=
  ⟨h.valid, h.length_le⟩

theorem Within.guarded {p : α → Bool} (h : c.Within n a) (hp : p a = true) :
    (c.guarded p).Within n a :=
  ⟨by simp [h.valid, hp], h.length_le⟩

theorem length_encodeAll (c : Codec α) (l : List α) :
    (c.encodeAll l).length = (l.map fun a => (c.encode a).length).sum := by
  simp [encodeAll, List.length_flatMap]

theorem within_vec_sum (hmax) {l : List α} (hlen : l.length ≤ max)
    (hl : ∀ a ∈ l, c.valid a = true) (hsum : (l.map fun a => (c.encode a).length).sum ≤ n) :
    (vec max c hmax).Within (4 + n) l := by
  refine ⟨by simpa [hlen] using hl, ?_⟩
  simp only [vec_encode, List.length_append, length_leBytes, length_encodeAll]
  omega

/-- A vector of at most `k` elements, each within `n` bytes. -/
theorem within_vec {k : ℕ} (hmax) {l : List α} (hk : l.length ≤ k) (hmax' : k ≤ max)
    (hl : ∀ a ∈ l, c.Within n a) : (vec max c hmax).Within (4 + k * n) l := by
  refine within_vec_sum hmax (hk.trans hmax') (fun a ha => (hl a ha).valid) ?_
  have hsum := List.sum_le_card_nsmul (l.map fun a => (c.encode a).length) n fun m hm => by
    obtain ⟨a, ha, rfl⟩ := List.mem_map.1 hm
    exact (hl a ha).length_le
  simp only [List.length_map, smul_eq_mul] at hsum
  exact hsum.trans (Nat.mul_le_mul_right n hk)

theorem within_enum {v : Variants α} {hcount} (hvalid : v.valid a = true)
    (hbody : (v.body a).length ≤ n) : (enum v hcount).Within (n + 1) a :=
  ⟨hvalid, by simpa [enum] using hbody⟩

theorem within_option {o : Option α} (h : ∀ a, o = some a → c.Within n a) :
    c.option.Within (n + 1) o := by
  cases o with
  | none => exact ⟨rfl, by simp⟩
  | some a =>
    refine ⟨(h a rfl).valid, ?_⟩
    simpa using (h a rfl).length_le

end Codec

end Borsh
