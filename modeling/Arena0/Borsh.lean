import Mathlib

/-!
# Byte codecs in the Borsh format

A `Codec` packages a writer and a reader with the round-trip law: reading back
what was written returns the value and leaves the rest of the input.  The
combinators below build codecs for integers and records, so a composite format
inherits the law, and with it the injectivity of its encodings.
-/

namespace Borsh

abbrev Bytes := List UInt8

theorem u32Max_lt : 256 ^ 4 - 1 < 256 ^ 4 := by decide

/-- A writer and a reader that recovers every valid value it wrote.  The writer
checks only the bounds `fits`; the reader may refuse more. -/
structure Codec (α : Type) where
  encode : α → Bytes
  decode : Bytes → Option (α × Bytes)
  /-- Values the writer accepts. -/
  fits : α → Bool
  /-- Values the reader returns. -/
  valid : α → Bool
  fits_of_valid : ∀ a, valid a = true → fits a = true
  decode_encode : ∀ a rest, valid a = true → decode (encode a ++ rest) = some (a, rest)

namespace Codec

variable {α β γ : Type}

/-- Write a value into a fresh vector, failing on a value over its bounds. -/
def toVec (c : Codec α) (a : α) : Option Bytes :=
  if c.fits a then some (c.encode a) else none

def fromSlice (c : Codec α) (bytes : Bytes) : Option α :=
  match c.decode bytes with
  | some (a, []) => some a
  | _ => none

theorem fromSlice_encode (c : Codec α) {a : α} (h : c.valid a = true) :
    c.fromSlice (c.encode a) = some a := by
  have hd := c.decode_encode a [] h
  rw [List.append_nil] at hd
  simp [fromSlice, hd]

theorem toVec_eq_some_iff (c : Codec α) (a : α) (bytes : Bytes) :
    c.toVec a = some bytes ↔ c.fits a = true ∧ c.encode a = bytes := by
  unfold toVec
  split <;> simp_all

/-- Encodings are prefix free: equal streams start with equal values. -/
theorem encode_append_inj (c : Codec α) {a b : α} {r s : Bytes}
    (ha : c.valid a = true) (hb : c.valid b = true)
    (h : c.encode a ++ r = c.encode b ++ s) : a = b ∧ r = s := by
  have h₁ := c.decode_encode a r ha
  rw [h, c.decode_encode b s hb] at h₁
  simpa [eq_comm] using h₁

theorem encode_inj (c : Codec α) {a b : α} (ha : c.valid a = true) (hb : c.valid b = true)
    (h : c.encode a = c.encode b) : a = b :=
  (c.encode_append_inj (r := []) (s := []) ha hb (by rw [h])).1

/-! ## Building blocks -/

/-- Exactly `n` bytes, or nothing when the input is too short. -/
def takeBytes (n : ℕ) (bytes : Bytes) : Option (Bytes × Bytes) :=
  if n ≤ bytes.length then some (bytes.take n, bytes.drop n) else none

theorem takeBytes_append (b rest : Bytes) : takeBytes b.length (b ++ rest) = some (b, rest) := by
  simp [takeBytes]

def unit : Codec Unit where
  encode _ := []
  decode bytes := some ((), bytes)
  fits _ := true
  valid _ := true
  fits_of_valid _ _ := rfl
  decode_encode _ _ _ := rfl

def equiv (c : Codec α) (e : α ≃ β) : Codec β where
  encode b := c.encode (e.symm b)
  decode bytes := (c.decode bytes).map fun p => (e p.1, p.2)
  fits b := c.fits (e.symm b)
  valid b := c.valid (e.symm b)
  fits_of_valid b := c.fits_of_valid (e.symm b)
  decode_encode := by
    intro b rest h
    simp [c.decode_encode _ rest h]

@[simp] theorem equiv_encode (c : Codec α) (e : α ≃ β) (b : β) :
    (c.equiv e).encode b = c.encode (e.symm b) := rfl

@[simp] theorem equiv_fits (c : Codec α) (e : α ≃ β) (b : β) :
    (c.equiv e).fits b = c.fits (e.symm b) := rfl

@[simp] theorem equiv_valid (c : Codec α) (e : α ≃ β) (b : β) :
    (c.equiv e).valid b = c.valid (e.symm b) := rfl

def pair (c : Codec α) (d : Codec β) : Codec (α × β) where
  encode p := c.encode p.1 ++ d.encode p.2
  decode bytes := do
    let (a, rest) ← c.decode bytes
    let (b, rest) ← d.decode rest
    return ((a, b), rest)
  fits p := c.fits p.1 && d.fits p.2
  valid p := c.valid p.1 && d.valid p.2
  fits_of_valid := by
    rintro ⟨a, b⟩ h
    simp only [Bool.and_eq_true] at h ⊢
    exact ⟨c.fits_of_valid a h.1, d.fits_of_valid b h.2⟩
  decode_encode := by
    rintro ⟨a, b⟩ rest h
    simp only [Bool.and_eq_true] at h
    simp [List.append_assoc, c.decode_encode _ _ h.1, d.decode_encode _ _ h.2]

@[simp] theorem pair_encode (c : Codec α) (d : Codec β) (p : α × β) :
    (c.pair d).encode p = c.encode p.1 ++ d.encode p.2 := rfl

@[simp] theorem pair_fits (c : Codec α) (d : Codec β) (p : α × β) :
    (c.pair d).fits p = (c.fits p.1 && d.fits p.2) := rfl

@[simp] theorem pair_valid (c : Codec α) (d : Codec β) (p : α × β) :
    (c.pair d).valid p = (c.valid p.1 && d.valid p.2) := rfl

theorem pair_decode_eq_some (c : Codec α) (d : Codec β) {bytes rest : Bytes} {a : α} {b : β} :
    (c.pair d).decode bytes = some ((a, b), rest) ↔
      ∃ mid, c.decode bytes = some (a, mid) ∧ d.decode mid = some (b, rest) := by
  simp only [pair, Option.bind_eq_bind, Option.bind_eq_some_iff, Option.pure_def,
    Option.some.injEq, Prod.exists, Prod.mk.injEq]
  constructor
  · rintro ⟨_, mid, ha, _, _, hb, ⟨rfl, rfl⟩, rfl⟩
    exact ⟨mid, ha, hb⟩
  · rintro ⟨mid, ha, hb⟩
    exact ⟨a, mid, ha, b, rest, hb, ⟨rfl, rfl⟩, rfl⟩

/-- Let the reader refuse values that fail a check. -/
def guarded (c : Codec α) (p : α → Bool) : Codec α where
  encode := c.encode
  decode bytes := (c.decode bytes).filter fun q => p q.1
  fits := c.fits
  valid a := c.valid a && p a
  fits_of_valid := by
    intro a h
    simp only [Bool.and_eq_true] at h
    exact c.fits_of_valid a h.1
  decode_encode := by
    intro a rest h
    simp only [Bool.and_eq_true] at h
    simp [c.decode_encode _ _ h.1, Option.filter, h.2]

@[simp] theorem guarded_encode (c : Codec α) (p : α → Bool) (a : α) :
    (c.guarded p).encode a = c.encode a := rfl

@[simp] theorem guarded_fits (c : Codec α) (p : α → Bool) (a : α) :
    (c.guarded p).fits a = c.fits a := rfl

@[simp] theorem guarded_valid (c : Codec α) (p : α → Bool) (a : α) :
    (c.guarded p).valid a = (c.valid a && p a) := rfl

/-- Let both the writer and the reader refuse values that fail a check. -/
def checked (c : Codec α) (p : α → Bool) : Codec α where
  encode := c.encode
  decode bytes := (c.decode bytes).filter fun q => p q.1
  fits a := c.fits a && p a
  valid a := c.valid a && p a
  fits_of_valid := by
    intro a h
    simp only [Bool.and_eq_true] at h ⊢
    exact ⟨c.fits_of_valid a h.1, h.2⟩
  decode_encode := (c.guarded p).decode_encode

/-- Read and write through a partial inverse: the reader refuses what `g` refuses. -/
def partialInv (c : Codec α) (f : β → α) (g : α → Option β)
    (hgf : ∀ b, g (f b) = some b) : Codec β where
  encode b := c.encode (f b)
  decode bytes := (c.decode bytes).bind fun p => (g p.1).map fun b => (b, p.2)
  fits b := c.fits (f b)
  valid b := c.valid (f b)
  fits_of_valid b := c.fits_of_valid (f b)
  decode_encode := by
    intro b rest h
    simp [c.decode_encode _ rest h, hgf]

@[simp] theorem partialInv_valid (c : Codec α) (f : β → α) (g : α → Option β) (h) (b : β) :
    (c.partialInv f g h).valid b = c.valid (f b) := rfl

/-! ## Integers -/

/-- The `w` little-endian bytes of a number. -/
def leBytes : ℕ → ℕ → Bytes
  | 0, _ => []
  | w + 1, n => UInt8.ofNat n :: leBytes w (n / 256)

def leNat : Bytes → ℕ
  | [] => 0
  | b :: bs => b.toNat + 256 * leNat bs

@[simp] theorem length_leBytes (w n : ℕ) : (leBytes w n).length = w := by
  induction w generalizing n with
  | zero => rfl
  | succ w ih => simp [leBytes, ih]

theorem leNat_leBytes (w n : ℕ) (h : n < 256 ^ w) : leNat (leBytes w n) = n := by
  induction w generalizing n with
  | zero =>
    have : n = 0 := by simpa using h
    simp [leBytes, leNat, this]
  | succ w ih =>
    have hdiv : n / 256 < 256 ^ w := by
      rw [Nat.div_lt_iff_lt_mul (by decide), ← pow_succ]
      exact h
    simp only [leBytes, leNat, ih _ hdiv, UInt8.toNat_ofNat']
    omega

/-- Natural numbers below `256 ^ w` in `w` little-endian bytes. -/
def le (w : ℕ) : Codec ℕ where
  encode n := leBytes w n
  decode bytes := (takeBytes w bytes).map fun p => (leNat p.1, p.2)
  fits n := decide (n < 256 ^ w)
  valid n := decide (n < 256 ^ w)
  fits_of_valid _ h := h
  decode_encode := by
    intro n rest h
    have := takeBytes_append (leBytes w n) rest
    rw [length_leBytes] at this
    simp [this, leNat_leBytes w n (by simpa using h)]

@[simp] theorem le_encode_length (w n : ℕ) : ((le w).encode n).length = w :=
  length_leBytes w n

/-- Machine integers of `w` bytes, given by their value and its inverse. -/
def word (w : ℕ) (toNat : α → ℕ) (ofNat : ℕ → α) (hlt : ∀ a, toNat a < 256 ^ w)
    (hof : ∀ a, ofNat (toNat a) = a) : Codec α where
  encode a := leBytes w (toNat a)
  decode bytes := ((le w).decode bytes).map fun p => (ofNat p.1, p.2)
  fits _ := true
  valid _ := true
  fits_of_valid _ _ := rfl
  decode_encode := by
    intro a rest _
    have := (le w).decode_encode (toNat a) rest (by simpa [le] using hlt a)
    simp only [le] at this ⊢
    simp [this, hof]

def u8 : Codec UInt8 :=
  word 1 UInt8.toNat UInt8.ofNat (fun a => a.toNat_lt) (fun _ => UInt8.ofNat_toNat)

def u16 : Codec UInt16 :=
  word 2 UInt16.toNat UInt16.ofNat (fun a => a.toNat_lt) (fun _ => UInt16.ofNat_toNat)

def u32 : Codec UInt32 :=
  word 4 UInt32.toNat UInt32.ofNat (fun a => a.toNat_lt) (fun _ => UInt32.ofNat_toNat)

def u64 : Codec UInt64 :=
  word 8 UInt64.toNat UInt64.ofNat (fun a => a.toNat_lt) (fun _ => UInt64.ofNat_toNat)

@[simp] theorem length_u8_encode (a : UInt8) : (u8.encode a).length = 1 := length_leBytes 1 _
@[simp] theorem length_u16_encode (a : UInt16) : (u16.encode a).length = 2 := length_leBytes 2 _
@[simp] theorem length_u32_encode (a : UInt32) : (u32.encode a).length = 4 := length_leBytes 4 _
@[simp] theorem length_u64_encode (a : UInt64) : (u64.encode a).length = 8 := length_leBytes 8 _

end Codec

end Borsh
