import Arena0.Borsh

/-!
# Containers in the Borsh format

Fixed arrays, UTF-8 strings, bounded vectors, options and tagged unions.  Each
encoding is the stock Borsh one; a bounded reader refuses a length prefix over
its bound.
-/

namespace Borsh

@[ext] structure FixedBytes (n : ℕ) where
  bytes : Bytes
  length_eq : bytes.length = n

namespace FixedBytes

variable {n : ℕ}

def ofBytes? (n : ℕ) (b : Bytes) : Option (FixedBytes n) :=
  if h : b.length = n then some ⟨b, h⟩ else none

@[simp] theorem ofBytes?_bytes (a : FixedBytes n) : ofBytes? n a.bytes = some a := by
  simp [ofBytes?, a.length_eq]

theorem bytes_injective : Function.Injective (bytes : FixedBytes n → Bytes) := by
  intro a b h
  exact FixedBytes.ext h

def replicate (n : ℕ) (b : UInt8) : FixedBytes n :=
  ⟨List.replicate n b, List.length_replicate⟩

/-- The first `n` bytes, zero padded: the array of a domain separation tag. -/
def padded (n : ℕ) (b : Bytes) : FixedBytes n :=
  ⟨(b ++ List.replicate n 0).take n, by simp⟩

instance : Zero (FixedBytes n) := ⟨replicate n 0⟩

/-- Arrays are ordered lexicographically by byte. -/
instance : LinearOrder (FixedBytes n) :=
  LinearOrder.lift' (fun a => a.bytes.map UInt8.toNat) fun _ _ h =>
    FixedBytes.ext (List.map_injective_iff.2 (fun _ _ => UInt8.toNat_inj.1) h)

end FixedBytes

namespace Codec

variable {α β γ : Type}

/-- A fixed array is its bytes, without a length prefix. -/
def fixed (n : ℕ) : Codec (FixedBytes n) where
  encode a := a.bytes
  decode bytes := (takeBytes n bytes).bind fun p => (FixedBytes.ofBytes? n p.1).map (·, p.2)
  fits _ := true
  valid _ := true
  fits_of_valid _ _ := rfl
  decode_encode := by
    intro a rest _
    have h := takeBytes_append a.bytes rest
    rw [a.length_eq] at h
    simp [h]

@[simp] theorem fixed_encode (n : ℕ) (a : FixedBytes n) : (fixed n).encode a = a.bytes := rfl
@[simp] theorem length_fixed_encode (n : ℕ) (a : FixedBytes n) :
    ((fixed n).encode a).length = n := a.length_eq

@[simp] theorem fixed_fits (n : ℕ) (a : FixedBytes n) : (fixed n).fits a = true := rfl
@[simp] theorem fixed_valid (n : ℕ) (a : FixedBytes n) : (fixed n).valid a = true := rfl

/-- Stock `Vec<u8>` bytes of at most `max`. -/
def byteVec (max : ℕ) (hmax : max < 256 ^ 4 := by decide) : Codec Bytes where
  encode b := leBytes 4 b.length ++ b
  decode bytes := do
    let (len, rest) ← (le 4).decode bytes
    if len ≤ max then takeBytes len rest else none
  fits b := decide (b.length ≤ max)
  valid b := decide (b.length ≤ max)
  fits_of_valid _ h := h
  decode_encode := by
    intro b rest h
    have hb : b.length ≤ max := by simpa using h
    have hle := (le 4).decode_encode b.length (b ++ rest) (by simp only [le, decide_eq_true_eq]; omega)
    simp only [List.append_assoc, Option.bind_eq_bind]
    rw [show leBytes 4 b.length = (le 4).encode b.length from rfl, hle]
    simp [hb, takeBytes_append]

@[simp] theorem byteVec_encode (max : ℕ) (h) (b : Bytes) :
    (byteVec max h).encode b = leBytes 4 b.length ++ b := rfl

@[simp] theorem byteVec_fits (max : ℕ) (h) (b : Bytes) :
    (byteVec max h).fits b = decide (b.length ≤ max) := rfl

@[simp] theorem byteVec_valid (max : ℕ) (h) (b : Bytes) :
    (byteVec max h).valid b = decide (b.length ≤ max) := rfl

/-! ## Strings -/

def utf8 (s : String) : Bytes := s.toByteArray.data.toList

def ofUtf8? (b : Bytes) : Option String := String.fromUTF8? ⟨b.toArray⟩

theorem ofUtf8?_utf8 (s : String) : ofUtf8? (utf8 s) = some s := by
  have h : (⟨(utf8 s).toArray⟩ : ByteArray) = s.toByteArray := by
    simp [utf8]
  unfold ofUtf8?
  rw [h, String.fromUTF8?, dif_pos s.isValidUTF8]
  rfl

/-- A `String` whose UTF-8 form has at most `max` bytes. -/
def string (max : ℕ) (hmax : max < 256 ^ 4 := by decide) : Codec String :=
  (byteVec max hmax).partialInv utf8 ofUtf8? ofUtf8?_utf8

@[simp] theorem string_encode (max : ℕ) (h) (s : String) :
    (string max h).encode s = leBytes 4 (utf8 s).length ++ utf8 s := rfl

@[simp] theorem string_fits (max : ℕ) (h) (s : String) :
    (string max h).fits s = decide ((utf8 s).length ≤ max) := rfl

@[simp] theorem string_valid (max : ℕ) (h) (s : String) :
    (string max h).valid s = decide ((utf8 s).length ≤ max) := rfl

theorem length_utf8_replicate (n : ℕ) (c : Char) (hc : c.utf8Size = 1) :
    (utf8 (String.ofList (List.replicate n c))).length = n := by
  have hlen : ∀ l : List Char, (utf8 (String.ofList l)).length =
      (l.flatMap String.utf8EncodeChar).length := by
    intro l
    simp [utf8, List.utf8Encode]
  rw [hlen, List.length_flatMap]
  simp [String.length_utf8EncodeChar, hc]

/-! ## Vectors and options -/

def encodeAll (c : Codec α) (l : List α) : Bytes := l.flatMap c.encode

@[simp] theorem encodeAll_nil (c : Codec α) : c.encodeAll [] = [] := rfl

@[simp] theorem encodeAll_cons (c : Codec α) (a : α) (l : List α) :
    c.encodeAll (a :: l) = c.encode a ++ c.encodeAll l := rfl

@[simp] theorem encodeAll_append (c : Codec α) (l m : List α) :
    c.encodeAll (l ++ m) = c.encodeAll l ++ c.encodeAll m := List.flatMap_append

def decodeMany (c : Codec α) : ℕ → Bytes → Option (List α × Bytes)
  | 0, bytes => some ([], bytes)
  | n + 1, bytes => do
    let (a, rest) ← c.decode bytes
    let (l, rest) ← decodeMany c n rest
    return (a :: l, rest)

theorem decodeMany_encodeAll (c : Codec α) (l : List α) (rest : Bytes)
    (h : ∀ a ∈ l, c.valid a = true) :
    c.decodeMany l.length (c.encodeAll l ++ rest) = some (l, rest) := by
  induction l with
  | nil => rfl
  | cons a l ih =>
    have ha := c.decode_encode a (c.encodeAll l ++ rest) (h a (by simp))
    have hl := ih fun b hb => h b (by simp [hb])
    simp [decodeMany, ha, hl]

/-- Stock `Vec<T>` with at most `max` elements. -/
def vec (max : ℕ) (c : Codec α) (hmax : max < 256 ^ 4 := by decide) : Codec (List α) where
  encode l := leBytes 4 l.length ++ c.encodeAll l
  decode bytes := do
    let (len, rest) ← (le 4).decode bytes
    if len ≤ max then c.decodeMany len rest else none
  fits l := decide (l.length ≤ max) && l.all c.fits
  valid l := decide (l.length ≤ max) && l.all c.valid
  fits_of_valid := by
    intro l h
    simp only [Bool.and_eq_true, List.all_eq_true] at h ⊢
    exact ⟨h.1, fun a ha => c.fits_of_valid a (h.2 a ha)⟩
  decode_encode := by
    intro l rest h
    simp only [Bool.and_eq_true, decide_eq_true_eq, List.all_eq_true] at h
    have hle := (le 4).decode_encode l.length (c.encodeAll l ++ rest)
      (by simp only [le, decide_eq_true_eq]; omega)
    simp only [List.append_assoc, Option.bind_eq_bind]
    rw [show leBytes 4 l.length = (le 4).encode l.length from rfl, hle]
    simp [h.1, c.decodeMany_encodeAll l rest h.2]

@[simp] theorem vec_encode (max : ℕ) (c : Codec α) (h) (l : List α) :
    (vec max c h).encode l = leBytes 4 l.length ++ c.encodeAll l := rfl

@[simp] theorem vec_fits (max : ℕ) (c : Codec α) (h) (l : List α) :
    (vec max c h).fits l = (decide (l.length ≤ max) && l.all c.fits) := rfl

@[simp] theorem vec_valid (max : ℕ) (c : Codec α) (h) (l : List α) :
    (vec max c h).valid l = (decide (l.length ≤ max) && l.all c.valid) := rfl

/-! ## Tagged unions -/

/-- The variants of an enumeration, numbered from zero in order. -/
structure Variants (α : Type) where
  count : ℕ
  tag : α → ℕ
  body : α → Bytes
  read : ℕ → Bytes → Option (α × Bytes)
  fits : α → Bool
  valid : α → Bool
  tag_lt : ∀ a, tag a < count
  fits_of_valid : ∀ a, valid a = true → fits a = true
  read_body : ∀ a rest, valid a = true → read (tag a) (body a ++ rest) = some (a, rest)

namespace Variants

def last (c : Codec α) : Variants α where
  count := 1
  tag _ := 0
  body := c.encode
  read
    | 0, bytes => c.decode bytes
    | _ + 1, _ => none
  fits := c.fits
  valid := c.valid
  tag_lt _ := Nat.zero_lt_one
  fits_of_valid := c.fits_of_valid
  read_body := c.decode_encode

def cons (c : Codec α) (v : Variants β) : Variants (α ⊕ β) where
  count := v.count + 1
  tag
    | .inl _ => 0
    | .inr b => v.tag b + 1
  body
    | .inl a => c.encode a
    | .inr b => v.body b
  read
    | 0, bytes => (c.decode bytes).map fun p => (.inl p.1, p.2)
    | t + 1, bytes => (v.read t bytes).map fun p => (.inr p.1, p.2)
  fits
    | .inl a => c.fits a
    | .inr b => v.fits b
  valid
    | .inl a => c.valid a
    | .inr b => v.valid b
  tag_lt
    | .inl _ => Nat.succ_pos _
    | .inr b => Nat.succ_lt_succ (v.tag_lt b)
  fits_of_valid
    | .inl a => c.fits_of_valid a
    | .inr b => v.fits_of_valid b
  read_body := by
    rintro (a | b) rest h
    · simp [c.decode_encode a rest h]
    · simp [v.read_body b rest h]

@[simp] theorem last_count (c : Codec α) : (last c).count = 1 := rfl

@[simp] theorem cons_count (c : Codec α) (v : Variants β) : (cons c v).count = v.count + 1 := rfl

theorem toNat_tag (v : Variants α) (hcount : v.count ≤ 256) (a : α) :
    (UInt8.ofNat (v.tag a)).toNat = v.tag a := by
  have := v.tag_lt a
  rw [UInt8.toNat_ofNat']
  omega

end Variants

/-- A tag byte followed by the fields of the variant it names. -/
def enum (v : Variants α)
    (hcount : decide (v.count ≤ 256) = true := by exact @rfl Bool true) : Codec α where
  encode a := UInt8.ofNat (v.tag a) :: v.body a
  decode
    | [] => none
    | t :: bytes => v.read t.toNat bytes
  fits := v.fits
  valid := v.valid
  fits_of_valid := v.fits_of_valid
  decode_encode := by
    intro a rest h
    simp only [List.cons_append, v.toNat_tag (of_decide_eq_true hcount)]
    exact v.read_body a rest h

/-- The fields of a variant that is no longer written: the reader refuses its tag. -/
def retired : Codec Empty where
  encode a := nomatch a
  decode _ := none
  fits a := nomatch a
  valid a := nomatch a
  fits_of_valid a := nomatch a
  decode_encode a := nomatch a

/-- `Option<T>` with its `0/1` tag. -/
def option (c : Codec α) : Codec (Option α) :=
  (enum (.cons unit (.last c))).equiv
    { toFun := fun s => s.elim (fun _ => none) some
      invFun := fun o => o.elim (.inl ()) .inr
      left_inv := by rintro (_ | _) <;> rfl
      right_inv := by rintro (_ | _) <;> rfl }

@[simp] theorem option_encode_none (c : Codec α) : c.option.encode none = [0] := rfl

@[simp] theorem option_encode_some (c : Codec α) (a : α) :
    c.option.encode (some a) = 1 :: c.encode a := rfl

@[simp] theorem option_fits_some (c : Codec α) (a : α) : c.option.fits (some a) = c.fits a := rfl

end Codec

end Borsh
