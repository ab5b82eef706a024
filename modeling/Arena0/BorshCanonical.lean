import Arena0.BorshContainers

/-!
# Canonical readers

A reader is canonical when it returns only what its writer would have written.
All combinators keep this law, except a reader that normalises what it has read.
Such a reader is compared with the canonical reader of the same layout: it accepts
the bytes of its own writer exactly when the value was in normal form already.
-/

namespace Borsh

namespace Codec

variable {α β γ δ : Type}

/-- The bytes read are those that the writer writes for the value returned. -/
def Canonical (c : Codec α) : Prop :=
  ∀ bytes a rest, c.decode bytes = some (a, rest) →
    bytes = c.encode a ++ rest ∧ c.valid a = true

/-! ## Building blocks -/

variable {bytes : Bytes}

theorem eq_of_takeBytes {n : ℕ} {taken rest : Bytes} (h : takeBytes n bytes = some (taken, rest)) :
    bytes = taken ++ rest ∧ taken.length = n := by
  unfold takeBytes at h
  split at h
  · rename_i hn
    cases h
    exact ⟨(List.take_append_drop n bytes).symm, List.length_take_of_le hn⟩
  · cases h

theorem leNat_lt (bytes : Bytes) : leNat bytes < 256 ^ bytes.length := by
  induction bytes with
  | nil => exact Nat.one_pos
  | cons b bytes ih =>
    have hb := b.toNat_lt
    simp only [leNat, List.length_cons, pow_succ]
    omega

theorem leBytes_leNat (bytes : Bytes) : leBytes bytes.length (leNat bytes) = bytes := by
  induction bytes with
  | nil => rfl
  | cons b bytes ih =>
    have hb := b.toNat_lt
    have hdiv : (b.toNat + 256 * leNat bytes) / 256 = leNat bytes := by omega
    have hlow : UInt8.ofNat (b.toNat + 256 * leNat bytes) = b := by
      apply UInt8.toNat_inj.1
      rw [UInt8.toNat_ofNat']
      omega
    rw [List.length_cons, leBytes, leNat, hdiv, ih, hlow]

theorem canonical_unit : unit.Canonical := by
  intro bytes a rest h
  cases h
  exact ⟨rfl, rfl⟩

theorem canonical_le (w : ℕ) : (le w).Canonical := by
  intro bytes n rest h
  obtain ⟨⟨taken, rest'⟩, htaken, heq⟩ := Option.map_eq_some_iff.1 h
  cases heq
  obtain ⟨rfl, rfl⟩ := eq_of_takeBytes htaken
  refine ⟨?_, decide_eq_true (leNat_lt taken)⟩
  exact congrArg (· ++ rest') (leBytes_leNat taken).symm

theorem canonical_word {w : ℕ} {toNat : α → ℕ} {ofNat : ℕ → α} {hlt : ∀ a, toNat a < 256 ^ w}
    {hof : ∀ a, ofNat (toNat a) = a} (hto : ∀ n, n < 256 ^ w → toNat (ofNat n) = n) :
    (word w toNat ofNat hlt hof).Canonical := by
  intro bytes a rest h
  obtain ⟨⟨n, rest'⟩, hn, heq⟩ := Option.map_eq_some_iff.1 h
  cases heq
  obtain ⟨hbytes, hvalid⟩ := canonical_le w bytes n rest' hn
  refine ⟨?_, rfl⟩
  rw [show (word w toNat ofNat hlt hof).encode (ofNat n) = leBytes w (toNat (ofNat n)) from rfl,
    hto n (of_decide_eq_true hvalid)]
  exact hbytes

theorem canonical_u8 : u8.Canonical :=
  canonical_word fun _ h => UInt8.toNat_ofNat_of_lt' h

theorem canonical_u16 : u16.Canonical :=
  canonical_word fun _ h => UInt16.toNat_ofNat_of_lt' h

theorem canonical_u32 : u32.Canonical :=
  canonical_word fun _ h => UInt32.toNat_ofNat_of_lt' h

theorem canonical_u64 : u64.Canonical :=
  canonical_word fun _ h => UInt64.toNat_ofNat_of_lt' h

theorem canonical_fixed (n : ℕ) : (fixed n).Canonical := by
  intro bytes a rest h
  obtain ⟨⟨taken, rest'⟩, htaken, h⟩ := Option.bind_eq_some_iff.1 h
  obtain ⟨array, harray, heq⟩ := Option.map_eq_some_iff.1 h
  cases heq
  obtain ⟨rfl, hlength⟩ := eq_of_takeBytes htaken
  rw [FixedBytes.ofBytes?, dif_pos hlength] at harray
  cases harray
  exact ⟨rfl, rfl⟩

theorem canonical_byteVec (max : ℕ) (hmax) : (byteVec max hmax).Canonical := by
  intro bytes a rest h
  obtain ⟨⟨len, rest'⟩, hlen, htake⟩ := Option.bind_eq_some_iff.1 h
  obtain ⟨rfl, -⟩ := canonical_le 4 bytes len rest' hlen
  dsimp only at htake
  split at htake
  · rename_i hle
    obtain ⟨rfl, rfl⟩ := eq_of_takeBytes htake
    exact ⟨(List.append_assoc _ _ _).symm, decide_eq_true hle⟩
  · cases htake

/-! ## Combinators -/

variable {c : Codec α}

theorem Canonical.equiv (hc : c.Canonical) (e : α ≃ β) : (c.equiv e).Canonical := by
  intro bytes b rest h
  obtain ⟨⟨a, rest'⟩, ha, heq⟩ := Option.map_eq_some_iff.1 h
  cases heq
  simpa using hc bytes a rest' ha

theorem Canonical.pair {d : Codec β} (hc : c.Canonical) (hd : d.Canonical) :
    (c.pair d).Canonical := by
  intro bytes p rest h
  obtain ⟨⟨a, mid⟩, ha, h⟩ := Option.bind_eq_some_iff.1 h
  obtain ⟨⟨b, rest'⟩, hb, heq⟩ := Option.bind_eq_some_iff.1 h
  cases heq
  obtain ⟨rfl, hva⟩ := hc bytes a mid ha
  obtain ⟨rfl, hvb⟩ := hd mid b rest hb
  exact ⟨(List.append_assoc _ _ _).symm, by simp [hva, hvb]⟩

theorem Canonical.guarded (hc : c.Canonical) (p : α → Bool) : (c.guarded p).Canonical := by
  intro bytes a rest h
  obtain ⟨ha, hp⟩ := Option.filter_eq_some_iff.1 h
  obtain ⟨hbytes, hvalid⟩ := hc bytes a rest ha
  exact ⟨hbytes, by simp [hvalid, hp]⟩

theorem Canonical.checked (hc : c.Canonical) (p : α → Bool) :
    (c.checked p).Canonical := hc.guarded p

theorem Canonical.partialInv (hc : c.Canonical) {f : β → α} {g : α → Option β}
    (hgf : ∀ b, g (f b) = some b) (hfg : ∀ a b, g a = some b → f b = a) :
    (c.partialInv f g hgf).Canonical := by
  intro bytes b rest h
  obtain ⟨⟨a, rest'⟩, ha, h⟩ := Option.bind_eq_some_iff.1 h
  obtain ⟨b', hb, heq⟩ := Option.map_eq_some_iff.1 h
  cases heq
  obtain rfl := hfg a b hb
  exact hc bytes _ rest' ha

theorem utf8_of_ofUtf8? {s : String} (h : ofUtf8? bytes = some s) : utf8 s = bytes := by
  unfold ofUtf8? String.fromUTF8? at h
  split at h
  · cases h
    simp [utf8, String.fromUTF8]
  · cases h

theorem canonical_string (max : ℕ) (hmax) : (string max hmax).Canonical :=
  (canonical_byteVec max hmax).partialInv ofUtf8?_utf8 fun _ _ h => utf8_of_ofUtf8? h

theorem Canonical.decodeMany (hc : c.Canonical) {n : ℕ} {rest : Bytes} {l : List α}
    (h : c.decodeMany n bytes = some (l, rest)) :
    bytes = c.encodeAll l ++ rest ∧ l.length = n ∧ ∀ a ∈ l, c.valid a = true := by
  induction n generalizing bytes l with
  | zero =>
    cases h
    exact ⟨rfl, rfl, fun a ha => (nomatch ha)⟩
  | succ n ih =>
    obtain ⟨⟨a, mid⟩, ha, h⟩ := Option.bind_eq_some_iff.1 h
    obtain ⟨⟨l', rest'⟩, hl, heq⟩ := Option.bind_eq_some_iff.1 h
    cases heq
    obtain ⟨rfl, hva⟩ := hc bytes a mid ha
    obtain ⟨rfl, rfl, hvl⟩ := ih hl
    refine ⟨by simp, rfl, ?_⟩
    intro b hb
    rcases List.mem_cons.1 hb with rfl | hb
    · exact hva
    · exact hvl b hb

theorem Canonical.vec (hc : c.Canonical) (max : ℕ) (hmax) :
    (vec max c hmax).Canonical := by
  intro bytes l rest h
  obtain ⟨⟨len, mid⟩, hlen, hmany⟩ := Option.bind_eq_some_iff.1 h
  obtain ⟨rfl, -⟩ := canonical_le 4 bytes len mid hlen
  dsimp only at hmany
  split at hmany
  · rename_i hle
    obtain ⟨rfl, rfl, hvalid⟩ := hc.decodeMany hmany
    refine ⟨(List.append_assoc _ _ _).symm, ?_⟩
    simpa [hle] using hvalid
  · cases hmany

def Variants.Canonical (v : Variants α) : Prop :=
  ∀ t bytes a rest, v.read t bytes = some (a, rest) →
    t = v.tag a ∧ bytes = v.body a ++ rest ∧ v.valid a = true

theorem Canonical.last (hc : c.Canonical) : (Variants.last c).Canonical := by
  intro t bytes a rest h
  cases t with
  | zero => exact ⟨rfl, hc bytes a rest h⟩
  | succ t => cases h

theorem Canonical.cons {v : Variants β} (hc : c.Canonical) (hv : v.Canonical) :
    (Variants.cons c v).Canonical := by
  intro t bytes s rest h
  cases t with
  | zero =>
    obtain ⟨⟨a, rest'⟩, ha, heq⟩ := Option.map_eq_some_iff.1 h
    cases heq
    exact ⟨rfl, hc bytes a rest' ha⟩
  | succ t =>
    obtain ⟨⟨b, rest'⟩, hb, heq⟩ := Option.map_eq_some_iff.1 h
    cases heq
    obtain ⟨rfl, hrest⟩ := hv t bytes b rest' hb
    exact ⟨rfl, hrest⟩

theorem Variants.Canonical.enum {v : Variants α} (hv : v.Canonical) (hcount) :
    (enum v hcount).Canonical := by
  intro bytes a rest h
  cases bytes with
  | nil => cases h
  | cons t bytes =>
    obtain ⟨htag, rfl, hvalid⟩ := hv t.toNat bytes a rest h
    refine ⟨?_, hvalid⟩
    show t :: (v.body a ++ rest) = UInt8.ofNat (v.tag a) :: (v.body a ++ rest)
    rw [← htag, UInt8.ofNat_toNat]

theorem Canonical.option (hc : c.Canonical) : c.option.Canonical :=
  ((canonical_unit.cons hc.last).enum (by simp)).equiv _

/-! ## Readers that normalise -/

/-- A codec reads a layout and normalises the value it finds: its writer writes a value as the
layout does. -/
structure Through (c : Codec β) (layout : Codec α) (write : β → α) (read : α → Option β) :
    Prop where
  encode : ∀ b, c.encode b = layout.encode (write b)
  decode : ∀ bytes b rest, c.decode bytes = some (b, rest) →
    ∃ a, layout.decode bytes = some (a, rest) ∧ read a = some b
  valid : ∀ bytes b rest, c.decode bytes = some (b, rest) → layout.valid (write b) = true

/-- What a normalising reader accepts is what its writer writes exactly when the layout already
held the normal form. -/
theorem Through.eq_encode_iff {c : Codec β} {layout : Codec α} {write : β → α} {read : α → Option β}
    (h : Through c layout write read) (hlayout : layout.Canonical) {rest : Bytes} {b : β}
    (hb : c.decode bytes = some (b, rest)) :
    ∃ a, layout.decode bytes = some (a, rest) ∧ read a = some b ∧
      (bytes = c.encode b ++ rest ↔ write b = a) := by
  obtain ⟨a, ha, hread⟩ := h.decode bytes b rest hb
  obtain ⟨hbytes, hvalid⟩ := hlayout bytes a rest ha
  refine ⟨a, ha, hread, ?_⟩
  rw [h.encode]
  constructor
  · intro heq
    rw [hbytes] at heq
    exact (layout.encode_append_inj hvalid (h.valid bytes b rest hb) heq).1.symm
  · intro heq
    rw [heq]
    exact hbytes

theorem Canonical.through (hc : c.Canonical) : Through c c id some where
  encode _ := rfl
  decode _ a _ h := ⟨a, h, rfl⟩
  valid bytes a rest h := (hc bytes a rest h).2

theorem through_partialInv {f : β → α} {g : α → Option β} (hgf : ∀ b, g (f b) = some b)
    (hvalid : ∀ b, c.valid (f b) = true) :
    Through (c.partialInv f g hgf) c f g where
  encode _ := rfl
  decode bytes b rest h := by
    obtain ⟨⟨a, rest'⟩, ha, h⟩ := Option.bind_eq_some_iff.1 h
    obtain ⟨b', hb, heq⟩ := Option.map_eq_some_iff.1 h
    cases heq
    exact ⟨a, ha, hb⟩
  valid _ b _ _ := hvalid b

section Combinators

variable {c : Codec β} {layout : Codec α} {write : β → α} {read : α → Option β}

theorem Through.equiv {β' α' : Type} (h : Through c layout write read) (e : β ≃ β') (e' : α ≃ α')
    {write' : β' → α'} {read' : α' → Option β'}
    (hwrite : ∀ b, write' (e b) = e' (write b)) (hread : ∀ a, read' (e' a) = (read a).map e) :
    Through (c.equiv e) (layout.equiv e') write' read' where
  encode b := by
    obtain ⟨b, rfl⟩ := e.surjective b
    simp [hwrite, h.encode]
  decode bytes b rest hb := by
    obtain ⟨⟨b', rest'⟩, hb', heq⟩ := Option.map_eq_some_iff.1 hb
    cases heq
    obtain ⟨a, ha, hr⟩ := h.decode bytes b' rest' hb'
    exact ⟨e' a, by simp [Codec.equiv, ha], by simp [hread, hr]⟩
  valid bytes b rest hb := by
    obtain ⟨⟨b', rest'⟩, hb', heq⟩ := Option.map_eq_some_iff.1 hb
    cases heq
    simpa [hwrite] using h.valid bytes b' rest' hb'

theorem Through.pair {d : Codec δ} {layout' : Codec γ} {write' : δ → γ} {read' : γ → Option δ}
    (h : Through c layout write read) (h' : Through d layout' write' read') :
    Through (c.pair d) (layout.pair layout') (Prod.map write write')
      (fun a => (read a.1).bind fun b => (read' a.2).map fun b' => (b, b')) where
  encode b := by simp [h.encode, h'.encode]
  decode bytes p rest hp := by
    obtain ⟨⟨b, mid⟩, hb, hp⟩ := Option.bind_eq_some_iff.1 hp
    obtain ⟨⟨b', rest'⟩, hb', heq⟩ := Option.bind_eq_some_iff.1 hp
    cases heq
    obtain ⟨a, ha, hr⟩ := h.decode bytes b mid hb
    obtain ⟨a', ha', hr'⟩ := h'.decode mid b' rest hb'
    exact ⟨(a, a'), by simp [Codec.pair, ha, ha'], by simp [hr, hr']⟩
  valid bytes p rest hp := by
    obtain ⟨⟨b, mid⟩, hb, hp⟩ := Option.bind_eq_some_iff.1 hp
    obtain ⟨⟨b', rest'⟩, hb', heq⟩ := Option.bind_eq_some_iff.1 hp
    cases heq
    simp [h.valid bytes b mid hb, h'.valid mid b' rest hb']

theorem Through.guarded (h : Through c layout write read) (p : β → Bool) :
    Through (c.guarded p) layout write read where
  encode := h.encode
  decode bytes b rest hb := h.decode bytes b rest (Option.filter_eq_some_iff.1 hb).1
  valid bytes b rest hb := h.valid bytes b rest (Option.filter_eq_some_iff.1 hb).1

theorem Through.decodeMany (h : Through c layout write read) {n : ℕ} {bytes rest : Bytes}
    {l : List β} (hl : c.decodeMany n bytes = some (l, rest)) :
    (∃ as, layout.decodeMany n bytes = some (as, rest) ∧ as.mapM read = some l) ∧
      l.length = n ∧ ∀ b ∈ l, layout.valid (write b) = true := by
  induction n generalizing bytes l with
  | zero =>
    cases hl
    exact ⟨⟨[], rfl, rfl⟩, rfl, fun b hb => (nomatch hb)⟩
  | succ n ih =>
    obtain ⟨⟨b, mid⟩, hb, hl⟩ := Option.bind_eq_some_iff.1 hl
    obtain ⟨⟨l', rest'⟩, hl', heq⟩ := Option.bind_eq_some_iff.1 hl
    cases heq
    obtain ⟨a, ha, hr⟩ := h.decode bytes b mid hb
    obtain ⟨⟨as, has, hrs⟩, rfl, hvalid⟩ := ih hl'
    refine ⟨⟨a :: as, by simp [Codec.decodeMany, ha, has], by simp [List.mapM_cons, hr, hrs]⟩, rfl,
      ?_⟩
    intro b' hb'
    rcases List.mem_cons.1 hb' with rfl | hb'
    · exact h.valid bytes _ mid hb
    · exact hvalid b' hb'

theorem Through.vec (h : Through c layout write read) (max : ℕ) (hmax) :
    Through (Codec.vec max c hmax) (Codec.vec max layout hmax) (List.map write)
      (List.mapM read) where
  encode l := by
    simp only [vec_encode, List.length_map, encodeAll, List.flatMap_map]
    rw [show c.encode = fun b => layout.encode (write b) from funext h.encode]
  decode bytes l rest hl := by
    obtain ⟨⟨len, mid⟩, hlen, hmany⟩ := Option.bind_eq_some_iff.1 hl
    dsimp only at hmany
    split at hmany
    · rename_i hle
      obtain ⟨⟨as, has, hrs⟩, -, -⟩ := h.decodeMany hmany
      exact ⟨as, by simp [Codec.vec, hlen, hle, has], hrs⟩
    · cases hmany
  valid bytes l rest hl := by
    obtain ⟨⟨len, mid⟩, hlen, hmany⟩ := Option.bind_eq_some_iff.1 hl
    dsimp only at hmany
    split at hmany
    · rename_i hle
      obtain ⟨-, rfl, hvalid⟩ := h.decodeMany hmany
      simpa [hle] using hvalid
    · cases hmany

theorem Through.enum {v : Variants γ} (h : Through c layout write read) (hv : v.Canonical)
    (hcount) (hcount') :
    Through (Codec.enum (.cons c v) hcount) (Codec.enum (.cons layout v) hcount')
      (Sum.map write id) (Sum.elim (fun a => (read a).map .inl) fun x => some (.inr x)) where
  encode s := by
    cases s with
    | inl b => exact congrArg (UInt8.ofNat 0 :: ·) (h.encode b)
    | inr x => rfl
  decode bytes s rest hs := by
    cases bytes with
    | nil => cases hs
    | cons t bytes =>
      simp only [Codec.enum] at hs ⊢
      cases ht : t.toNat with
      | zero =>
        rw [ht] at hs
        obtain ⟨⟨b, rest'⟩, hb, heq⟩ := Option.map_eq_some_iff.1 hs
        cases heq
        obtain ⟨a, ha, hr⟩ := h.decode bytes b rest' hb
        exact ⟨.inl a, by simp [Variants.cons, ha], by simp [hr]⟩
      | succ n =>
        rw [ht] at hs
        obtain ⟨⟨x, rest'⟩, hx, heq⟩ := Option.map_eq_some_iff.1 hs
        cases heq
        exact ⟨.inr x, by simp [Variants.cons, hx], rfl⟩
  valid bytes s rest hs := by
    cases bytes with
    | nil => cases hs
    | cons t bytes =>
      simp only [Codec.enum] at hs
      cases ht : t.toNat with
      | zero =>
        rw [ht] at hs
        obtain ⟨⟨b, rest'⟩, hb, heq⟩ := Option.map_eq_some_iff.1 hs
        cases heq
        exact h.valid bytes b rest' hb
      | succ n =>
        rw [ht] at hs
        obtain ⟨⟨x, rest'⟩, hx, heq⟩ := Option.map_eq_some_iff.1 hs
        cases heq
        exact (hv n bytes x rest' hx).2.2

end Combinators

end Codec

end Borsh
