import Arena0.BorshContainers

/-!
# Resolving id prefixes

A hexadecimal prefix is turned into a half-open range of byte strings and the range into
the statements of one id space.  Panics are none.
-/

namespace Arena0

open Borsh

inductive IdSpace
  | exec
  | session
  | receipt
  deriving DecidableEq

structure IdMatches where
  ids : List (FixedBytes 32)
  total : ℕ
  deriving DecidableEq

/-- The indexed columns: `execution_id` is unique, `receipt_id` a primary key. -/
structure IdTables where
  execRequests : List (FixedBytes 32)
  /-- The session and whether the activation is committed. -/
  activationRecords : List (FixedBytes 32 × Bool)
  executions : List (FixedBytes 32)
  /-- The receipt and its session. -/
  receipts : List (FixedBytes 32 × FixedBytes 32)
  unique : execRequests.Nodup ∧ (receipts.map (·.1)).Nodup

namespace IdPrefix

def nibble (c : UInt8) : Option UInt8 :=
  if 48 ≤ c ∧ c ≤ 57 then some (c - 48)
  else if 97 ≤ c ∧ c ≤ 102 then some (c - 97 + 10)
  else none

/-- `lo[i / 2] |= value << (if i is even { 4 } else { 0 })`. -/
def place (lo : Bytes) (value : UInt8 × ℕ) : Bytes :=
  lo.modify (value.2 / 2) (· ||| value.1 <<< (if value.2 % 2 = 0 then 4 else 0))

def lower (idPrefix : Bytes) : Option Bytes := do
  let values ← idPrefix.mapM nibble
  if 64 < idPrefix.length then none
  else some (values.zipIdx.foldl place (List.replicate 32 0))

/-- Adds from the last byte on; the carry out of the first one is left. -/
def increment (carry : ℕ) : Bytes → Bytes × ℕ
  | [] => ([], carry)
  | byte :: rest =>
    let (rest, carry) := increment carry rest
    (.ofNat (byte.toNat + carry) :: rest, (byte.toNat + carry) / 256)

/-- The range of a prefix; an all-f prefix has no upper bound. -/
def bounds (idPrefix : Bytes) : Option (Bytes × Option Bytes) := do
  let lo ← lower idPrefix
  let constrained := (idPrefix.length + 1) / 2
  let (hi, carry) := increment (if idPrefix.length % 2 = 0 then 1 else 16) (lo.take constrained)
  some (lo, if carry = 0 then some (hi ++ lo.drop constrained) else none)

/-- `id >= ?1 AND id < ?2`, by byte. -/
def within (range : Bytes × Option Bytes) (id : FixedBytes 32) : Bool :=
  range.1.map UInt8.toNat ≤ id.bytes.map UInt8.toNat ∧
    ∀ hi ∈ range.2, id.bytes.map UInt8.toNat < hi.map UInt8.toNat

end IdPrefix

namespace IdTables

def committed (t : IdTables) : List (FixedBytes 32) :=
  (t.activationRecords.filter (·.2)).map (·.1)

/-- The rows of an id space; `UNION` keeps each once. -/
def source (t : IdTables) (range : Bytes × Option Bytes) : IdSpace → List (FixedBytes 32)
  | .exec => t.execRequests.filter (IdPrefix.within range)
  | .receipt => (t.receipts.map (·.1)).filter (IdPrefix.within range)
  | .session => (t.committed.filter (IdPrefix.within range) ++
      t.executions.filter (IdPrefix.within range) ++
      (t.receipts.map (·.2)).filter (IdPrefix.within range)).dedup

def resolveIds (t : IdTables) (space : IdSpace) (idPrefix : Bytes) (limit : ℕ) :
    Option (Except String IdMatches) := do
  let range ← IdPrefix.bounds idPrefix
  if 2 ^ 63 ≤ limit then some (.error "id limit is too large")
  else some (.ok ⟨((t.source range space).insertionSort (· ≤ ·)).take limit,
    (t.source range space).length⟩)

def ids (t : IdTables) : IdSpace → Finset (FixedBytes 32)
  | .exec => t.execRequests.toFinset
  | .receipt => (t.receipts.map (·.1)).toFinset
  | .session => (t.committed ++ t.executions ++ t.receipts.map (·.2)).toFinset

end IdTables

namespace IdPrefix

/-! ## Digits, most significant first -/

def nibbles (bytes : Bytes) : List ℕ := bytes.flatMap fun b => [b.toNat / 16, b.toNat % 16]

def hexDigit (n : ℕ) : UInt8 := .ofNat (if n < 10 then 48 + n else 87 + n)

def hex (id : FixedBytes 32) : Bytes := (nibbles id.bytes).map hexDigit

def digits (b : ℕ) (l : List ℕ) : ℕ := Nat.ofDigits b l.reverse

section Digits

variable {b : ℕ} {l l' : List ℕ}

theorem digits_cons (d : ℕ) : digits b (d :: l) = digits b l + b ^ l.length * d :=
  Nat.ofDigits_reverse_cons l d

theorem digits_append : digits b (l ++ l') = digits b l * b ^ l'.length + digits b l' := by
  rw [digits, List.reverse_append, Nat.ofDigits_append, List.length_reverse]
  unfold digits
  ring

theorem digits_lt (hb : 1 < b) (h : ∀ d ∈ l, d < b) : digits b l < b ^ l.length := by
  have := Nat.ofDigits_lt_base_pow_length hb fun x hx => h x (List.mem_reverse.1 hx)
  rwa [List.length_reverse] at this

theorem lt_iff_digits_lt (hb : 1 < b) (h : ∀ d ∈ l, d < b) (h' : ∀ d ∈ l', d < b)
    (hlen : l.length = l'.length) : l < l' ↔ digits b l < digits b l' := by
  induction l generalizing l' with
  | nil => cases l' with
    | nil => simp
    | cons d' l' => cases hlen
  | cons d l ih => cases l' with
    | nil => cases hlen
    | cons d' l' =>
      have hlen' : l.length = l'.length := Nat.succ.inj hlen
      have hl := digits_lt hb fun x hx => h x (List.mem_cons_of_mem _ hx)
      have hl' := digits_lt hb fun x hx => h' x (List.mem_cons_of_mem _ hx)
      rw [List.cons_lt_cons_iff, digits_cons, digits_cons, ← hlen',
        ih (fun x hx => h x (List.mem_cons_of_mem _ hx))
          (fun x hx => h' x (List.mem_cons_of_mem _ hx)) hlen']
      rw [← hlen'] at hl'
      -- A smaller leading digit outweighs whatever follows.
      have hlead : ∀ x y, x < y → b ^ l.length * x + b ^ l.length ≤ b ^ l.length * y :=
        fun x y hxy => Nat.mul_le_mul_left (b ^ l.length) hxy
      rcases lt_trichotomy d d' with hd | rfl | hd
      · have := hlead d d' hd
        exact ⟨fun _ => by omega, fun _ => .inl hd⟩
      · simp
      · have := hlead d' d hd
        exact ⟨fun hor => by omega, fun hlt => by omega⟩

theorem prefix_iff_digits (hb : 1 < b) (h : ∀ d ∈ l, d < b) (h' : ∀ d ∈ l', d < b) {k : ℕ}
    (hlen : l'.length = l.length + k) :
    l <+: l' ↔ digits b l * b ^ k ≤ digits b l' ∧ digits b l' < digits b l * b ^ k + b ^ k := by
  have hsplit := l'.take_append_drop l.length
  have htake : (l'.take l.length).length = l.length := by simp; omega
  have hdrop : (l'.drop l.length).length = k := by simp; omega
  have hrest := digits_lt hb fun x hx => h' x (List.mem_of_mem_drop (i := l.length) hx)
  rw [hdrop] at hrest
  have hvalue : digits b l' =
      digits b (l'.take l.length) * b ^ k + digits b (l'.drop l.length) := by
    conv_lhs => rw [← hsplit, digits_append, hdrop]
  rw [List.prefix_iff_eq_take, hvalue]
  constructor
  · intro heq
    rw [← heq]
    omega
  · rintro ⟨hle, hlt⟩
    have heq : digits b l = digits b (l'.take l.length) := by
      have h₁ : digits b (l'.take l.length) < digits b l + 1 :=
        Nat.lt_of_mul_lt_mul_right (a := b ^ k) (by rw [Nat.succ_mul]; omega)
      have h₂ : digits b l < digits b (l'.take l.length) + 1 :=
        Nat.lt_of_mul_lt_mul_right (a := b ^ k) (by rw [Nat.succ_mul]; omega)
      omega
    exact List.reverse_injective (Nat.ofDigits_inj_of_len_eq hb (by simp; omega)
      (fun x hx => h x (List.mem_reverse.1 hx))
      (fun x hx => h' x (List.mem_of_mem_take (List.mem_reverse.1 hx))) heq)

end Digits

theorem nibbles_lt {bytes : Bytes} : ∀ d ∈ nibbles bytes, d < 16 := by
  intro d hd
  obtain ⟨b, -, hb⟩ := List.mem_flatMap.1 hd
  have := b.toNat_lt
  rcases List.mem_pair.1 hb with rfl | rfl <;> omega

theorem length_nibbles (bytes : Bytes) : (nibbles bytes).length = 2 * bytes.length := by
  induction bytes with
  | nil => rfl
  | cons b bytes ih => simp [nibbles] at ih ⊢; omega

theorem digits_nibbles (bytes : Bytes) :
    digits 16 (nibbles bytes) = digits 256 (bytes.map UInt8.toNat) := by
  induction bytes with
  | nil => rfl
  | cons b bytes ih =>
    have hcons : nibbles (b :: bytes) = [b.toNat / 16, b.toNat % 16] ++ nibbles bytes := rfl
    have hpair : digits 16 [b.toNat / 16, b.toNat % 16] = b.toNat := by
      rw [digits_cons, digits_cons]
      change 0 + 16 ^ 0 * _ + 16 ^ 1 * _ = _
      omega
    rw [hcons, digits_append, hpair, ih, List.map_cons, digits_cons, length_nibbles, pow_mul,
      List.length_map]
    ring

/-! ## The range of a prefix -/

theorem or_nibble : ∀ b < 256, ∀ v < 16,
    (b / 16 = 0 → (UInt8.ofNat b ||| UInt8.ofNat v <<< 4).toNat = 16 * v + b % 16) ∧
    (b % 16 = 0 → (UInt8.ofNat b ||| UInt8.ofNat v <<< 0).toNat = 16 * (b / 16) + v) := by
  decide +kernel

theorem nibbles_place (lo : Bytes) (v : UInt8) (hv : v < 16) (i : ℕ)
    (hi : (nibbles lo)[i]? = some 0) : nibbles (place lo (v, i)) = (nibbles lo).set i v.toNat := by
  induction lo using List.rec generalizing i with
  | nil => cases hi
  | cons b lo ih =>
    have hv' : v.toNat < 16 := hv
    have hor := or_nibble b.toNat b.toNat_lt v.toNat hv
    rw [UInt8.ofNat_toNat, UInt8.ofNat_toNat] at hor
    match i with
    | 0 =>
      have hb : b.toNat / 16 = 0 := by simpa [nibbles] using hi
      have := hor.1 hb
      simp [nibbles, place, this]
      omega
    | 1 =>
      have hb : b.toNat % 16 = 0 := by simpa [nibbles] using hi
      have := hor.2 hb
      simp [nibbles, place] at this ⊢
      omega
    | i + 2 =>
      have hrec := ih i (by simpa [nibbles] using hi)
      have hdiv : (i + 2) / 2 = i / 2 + 1 := by omega
      simp [nibbles, place, hdiv] at hrec ⊢
      exact hrec

theorem nibbles_foldl_place (values : List UInt8) (hvalues : ∀ v ∈ values, v < 16)
    (done : List ℕ) (k : ℕ) (lo : Bytes)
    (hlo : nibbles lo = done ++ List.replicate (values.length + k) 0) :
    nibbles ((values.zipIdx done.length).foldl place lo) =
      done ++ values.map UInt8.toNat ++ List.replicate k 0 := by
  induction values generalizing done lo with
  | nil => simpa using hlo
  | cons v values ih =>
    have hsucc : (v :: values).length + k = values.length + k + 1 := by simp; omega
    rw [hsucc, List.replicate_succ] at hlo
    have hplace := nibbles_place lo v (hvalues v List.mem_cons_self) done.length (by simp [hlo])
    rw [hlo, List.set_append_right _ _ le_rfl, Nat.sub_self, List.set_cons_zero] at hplace
    have := ih (fun x hx => hvalues x (List.mem_cons_of_mem _ hx)) (done ++ [v.toNat])
      (place lo (v, done.length)) (by simpa using hplace)
    simpa using this

theorem increment_spec (carry : ℕ) (bytes : Bytes) :
    (increment carry bytes).1.length = bytes.length ∧
      digits 256 ((increment carry bytes).1.map UInt8.toNat) +
          (increment carry bytes).2 * 256 ^ bytes.length =
        digits 256 (bytes.map UInt8.toNat) + carry := by
  induction bytes with
  | nil => simp [increment, digits]
  | cons b bytes ih =>
    obtain ⟨hlen, hsum⟩ := ih
    refine ⟨by simp [increment, hlen], ?_⟩
    simp only [increment, List.map_cons, digits_cons, List.length_map, hlen, UInt8.toNat_ofNat',
      List.length_cons]
    have hdiv : 2 ^ 8 * ((b.toNat + (increment carry bytes).2) / 256) +
        (b.toNat + (increment carry bytes).2) % 2 ^ 8 = b.toNat + (increment carry bytes).2 :=
      Nat.div_add_mod _ 256
    have hpow : ∀ q r, 256 ^ bytes.length * r + q * 256 ^ (bytes.length + 1) =
        256 ^ bytes.length * (2 ^ 8 * q + r) := fun q r => by ring
    rw [Nat.add_assoc, hpow, hdiv, Nat.mul_add, Nat.mul_comm _ (increment carry bytes).2]
    omega

def IsHexDigit (c : UInt8) : Prop := 48 ≤ c ∧ c ≤ 57 ∨ 97 ≤ c ∧ c ≤ 102

instance : DecidablePred IsHexDigit := fun c =>
  inferInstanceAs (Decidable (48 ≤ c ∧ c ≤ 57 ∨ 97 ≤ c ∧ c ≤ 102))

def nibbleValue (c : UInt8) : UInt8 := (nibble c).getD 0

theorem nibble_eq {c : UInt8} (h : IsHexDigit c) :
    nibble c = some (nibbleValue c) ∧ nibbleValue c < 16 ∧ hexDigit (nibbleValue c).toNat = c := by
  have hall : ∀ n < 256, IsHexDigit (.ofNat n) → nibble (.ofNat n) = some (nibbleValue (.ofNat n)) ∧
      nibbleValue (.ofNat n) < 16 ∧ hexDigit (nibbleValue (.ofNat n)).toNat = .ofNat n := by
    decide +kernel
  have := hall c.toNat c.toNat_lt
  rw [UInt8.ofNat_toNat] at this
  exact this h

theorem nibbleValue_hexDigit : ∀ n < 16, (nibbleValue (hexDigit n)).toNat = n := by decide

theorem prefix_hex_iff {idPrefix : Bytes} (h : ∀ c ∈ idPrefix, IsHexDigit c) (id : FixedBytes 32) :
    idPrefix <+: hex id ↔ idPrefix.map (fun c => (nibbleValue c).toNat) <+: nibbles id.bytes := by
  constructor
  · intro hp
    have := hp.map fun c => (nibbleValue c).toNat
    rwa [hex, List.map_map, Function.comp_def, List.map_congr_left
      (fun n hn => nibbleValue_hexDigit n (nibbles_lt n hn)), List.map_id'] at this
  · intro hp
    have := hp.map hexDigit
    rwa [List.map_map, Function.comp_def,
      List.map_congr_left (fun c hc => (nibble_eq (h c hc)).2.2), List.map_id'] at this

theorem mapM_nibble {idPrefix : Bytes} (h : ∀ c ∈ idPrefix, IsHexDigit c) :
    idPrefix.mapM nibble = some (idPrefix.map nibbleValue) := by
  induction idPrefix with
  | nil => rfl
  | cons c idPrefix ih =>
    rw [List.mapM_cons, (nibble_eq (h c List.mem_cons_self)).1,
      ih fun c hc => h c (List.mem_cons_of_mem _ hc)]
    rfl

theorem carry_mul_pow {m : ℕ} (hm : m ≤ 64) :
    (if m % 2 = 0 then 1 else 16) * 256 ^ (32 - (m + 1) / 2) = 16 ^ (64 - m) := by
  have hpow : (256 : ℕ) ^ (32 - (m + 1) / 2) = 16 ^ (2 * (32 - (m + 1) / 2)) :=
    pow_mul 16 2 _ ▸ rfl
  rw [hpow]
  split
  · rw [one_mul]
    congr 1
    omega
  · rw [← pow_succ']
    congr 1
    omega

theorem exists_bounds {idPrefix : Bytes} (hlen : idPrefix.length ≤ 64)
    (h : ∀ c ∈ idPrefix, IsHexDigit c) :
    ∃ range, bounds idPrefix = some range ∧
      ∀ id, within range id = true ↔ idPrefix <+: hex id := by
  set values := idPrefix.map nibbleValue with hvalues
  set lo := values.zipIdx.foldl place (List.replicate 32 0) with hlo
  have hlower : lower idPrefix = some lo := by
    rw [lower, mapM_nibble h, Option.bind_eq_bind, Option.bind_some, if_neg (by omega)]
  have hsmall : ∀ v ∈ values, v < 16 := by
    intro v hv
    obtain ⟨c, hc, rfl⟩ := List.mem_map.1 hv
    exact (nibble_eq (h c hc)).2.1
  have hmlen : values.length = idPrefix.length := List.length_map _
  have hnibbles : nibbles lo = values.map UInt8.toNat ++ List.replicate (64 - idPrefix.length) 0 := by
    exact nibbles_foldl_place values hsmall [] (64 - idPrefix.length) (List.replicate 32 0)
      (by rw [hmlen, Nat.add_sub_cancel' hlen]; decide)
  have hlolen : lo.length = 32 := by
    have := congrArg List.length hnibbles
    rw [length_nibbles, List.length_append, List.length_map, hmlen, List.length_replicate] at this
    omega
  set k := 64 - idPrefix.length with hk
  set cut := (idPrefix.length + 1) / 2 with hcut
  have hloval : digits 256 (lo.map UInt8.toNat) = digits 16 (values.map UInt8.toNat) * 16 ^ k := by
    rw [← digits_nibbles, hnibbles, digits_append, List.length_replicate]
    simp [digits]
  obtain ⟨hilen, hisum⟩ := increment_spec (if idPrefix.length % 2 = 0 then 1 else 16) (lo.take cut)
  set r := increment (if idPrefix.length % 2 = 0 then 1 else 16) (lo.take cut) with hr
  have htake : (lo.take cut).length = cut := by simp; omega
  have hdrop : (lo.drop cut).length = 32 - cut := by simp; omega
  rw [htake] at hilen hisum
  have hval : digits 256 ((r.1 ++ lo.drop cut).map UInt8.toNat) + r.2 * 256 ^ 32 =
      digits 16 (values.map UInt8.toNat) * 16 ^ k + 16 ^ k := by
    have hsplit : digits 256 (lo.map UInt8.toNat) =
        digits 256 ((lo.take cut).map UInt8.toNat) * 256 ^ (32 - cut) +
          digits 256 ((lo.drop cut).map UInt8.toNat) := by
      conv_lhs => rw [← lo.take_append_drop cut, List.map_append, digits_append, List.length_map,
        hdrop]
    have hpow : (256 : ℕ) ^ 32 = 256 ^ cut * 256 ^ (32 - cut) := by
      rw [← pow_add]
      congr 1
      omega
    rw [← hloval, hsplit, ← carry_mul_pow hlen, List.map_append, digits_append, List.length_map,
      hdrop, hpow, ← Nat.mul_assoc, Nat.add_right_comm, ← Nat.add_mul, hisum, Nat.add_mul,
      Nat.add_right_comm]
  refine ⟨_, by rw [bounds, hlower]; rfl, fun id => ?_⟩
  have hbyte : ∀ l : Bytes, ∀ d ∈ l.map UInt8.toNat, d < 256 := by
    intro l d hd
    obtain ⟨b, -, rfl⟩ := List.mem_map.1 hd
    exact b.toNat_lt
  have hidlen : id.bytes.length = 32 := id.length_eq
  have hid := digits_lt (by decide) (hbyte id.bytes)
  rw [List.length_map, hidlen] at hid
  have hless : ∀ l : Bytes, l.length = 32 → (id.bytes.map UInt8.toNat < l.map UInt8.toNat ↔
      digits 256 (id.bytes.map UInt8.toNat) < digits 256 (l.map UInt8.toNat)) :=
    fun l hl => lt_iff_digits_lt (by decide) (hbyte _) (hbyte _) (by simp [hidlen, hl])
  rw [prefix_hex_iff h, ← Function.comp_def, ← List.map_map, ← hvalues,
    prefix_iff_digits (b := 16) (k := k) (by decide) ?_ nibbles_lt ?_, digits_nibbles, ← hval,
    ← hloval, within, decide_eq_true_iff, ← not_lt, hless lo hlolen, not_lt]
  · refine and_congr_right fun _ => ?_
    change (∀ hi ∈ if r.2 = 0 then some (r.1 ++ lo.drop cut) else none, _) ↔ _
    split
    next hc =>
      rw [hc, Nat.zero_mul, Nat.add_zero, ← hless _ (by simp; omega)]
      simp
    next hc =>
      have : 1 * 256 ^ 32 ≤ r.2 * 256 ^ 32 := Nat.mul_le_mul_right _ (Nat.pos_of_ne_zero hc)
      refine ⟨fun _ => by omega, fun _ => nofun⟩
  · intro d hd
    obtain ⟨v, hv, rfl⟩ := List.mem_map.1 hd
    exact hsmall v hv
  · rw [length_nibbles, hidlen, List.length_map, hmlen]
    omega

end IdPrefix

namespace IdTables

open IdPrefix

/-- The ids of a space whose hexadecimal form starts with the prefix. -/
def matching (t : IdTables) (space : IdSpace) (idPrefix : Bytes) : Finset (FixedBytes 32) :=
  (t.ids space).filter fun id => idPrefix <+: hex id

theorem source_eq {range : Bytes × Option Bytes} {idPrefix : Bytes}
    (h : ∀ id, within range id = true ↔ idPrefix <+: hex id) (t : IdTables) (space : IdSpace) :
    (t.source range space).Nodup ∧ (t.source range space).toFinset = t.matching space idPrefix := by
  cases space with
  | exec =>
    refine ⟨t.unique.1.filter _, ?_⟩
    ext id
    simp [source, matching, ids, h]
  | receipt =>
    refine ⟨t.unique.2.filter _, ?_⟩
    ext id
    simp [source, matching, ids, h]
  | session =>
    refine ⟨List.nodup_dedup _, ?_⟩
    ext id
    simp [source, matching, ids, h]
    tauto

/-- Every prefix of at most 64 digits is resolved to exactly the ids that start with it. -/
theorem resolveIds_exact (t : IdTables) (space : IdSpace) (idPrefix : Bytes)
    (hlen : idPrefix.length ≤ 64) (h : ∀ c ∈ idPrefix, IsHexDigit c) (limit : ℕ) :
    t.resolveIds space idPrefix limit = some (
      if 2 ^ 63 ≤ limit then .error "id limit is too large"
      else .ok ⟨((t.matching space idPrefix).sort (· ≤ ·)).take limit,
        (t.matching space idPrefix).card⟩) := by
  obtain ⟨range, hrange, hwithin⟩ := exists_bounds hlen h
  obtain ⟨hnodup, heq⟩ := source_eq hwithin t space
  have hperm := (t.source range space).perm_insertionSort (· ≤ ·)
  have hsort : (t.matching space idPrefix).sort (· ≤ ·) =
      (t.source range space).insertionSort (· ≤ ·) := by
    rw [← heq, ← List.toFinset_eq_of_perm _ _ hperm]
    exact (List.toFinset_sort _ (hperm.nodup_iff.2 hnodup)).2 (List.pairwise_insertionSort _ _)
  rw [resolveIds, hrange, Option.bind_eq_bind, Option.bind_some, hsort, ← heq,
    List.toFinset_card_of_nodup hnodup]
  split <;> rfl

theorem resolveIds_exact_all_f :
    IdTables.resolveIds ⟨[.replicate 32 255, .replicate 32 254], [], [], [], by decide +kernel⟩
      .exec [102, 102, 102] 8 = some (.ok ⟨[.replicate 32 255], 1⟩) :=
  (resolveIds_exact _ .exec [102, 102, 102] (by decide) (by decide +kernel) 8).trans (by decide +kernel)

end IdTables

end Arena0
