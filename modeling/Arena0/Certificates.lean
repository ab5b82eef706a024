import Arena0.Catchup
import Arena0.ReceiptIdentity

/-!
# Complete step certificates

The bitmap of a full agreement is determined by the number of participants, the
signatures of all participants make one certificate whatever order they arrive
in, and nothing less certifies a step.
-/

namespace Arena0

open Borsh Fallible ExecutionState

variable {κ : Primitives}

/-! ## Bitmaps -/

namespace SignerSet

variable {s t : SignerSet} {n i j : ℕ}

/-- The bitmap of the first `n` participants: of exact length, with their bits and no others. -/
structure Covers (s : SignerSet) (n : ℕ) : Prop where
  length : s.bytes.length = byteLength n
  bits : ∀ i, s.contains i = decide (i < n)

theorem contains_eq_testBit (hj : j < s.bytes.length) {k : ℕ} (hk : k < 8) :
    s.contains (8 * j + k) = (s.bytes[j]).toNat.testBit k := by
  have hdiv : (8 * j + k) / 8 = j := by omega
  have hmod : (8 * j + k) % 8 = k := by omega
  simp only [contains, hdiv, hmod, List.getElem?_eq_getElem hj]

theorem contains_of_le (h : s.bytes.length ≤ i / 8) : s.contains i = false := by
  simp only [contains, List.getElem?_eq_none h]

theorem ext_contains (hlength : s.bytes.length = t.bytes.length)
    (h : ∀ i, s.contains i = t.contains i) : s = t := by
  have hbytes : s.bytes = t.bytes := by
    refine List.ext_getElem hlength fun j hj hj' => ?_
    refine UInt8.toNat_inj.1 (Nat.eq_of_testBit_eq fun k => ?_)
    by_cases hk : k < 8
    · rw [← contains_eq_testBit hj hk, ← contains_eq_testBit hj' hk, h]
    · have hlt : ∀ b : UInt8, b.toNat < 2 ^ k := fun b =>
        lt_of_lt_of_le b.toNat_lt (Nat.pow_le_pow_right (by omega) (by omega))
      rw [Nat.testBit_lt_two_pow (hlt _), Nat.testBit_lt_two_pow (hlt _)]
  cases s
  cases t
  exact congrArg SignerSet.mk hbytes

theorem Covers.unique (hs : s.Covers n) (ht : t.Covers n) : s = t :=
  ext_contains (hs.length.trans ht.length.symm) fun i => (hs.bits i).trans (ht.bits i).symm

theorem covers_of_full (hvalid : s.validate n = .ok ()) (hfull : s.isFull n = true) :
    s.Covers n := by
  have hlength := (validate_eq_ok hvalid).1
  refine ⟨hlength, fun i => ?_⟩
  rw [byteLength] at hlength
  by_cases hi : i / 8 < s.bytes.length
  · have hsplit : 8 * (i / 8) + i % 8 = i := by omega
    have hk : i % 8 < 8 := by omega
    rw [← hsplit, contains_eq_testBit hi hk, testBit_of_full hvalid hfull hi]
    simp [hk]
  · rw [contains_of_le (by omega)]
    simp
    omega

theorem contains_set (hi : i / 8 < s.bytes.length) (j : ℕ) :
    (s.set i).contains j = (s.contains j || decide (i = j)) := by
  have hgrow : i / 8 + 1 - s.bytes.length = 0 := by omega
  simp only [contains, set, hgrow, List.replicate_zero, List.append_nil, List.getElem?_modify]
  cases hbyte : s.bytes[j / 8]? with
  | none =>
    have hj : s.bytes.length ≤ j / 8 := List.getElem?_eq_none_iff.1 hbyte
    have hne : i ≠ j := by
      rintro rfl
      omega
    simp [hne]
  | some byte =>
    by_cases hdiv : i / 8 = j / 8
    · have hpow : (UInt8.ofNat (2 ^ (i % 8))).toNat = 2 ^ (i % 8) := by
        rw [UInt8.toNat_ofNat']
        apply Nat.mod_eq_of_lt
        exact Nat.pow_lt_pow_right (by decide) (by omega)
      have hiff : i % 8 = j % 8 ↔ i = j := by omega
      simp [hdiv, UInt8.toNat_or, hpow, Nat.testBit_two_pow, hiff]
    · have hne : i ≠ j := by
        rintro rfl
        exact hdiv rfl
      simp [hdiv, hne]

theorem length_set (hi : i / 8 < s.bytes.length) : (s.set i).bytes.length = s.bytes.length := by
  have hgrow : i / 8 + 1 - s.bytes.length = 0 := by omega
  simp only [set, hgrow, List.replicate_zero, List.append_nil, List.length_modify]

theorem covers_foldl_set (n : ℕ) : ((List.range n).foldl set (withCapacity n)).Covers n := by
  have hinv : ∀ m ≤ n, ((List.range m).foldl set (withCapacity n)).bytes.length = byteLength n ∧
      ∀ i, ((List.range m).foldl set (withCapacity n)).contains i = decide (i < m) := by
    intro m hm
    induction m with
    | zero =>
      refine ⟨List.length_replicate, fun i => ?_⟩
      simp only [List.range_zero, List.foldl_nil, withCapacity, contains,
        List.getElem?_replicate]
      split
      next byte hbyte =>
        split at hbyte
        · obtain rfl := Option.some.inj hbyte
          simp
        · cases hbyte
      next => simp
    | succ m ih =>
      obtain ⟨hlength, hbits⟩ := ih (by omega)
      have hm8 : m / 8 < ((List.range m).foldl set (withCapacity n)).bytes.length := by
        rw [hlength, byteLength]
        omega
      rw [List.range_succ, List.foldl_append, List.foldl_cons, List.foldl_nil]
      refine ⟨(length_set hm8).trans hlength, fun i => ?_⟩
      rw [contains_set hm8, hbits, ← Bool.decide_or]
      exact decide_eq_decide.2 (by omega)
  obtain ⟨hlength, hbits⟩ := hinv n le_rfl
  exact ⟨hlength, hbits⟩

theorem count_eq (s : SignerSet) :
    s.count = (List.range (8 * s.bytes.length)).countP s.contains := by
  obtain ⟨bytes⟩ := s
  induction bytes using List.reverseRecOn with
  | nil => rfl
  | append_singleton bytes byte ih =>
    have hlow : ∀ i ∈ List.range (8 * bytes.length),
        contains ⟨bytes ++ [byte]⟩ i = contains ⟨bytes⟩ i := by
      intro i hi
      have hi := List.mem_range.1 hi
      simp only [contains]
      rw [List.getElem?_append_left (by omega)]
    have hhigh : ∀ k ∈ List.range 8,
        contains ⟨bytes ++ [byte]⟩ (8 * bytes.length + k) = byte.toNat.testBit k := by
      intro k hk
      have hlast : bytes.length < (bytes ++ [byte]).length := by simp
      rw [contains_eq_testBit hlast (List.mem_range.1 hk)]
      simp
    have hsum : count ⟨bytes ++ [byte]⟩ = count ⟨bytes⟩ + countOnes byte := by
      simp [count]
    rw [hsum, ih, List.length_append, List.length_singleton, Nat.mul_add, List.range_add,
      List.countP_append, List.countP_map]
    congr 1
    · exact List.countP_congr fun i hi => by rw [hlow i hi]
    · exact List.countP_congr fun k hk => by rw [Function.comp, hhigh k hk]

theorem Covers.isFull (h : s.Covers n) : s.isFull n = true := by
  refine List.all_eq_true.2 fun i hi => ?_
  rw [h.bits, decide_eq_true_iff]
  exact List.mem_range.1 hi

theorem Covers.count (h : s.Covers n) : s.count = n := by
  have hle : n ≤ 8 * s.bytes.length := by
    rw [h.length, byteLength]
    omega
  obtain ⟨m, hm⟩ := Nat.exists_eq_add_of_le hle
  rw [count_eq, hm, List.range_add, List.countP_append, List.countP_map]
  have hlow : (List.range n).countP s.contains = n := by
    rw [List.countP_eq_length.2, List.length_range]
    intro i hi
    rw [h.bits, decide_eq_true_iff]
    exact List.mem_range.1 hi
  have hhigh : (List.range m).countP (s.contains ∘ (n + ·)) = 0 := by
    refine List.countP_eq_zero.2 fun i _ => ?_
    simp [h.bits]
  rw [hlow, hhigh, Nat.add_zero]

theorem Covers.validate (h : s.Covers n) (hn : n ≤ maxParticipants) : s.validate n = .ok () := by
  have hlast : n % 8 = 0 ∨ (s.bytes.getD (byteLength n - 1) 0).toNat < 2 ^ (n % 8) := by
    by_cases hmod : n % 8 = 0
    · exact .inl hmod
    · right
      -- the bits from `n % 8` on stand for indices past the participants
      have hj : byteLength n - 1 < s.bytes.length := by
        rw [h.length, byteLength]
        omega
      rw [List.getD_eq_getElem?_getD, List.getElem?_eq_getElem hj, Option.getD_some]
      apply Nat.lt_pow_two_of_testBit
      intro k hk
      by_cases hk8 : k < 8
      · rw [← contains_eq_testBit hj hk8, h.bits, decide_eq_false_iff_not, byteLength]
        omega
      · exact Nat.testBit_lt_two_pow (lt_of_lt_of_le (s.bytes[byteLength n - 1]).toNat_lt
          (Nat.pow_le_pow_right (by omega) (by omega)))
  simp only [SignerSet.validate, bind_eq_ok, ensure_eq_ok]
  exact ⟨(), hn, (), h.length.le, (), h.length.ge, hlast⟩

theorem covers_full (h : full n = .ok s) : s.Covers n := by
  simp only [full, bind_eq_ok, ensure_eq_ok, pure_eq_ok] at h
  obtain ⟨_, -, rfl⟩ := h
  have hwhole : (List.replicate (n / 8) (255 : UInt8)).length = n / 8 := List.length_replicate
  have hbyte : ∀ k < 8, (255 : UInt8).toNat.testBit k = true := by decide
  by_cases hmod : n % 8 = 0
  · rw [if_pos hmod]
    refine ⟨?_, fun i => ?_⟩
    · rw [hwhole, byteLength]
      omega
    · simp only [contains, List.getElem?_replicate]
      by_cases hi : i / 8 < n / 8
      · simp only [if_pos hi, hbyte (i % 8) (by omega)]
        exact (decide_eq_true (by omega)).symm
      · simp only [if_neg hi]
        exact (decide_eq_false (by omega)).symm
  · rw [if_neg hmod]
    refine ⟨?_, fun i => ?_⟩
    · rw [List.length_append, hwhole, List.length_singleton, byteLength]
      omega
    · have hlast : (UInt8.ofNat (2 ^ (n % 8) - 1)).toNat = 2 ^ (n % 8) - 1 := by
        have : 2 ^ (n % 8) < 2 ^ 8 := Nat.pow_lt_pow_right (by decide) (by omega)
        rw [UInt8.toNat_ofNat']
        omega
      simp only [contains, List.getElem?_append, hwhole, List.getElem?_replicate]
      by_cases hi : i / 8 < n / 8
      · simp only [if_pos hi, hbyte (i % 8) (by omega)]
        exact (decide_eq_true (by omega)).symm
      · by_cases heq : i / 8 = n / 8
        · simp only [heq, Nat.lt_irrefl, ↓reduceIte, Nat.sub_self, List.getElem?_cons_zero, hlast,
            Nat.testBit_two_pow_sub_one]
          exact decide_eq_decide.2 (by omega)
        · have hsub : 1 ≤ i / 8 - n / 8 := by omega
          simp only [if_neg hi, List.getElem?_eq_none (l := [UInt8.ofNat (2 ^ (n % 8) - 1)]) hsub]
          exact (decide_eq_false (by omega)).symm

end SignerSet

/-! ## Full agreements -/

/-- What a full agreement establishes: the one bitmap of all participants, and an
aggregate that verifies under all their keys. -/
theorem verifyFullAgreement_eq_ok_iff {a : AggregateAttestation} {c : StepCommitment}
    {keys : List BlsPublicKey} :
    verifyFullAgreement κ a c keys = .ok () ↔
      SignerSet.full keys.length = .ok a.signers ∧ keys ≠ [] ∧
        fastAggregateVerify κ a.aggregate c.signingBytes keys = .ok true := by
  have hselected : a.signers.Covers keys.length → a.selectedParticipants keys = keys := by
    intro hcovers
    have hall : keys.zipIdx.filter (fun p => a.signers.contains p.2) = keys.zipIdx := by
      refine List.filter_eq_self.2 fun p hp => ?_
      have hlt := List.snd_lt_of_mem_zipIdx hp
      rw [hcovers.bits, decide_eq_true_iff]
      omega
    rw [AggregateAttestation.selectedParticipants, hall, List.zipIdx_map_fst]
  simp only [verifyFullAgreement, AggregateAttestation.verifySignatures, bind_eq_ok,
    mapError_eq_ok, ensure_eq_ok]
  constructor
  · rintro ⟨_, ⟨-, hfull⟩, _, hvalid, _, hne, _, hverify, rfl⟩
    have hcovers := SignerSet.covers_of_full hvalid hfull
    rw [hselected hcovers] at hne hverify
    have hn : keys.length ≤ maxParticipants := by
      simp only [SignerSet.validate, bind_eq_ok, ensure_eq_ok] at hvalid
      exact hvalid.choose_spec.1
    obtain ⟨full, hok⟩ : ∃ full, SignerSet.full keys.length = .ok full := by
      simp [SignerSet.full, hn]
    refine ⟨?_, hne, hverify⟩
    rw [hok, (SignerSet.covers_full hok).unique hcovers]
  · rintro ⟨hok, hne, hverify⟩
    have hcovers := SignerSet.covers_full hok
    have hn : keys.length ≤ maxParticipants := by
      simp only [SignerSet.full, bind_eq_ok, ensure_eq_ok] at hok
      exact hok.choose_spec.1
    rw [hselected hcovers]
    exact ⟨(), ⟨hcovers.count, hcovers.isFull⟩, (), hcovers.validate hn, (), hne, true, hverify,
      rfl⟩

/-! ## Signatures in any order -/

def ExecutionBinding.Signs (b : ExecutionBinding κ) (c : StepCommitment)
    (x : ParticipantStepSignature) : Prop :=
  ∃ key, b.participantKey x.participant = .ok key ∧ verifyStepSignature κ key c x = .ok ()

def SharedProposal.addSignatures (proposal : SharedProposal κ) (b : ExecutionBinding κ)
    (c : StepCommitment) (signatures : List ParticipantStepSignature) :
    Except ProtocolError (SharedProposal κ) :=
  signatures.foldlM (fun proposal x => proposal.addSignature b c x) proposal

variable {b : ExecutionBinding κ} {c : StepCommitment} {proposal : SharedProposal κ}

theorem SharedProposal.exists_addSignature {x : ParticipantStepSignature}
    (h : SignedBy b c proposal.signatures) (hx : b.Signs c x)
    (hnew : ∀ y ∈ proposal.signatures, y.participant ≠ x.participant) :
    ∃ signed, proposal.addSignature b c x = .ok signed ∧
      signed.signatures.Perm (proposal.signatures ++ [x]) ∧ SignedBy b c signed.signatures ∧
      signed = { proposal with signatures := signed.signatures } := by
  have hfind : proposal.signatures.find? (·.participant = x.participant) = none := by
    simpa using hnew
  have hsigned := h.insert hnew hx
  have hperm := List.perm_insertionSort
    (fun x y : ParticipantStepSignature => x.participant ≤ y.participant)
    (proposal.signatures ++ [x])
  have hroom : proposal.signatures.length < maxProofSignatures := by
    have hle := hsigned.length_le
    have hmax := b.length_le
    rw [hperm.length_eq, List.length_append, List.length_singleton] at hle
    change proposal.signatures.length < maxParticipants
    omega
  obtain ⟨key, hkey, hverify⟩ := hx
  refine ⟨{ proposal with
    signatures := (proposal.signatures ++ [x]).insertionSort
      fun x y => x.participant ≤ y.participant }, ?_, hperm, hsigned, rfl⟩
  rw [addSignature, hfind]
  simp [hkey, hverify, hroom, ensure]

theorem SignedBy.unique {xs ys : List ParticipantStepSignature} (hx : SignedBy b c xs)
    (hy : SignedBy b c ys) (h : xs.Perm ys) : xs = ys := by
  have hsorted : ∀ {zs}, SignedBy b c zs →
      zs.Pairwise fun x y => x.participant < y.participant := fun hz =>
    List.pairwise_map.1 hz.ordered
  refine h.eq_of_pairwise ?_ (hsorted hx) (hsorted hy)
  intro x y _ _ hxy hyx
  exact absurd (hxy.trans hyx) (lt_irrefl _)

theorem SharedProposal.exists_addSignatures {xs : List ParticipantStepSignature}
    (h : SignedBy b c proposal.signatures) (hxs : ∀ x ∈ xs, b.Signs c x)
    (hnodup : ((proposal.signatures ++ xs).map (·.participant)).Nodup) :
    ∃ signed, proposal.addSignatures b c xs = .ok signed ∧
      signed.signatures.Perm (proposal.signatures ++ xs) ∧ SignedBy b c signed.signatures ∧
      signed = { proposal with signatures := signed.signatures } := by
  induction xs generalizing proposal with
  | nil => exact ⟨proposal, rfl, by simp, h, rfl⟩
  | cons x xs ih =>
    have hnew : ∀ y ∈ proposal.signatures, y.participant ≠ x.participant := by
      rw [List.map_append, List.nodup_append] at hnodup
      intro y hy
      exact hnodup.2.2 _ (List.mem_map_of_mem hy) _ (by simp)
    obtain ⟨next, hadd, hperm, hnext, heq⟩ :=
      exists_addSignature h (hxs x List.mem_cons_self) hnew
    have happend : (next.signatures ++ xs).Perm (proposal.signatures ++ x :: xs) := by
      have := hperm.append_right xs
      rwa [List.append_assoc] at this
    obtain ⟨signed, hrun, hperm', hsigned, heq'⟩ :=
      ih hnext (fun y hy => hxs y (List.mem_cons_of_mem _ hy))
        ((happend.map _).nodup_iff.2 hnodup)
    refine ⟨signed, ?_, hperm'.trans happend, hsigned, ?_⟩
    · rw [addSignatures, List.foldlM_cons, hadd]
      exact hrun
    · rw [heq', heq]

/-! ## Certificates from signatures -/

/-- Aggregates of valid signatures over one message verify under their keys. -/
def AggregatesVerify (κ : Primitives) : Prop :=
  ∀ message (signed : List (BlsPublicKey × BlsSignature)), signed ≠ [] →
    (∀ p ∈ signed, κ.blsVerify p.1 message p.2 = .ok true) →
    ∃ aggregate, κ.blsAggregate (signed.map (·.2)) = .ok aggregate ∧
      κ.blsFastAggregateVerify aggregate message (signed.map (·.1)) = .ok true

theorem exists_collectSignatures (participants : ℕ) {keys : List (PeerId × BlsPublicKey)}
    (h : ∀ p ∈ keys, ∃ x, proposal.signatures.find? (·.participant = p.1) = some x ∧
      verifyStepSignature κ p.2 c x = .ok ()) :
    ∃ signed : List (BlsPublicKey × BlsSignature),
      collectSignatures proposal c participants keys = .ok (signed.map (·.2)) ∧
      signed.map (·.1) = keys.map (·.2) ∧
      ∀ p ∈ signed, κ.blsVerify p.1 c.signingBytes p.2 = .ok true := by
  induction keys with
  | nil => exact ⟨[], rfl, rfl, by simp⟩
  | cons p keys ih =>
    obtain ⟨signed, hrest, hkeys, hverified⟩ := ih fun q hq => h q (List.mem_cons_of_mem _ hq)
    obtain ⟨x, hfind, hx⟩ := h p List.mem_cons_self
    have hbls : κ.blsVerify p.2 c.signingBytes x.signature.sig = .ok true := by
      simp only [verifyStepSignature, bind_eq_ok, ensure_eq_ok, mapError_eq_ok] at hx
      obtain ⟨_, -, _, hbls, rfl⟩ := hx
      exact hbls
    refine ⟨(p.2, x.signature.sig) :: signed, ?_, by simp [hkeys], ?_⟩
    · obtain ⟨peer, key⟩ := p
      simp [collectSignatures, hfind, hx, hrest, okOr]
    · intro q hq
      rcases List.mem_cons.1 hq with rfl | hq
      · exact hbls
      · exact hverified q hq

theorem mem_of_collectSignatures {participants : ℕ} {keys : List (PeerId × BlsPublicKey)}
    {signatures : List BlsSignature}
    (h : collectSignatures proposal c participants keys = .ok signatures) :
    ∀ p ∈ keys, ∃ x ∈ proposal.signatures, x.participant = p.1 := by
  induction keys generalizing signatures with
  | nil => simp
  | cons p keys ih =>
    obtain ⟨peer, key⟩ := p
    simp only [collectSignatures, bind_eq_ok, okOr_eq_ok] at h
    obtain ⟨x, hfind, _, -, rest, hrest, -⟩ := h
    intro q hq
    rcases List.mem_cons.1 hq with rfl | hq
    · exact ⟨x, List.mem_of_find?_eq_some hfind, by simpa using List.find?_some hfind⟩
    · exact ih hrest q hq

theorem StepCertificate.mem_of_fromSignatures {certificate : StepCertificate}
    (h : fromSignatures b c proposal = .ok certificate) {peer : PeerId}
    (hpeer : peer ∈ b.participants) : ∃ x ∈ proposal.signatures, x.participant = peer := by
  simp only [fromSignatures, bind_eq_ok, ExecutionBinding.participantKeys_eq_ok] at h
  obtain ⟨_, hkeys, _, _, _, hcollect, -⟩ := h
  obtain rfl := Except.ok.inj hkeys
  obtain ⟨p, hp, rfl⟩ := List.mem_map.1 (b.sortedKeys_perm.mem_iff.2 hpeer)
  exact mem_of_collectSignatures hcollect p hp

theorem StepCertificate.exists_fromSignatures (hbls : AggregatesVerify κ)
    (h : SignedBy b c proposal.signatures)
    (hlength : proposal.signatures.length = b.activation.tickets.length) :
    ∃ certificate, fromSignatures b c proposal = .ok certificate := by
  have hfound : ∀ p ∈ b.sortedKeys,
      ∃ x, proposal.signatures.find? (·.participant = p.1) = some x ∧
        verifyStepSignature κ p.2 c x = .ok () := by
    intro p hp
    have hpeer : p.1 ∈ b.participants :=
      b.sortedKeys_perm.mem_iff.1 (List.mem_map_of_mem hp)
    obtain ⟨y, hy, hyp⟩ := h.complete hlength ((b.isParticipant_iff p.1).2 hpeer)
    obtain ⟨x, hfind⟩ : ∃ x, proposal.signatures.find? (·.participant = p.1) = some x := by
      apply Option.isSome_iff_exists.1
      rw [List.find?_isSome]
      exact ⟨y, hy, by simpa using hyp⟩
    have hxp : x.participant = p.1 := by simpa using List.find?_some hfind
    obtain ⟨key, hkey, hverify⟩ := h.verified x (List.mem_of_find?_eq_some hfind)
    rw [hxp, b.participantKey_eq_ok.2 hp] at hkey
    obtain rfl := Except.ok.inj hkey
    exact ⟨x, hfind, hverify⟩
  obtain ⟨signed, hcollect, hkeys, hverified⟩ :=
    exists_collectSignatures b.sortedKeys.length hfound
  have hlen : signed.length = b.activation.tickets.length := by
    have := congrArg List.length hkeys
    simpa using this
  have hne : signed ≠ [] := by
    apply List.ne_nil_of_length_pos
    have := b.two_le_length
    omega
  obtain ⟨aggregate, haggregate, hfast⟩ := hbls c.signingBytes signed hne hverified
  have hkeysne : b.sortedKeys.map (·.2) ≠ [] := by
    rw [← hkeys]
    simpa using hne
  obtain ⟨signers, hfull⟩ : ∃ signers, SignerSet.full b.sortedKeys.length = .ok signers := by
    simp [SignerSet.full, b.length_le]
  have hsigners : (List.range b.sortedKeys.length).foldl SignerSet.set
      (.withCapacity b.sortedKeys.length) = signers :=
    (SignerSet.covers_foldl_set _).unique (SignerSet.covers_full hfull)
  have hagreement : verifyFullAgreement κ ⟨aggregate, signers⟩ c (b.sortedKeys.map (·.2)) =
      .ok () := by
    refine verifyFullAgreement_eq_ok_iff.2 ⟨?_, hkeysne, ?_⟩
    · rw [List.length_map]
      exact hfull
    · rw [fastAggregateVerify, if_neg hkeysne, ← hkeys]
      exact hfast
  have hfrom : AggregateAttestation.fromSignatures κ signers (signed.map (·.2)) =
      .ok ⟨aggregate, signers⟩ := by
    rw [AggregateAttestation.fromSignatures, if_neg (by simpa using hne), haggregate]
    rfl
  refine ⟨⟨c, ⟨aggregate, signers⟩⟩, ?_⟩
  simp only [fromSignatures, bind_eq_ok, ExecutionBinding.participantKeys_eq_ok, ensure_eq_ok,
    mapError_eq_ok, pure_eq_ok]
  refine ⟨_, rfl, (), by rw [b.length_sortedKeys, hlength], _, hcollect, _, ?_, (), hagreement, rfl⟩
  rw [hsigners]
  exact hfrom

theorem StepCertificate.verify_of_fromSignatures {certificate : StepCertificate}
    (hbound : c.isBoundTo b.sessionId = true)
    (h : fromSignatures b c proposal = .ok certificate) : certificate.verify b = .ok () := by
  obtain ⟨hc, hagreement⟩ := fromSignatures_eq_ok h
  rw [← hc] at hbound hagreement
  simp only [verify, bind_eq_ok, ensure_eq_ok, ExecutionBinding.participantBlsKeys_eq_ok]
  exact ⟨(), hbound, _, rfl, hagreement⟩

/-- Signatures of fewer distinct participants than there are make no certificate. -/
theorem StepCertificate.fromSignatures_ne_ok
    (h : (proposal.signatures.map (·.participant)).toFinset.card < b.activation.tickets.length)
    (certificate : StepCertificate) : fromSignatures b c proposal ≠ .ok certificate := by
  intro hok
  have hsub : b.participants.toFinset ⊆ (proposal.signatures.map (·.participant)).toFinset := by
    intro peer hpeer
    obtain ⟨x, hx, rfl⟩ := mem_of_fromSignatures hok (List.mem_toFinset.1 hpeer)
    exact List.mem_toFinset.2 (List.mem_map_of_mem hx)
  have hcard := Finset.card_le_card hsub
  rw [List.toFinset_card_of_nodup b.participants_nodup, b.length_participants] at hcard
  omega

/-! ## The last signature certifies -/

theorem ExecutionState.isBoundTo_commitmentFor (s : ExecutionState κ)
    (proposal : SharedProposal κ) :
    (s.commitmentFor proposal).isBoundTo s.binding.sessionId = true := by
  simp [commitmentFor, StepCommitment.isBoundTo, StepCommitment.hasStepDomain,
    StepCommitment.forEntry]

/-- A valid signature that is new to the staged proposal is stored, and it certifies the
step exactly when it is the last one. -/
theorem ExecutionState.Recoverable.exists_addStepSignature {s : ExecutionState κ}
    (hbls : AggregatesVerify κ) (hs : s.Recoverable) (hversion : s.version.toNat < 2 ^ 63)
    {x : ParticipantStepSignature} (hproposal : s.proposal = some proposal)
    (hx : s.binding.Signs (s.commitmentFor proposal) x)
    (hnew : ∀ y ∈ proposal.signatures, y.participant ≠ x.participant) :
    ∃ t certified, s.addStepSignature x = .ok (t, certified) ∧
      (certified.isSome = true ↔
        proposal.signatures.length + 1 = s.binding.activation.tickets.length) := by
  have hrec := hs.proposal proposal hproposal
  obtain ⟨bytes, hbudget⟩ := hrec.budget
  have hsigned : SignedBy s.binding (s.commitmentFor proposal) proposal.signatures :=
    (validateProposal_eq_ok.1 hrec.valid).2
  obtain ⟨signed, hadd, hperm, hsigned', -⟩ :=
    SharedProposal.exists_addSignature hsigned hx hnew
  have hlength : signed.signatures.length = proposal.signatures.length + 1 := by
    rw [hperm.length_eq, List.length_append, List.length_singleton]
  rw [← hlength]
  by_cases hlast : signed.signatures.length = s.binding.activation.tickets.length
  · -- the certificate of the complete proposal is installed at once
    have hnext := hs.setProposal hproposal (hrec.addSignature hadd)
    obtain ⟨certificate, hcert⟩ := StepCertificate.exists_fromSignatures hbls hsigned' hlast
    have hverify := StepCertificate.verify_of_fromSignatures
      (s.isBoundTo_commitmentFor proposal) hcert
    have hstaged : { s with proposal := some signed }.proposalCommitment =
        some certificate.commitment := by
      rw [(StepCertificate.fromSignatures_eq_ok hcert).1]
      exact congrArg some (commitmentFor_addSignature hadd)
    obtain ⟨t, done, hcertify⟩ := hnext.exists_certifyStep hversion hstaged hverify
    refine ⟨t, some done, ?_, by simp [hlast]⟩
    simp only [ExecutionState.certifyStep, bind_eq_ok, pure_eq_ok, Prod.exists,
      Prod.mk.injEq] at hcertify
    obtain ⟨next, committed, hinstall, v, hbump, rfl, rfl⟩ := hcertify
    simp [ExecutionState.addStepSignature, hproposal, hbudget, hadd, hlast, hcert, hinstall, hbump,
      okOr]
  · have hbump : checkedAdd s.version 1 = some (s.version + 1) := checkedAdd_one (by omega)
    refine ⟨{ s with proposal := some signed, version := s.version + 1 }, none, ?_,
      by simp [hlast]⟩
    simp [ExecutionState.addStepSignature, hproposal, hbudget, hadd, hlast, bumpVersion,
      nextVersion, hbump, okOr]

/-! ## Completeness -/

/-- Step certificates are complete and independent of the order of the signatures: all
signatures give one stored proposal and one certificate, which verifies; the last
one certifies; a full agreement has the one full bitmap and an aggregate under all
keys; and fewer participants certify nothing. -/
theorem step_certificates_complete (hbls : AggregatesVerify κ) (b : ExecutionBinding κ)
    (c : StepCommitment) (hbound : c.isBoundTo b.sessionId = true) :
    (∀ (proposal : SharedProposal κ) (xs : List ParticipantStepSignature),
      SignedBy b c proposal.signatures → (∀ x ∈ xs, b.Signs c x) →
      ((proposal.signatures ++ xs).map (·.participant)).Perm b.participants →
      ∃ signed certificate,
        (∀ ys : List ParticipantStepSignature, ys.Perm xs →
          proposal.addSignatures b c ys = .ok signed) ∧
        StepCertificate.fromSignatures b c signed = .ok certificate ∧
        certificate.verify b = .ok ()) ∧
    (∀ (s : ExecutionState κ) (proposal : SharedProposal κ) (x : ParticipantStepSignature),
      s.Recoverable → s.version.toNat < 2 ^ 63 → s.proposal = some proposal →
      s.binding.Signs (s.commitmentFor proposal) x →
      (∀ y ∈ proposal.signatures, y.participant ≠ x.participant) →
      ∃ t certified, s.addStepSignature x = .ok (t, certified) ∧
        (certified.isSome = true ↔
          proposal.signatures.length + 1 = s.binding.activation.tickets.length)) ∧
    (∀ (a : AggregateAttestation) (keys : List BlsPublicKey),
      verifyFullAgreement κ a c keys = .ok () →
      SignerSet.full keys.length = .ok a.signers ∧ a.signers.Covers keys.length ∧
        (∀ signers : SignerSet, signers.Covers keys.length → signers = a.signers) ∧
        fastAggregateVerify κ a.aggregate c.signingBytes keys = .ok true) ∧
    (∀ (proposal : SharedProposal κ) (certificate : StepCertificate),
      (proposal.signatures.map (·.participant)).toFinset.card < b.activation.tickets.length →
      StepCertificate.fromSignatures b c proposal ≠ .ok certificate) := by
  refine ⟨?_, ?_, ?_, ?_⟩
  · intro proposal xs hsigned hxs hall
    obtain ⟨signed, hrun, hperm, hsigned', heq⟩ := SharedProposal.exists_addSignatures hsigned hxs
      (hall.nodup_iff.2 b.participants_nodup)
    have hlength : signed.signatures.length = b.activation.tickets.length := by
      rw [hperm.length_eq, ← List.length_map (f := ParticipantStepSignature.participant),
        hall.length_eq, b.length_participants]
    obtain ⟨certificate, hcert⟩ := StepCertificate.exists_fromSignatures hbls hsigned' hlength
    refine ⟨signed, certificate, fun ys hys => ?_, hcert,
      StepCertificate.verify_of_fromSignatures hbound hcert⟩
    have hperm₂ : (proposal.signatures ++ ys).Perm (proposal.signatures ++ xs) :=
      hys.append_left _
    obtain ⟨signed₂, hrun₂, hperm₂', hsigned₂, heq₂⟩ := SharedProposal.exists_addSignatures hsigned
      (fun y hy => hxs y (hys.mem_iff.1 hy))
      ((hperm₂.map _).nodup_iff.2 (hall.nodup_iff.2 b.participants_nodup))
    have hsame : signed₂.signatures = signed.signatures :=
      hsigned₂.unique hsigned' (hperm₂'.trans (hperm₂.trans hperm.symm))
    rw [hrun₂, heq₂, hsame, ← heq]
  · intro s proposal x hs hversion hproposal hx hnew
    exact hs.exists_addStepSignature hbls hversion hproposal hx hnew
  · intro a keys h
    obtain ⟨hfull, -, hverify⟩ := verifyFullAgreement_eq_ok_iff.1 h
    have hcovers := SignerSet.covers_full hfull
    exact ⟨hfull, hcovers, fun signers hsigners => hsigners.unique hcovers, hverify⟩
  · intro proposal certificate h
    exact StepCertificate.fromSignatures_ne_ok h certificate

/-! ## An instance -/

theorem aggregatesVerify_reference : AggregatesVerify referencePrimitives := by
  intro message signed _ hsigned
  refine ⟨_, rfl, ?_⟩
  have hmap : signed.map (·.2) =
      (signed.map (·.1)).map fun key => referenceSign 48 key.bytes message := by
    rw [List.map_map]
    refine List.map_congr_left fun p hp => ?_
    exact of_decide_eq_true (Except.ok.inj (hsigned p hp))
  rw [hmap]
  exact congrArg Except.ok (decide_eq_true rfl)

namespace Sample

def messageProposal : SharedProposal referencePrimitives where
  entry := ⟨traceFormatVersion, 1, .message (peer 1) [3], offerData.initialState,
    offerData.initialState, none, .empty⟩
  sharedState := shared
  localState := localState
  outgoing := []
  effects := []
  eventPosition := 2
  status := .active
  callout := none
  signatures := []

def messageCommitment : StepCommitment :=
  .forEntry referencePrimitives binding.sessionId messageProposal.entry chainStart

/-- The signature of a participant over the commitment of the proposal. -/
def messageSignature (n : UInt8) : ParticipantStepSignature :=
  .new (peer n) 1 (referenceSign 48 (key n).bytes messageCommitment.signingBytes)

theorem signs_messageSignature :
    ∀ x ∈ [messageSignature 2, messageSignature 1], binding.Signs messageCommitment x := by
  intro x hx
  simp only [List.mem_cons, List.not_mem_nil, or_false] at hx
  obtain rfl | rfl := hx
  · exact ⟨key 2, by decide +kernel, by decide +kernel⟩
  · exact ⟨key 1, by decide +kernel, by decide +kernel⟩

end Sample

open Sample in
theorem step_certificates_complete_two :
    ∃ signed certificate,
      (∀ ys : List ParticipantStepSignature,
        ys.Perm [messageSignature 2, messageSignature 1] →
        messageProposal.addSignatures Sample.binding messageCommitment ys =
          .ok signed) ∧
      StepCertificate.fromSignatures Sample.binding messageCommitment signed =
        .ok certificate ∧
      certificate.verify Sample.binding = .ok () :=
  (step_certificates_complete aggregatesVerify_reference Sample.binding messageCommitment
    (by decide +kernel)).1 messageProposal _ .nil signs_messageSignature
    (by decide +kernel)

end Arena0
