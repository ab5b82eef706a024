import Arena0.BorshCanonical

/-!
# Canonical state memories

A state memory holds the little-endian length of its payload, the payload and zeros.
The `state_write` import trusts the stored length and clears what a shorter payload no
longer covers; the host rewrites the whole memory.
-/

namespace Arena0.StateMemory

open Borsh Borsh.Codec

/-- `MAX_SHARED_STATE_BYTES` and `MAX_LOCAL_STATE_BYTES`. -/
def maxStateBytes : ℕ := 4 * 1024 * 1024

def canonicalStateMemoryBytes : ℕ := 65 * 65536

inductive StateFrameError
  | missingPrefix
  | wrongSize (actual expected : ℕ)
  | tooLarge (actual max : ℕ)
  | exceedsMemory (actual capacity : ℕ)
  | nonZeroTail
  deriving DecidableEq

def stateFrameLen (frame : Bytes) (maxPayload : ℕ) : Except StateFrameError ℕ :=
  if frame.length < 4 then .error .missingPrefix
  else
    let len := leNat (frame.take 4)
    if maxPayload < len then .error (.tooLarge len maxPayload)
    else if frame.length - 4 < len then .error (.exceedsMemory len frame.length)
    else .ok len

def canonicalStatePayload (frame : Bytes) (maxPayload : ℕ) : Except StateFrameError Bytes :=
  if frame.length ≠ canonicalStateMemoryBytes then
    .error (.wrongSize frame.length canonicalStateMemoryBytes)
  else match stateFrameLen frame maxPayload with
  | .error error => .error error
  | .ok len =>
    if (frame.drop (4 + len)).any (· ≠ 0) then .error .nonZeroTail
    else .ok ((frame.drop 4).take len)

/-- `frame[start..start + bytes.len()].copy_from_slice(bytes)`. -/
def splice (frame : Bytes) (start : ℕ) (bytes : Bytes) : Bytes :=
  frame.take start ++ bytes ++ frame.drop (start + bytes.length)

def writeStateFrame (frame : Bytes) (oldLen : ℕ) (payload : Bytes) :
    Except StateFrameError Bytes :=
  if frame.length < 4 then .error .missingPrefix
  else if frame.length - 4 < max payload.length oldLen then
    .error (.exceedsMemory (max payload.length oldLen) frame.length)
  else if 2 ^ 32 ≤ payload.length then .error (.exceedsMemory payload.length frame.length)
  else
    let cleared := if payload.length < oldLen then
        splice frame (4 + payload.length) (List.replicate (oldLen - payload.length) 0)
      else frame
    .ok (splice (splice cleared 0 (leBytes 4 payload.length)) 4 payload)

def canonicalStateImage (payload : Bytes) : Option Bytes :=
  if canonicalStateMemoryBytes - 4 < payload.length then none
  else (writeStateFrame (List.replicate canonicalStateMemoryBytes 0) 0 payload).toOption

/-! ## Operations on one memory -/

inductive WriteError
  /-- Refused for the call itself: its entry, its range, its length or its budget. -/
  | refused (message : String)
  | frame (error : StateFrameError)

inductive Operation
  /-- The import: whether its entry is refused, the work memory and the range in it, the bytes the
  host has copied and their maximum. -/
  | stateWrite (entry : Option String) (work : Bytes) (src len hostBytes maxHostBytes : ℕ)
  /-- A restored payload, bounded by its type. -/
  | rewrite (payload : { b : Bytes // b.length ≤ maxStateBytes })

def Operation.payload : Operation → Bytes
  | .stateWrite _ work src len _ _ => (work.drop src).take len
  | .rewrite payload => payload

/-- The entry, the source range, the maximum, the memory and the budget allow the write; the budget
pays for the bytes written and for those of the `stored` ones that are cleared. -/
def Operation.Admitted (maxPayload stored : ℕ) : Operation → Prop
  | .stateWrite entry work src len hostBytes maxHostBytes =>
    entry = none ∧ src + len ≤ work.length ∧ len ≤ maxPayload ∧
      4 + len ≤ canonicalStateMemoryBytes ∧
      min (hostBytes + ((stored - len) + len)) (2 ^ 64 - 1) ≤ maxHostBytes
  | .rewrite payload => payload.1.length ≤ maxPayload

instance (maxPayload stored : ℕ) : (op : Operation) → Decidable (op.Admitted maxPayload stored)
  | .stateWrite .. => inferInstanceAs (Decidable (_ ∧ _))
  | .rewrite _ => inferInstanceAs (Decidable (_ ≤ _))

def stateWrite (maxPayload : ℕ) (memory : Bytes) (entry : Option String) (work : Bytes)
    (src len hostBytes maxHostBytes : ℕ) : Except WriteError Bytes :=
  if entry.isSome then .error (.refused (entry.getD ""))
  else if work.length < src + len then .error (.refused "state_write: source exceeds work memory")
  else if maxPayload < len then
    .error (.refused s!"state_write: payload length {len} exceeds maximum {maxPayload}")
  else match stateFrameLen memory maxPayload with
  | .error error => .error (.frame error)
  | .ok oldLen =>
    let copied := min (hostBytes + ((oldLen - len) + len)) (2 ^ 64 - 1)
    if memory.length < 4 + len then .error (.refused "state_write: payload exceeds state memory")
    else if maxHostBytes < copied then
      .error (.refused s!"host copied {copied} bytes; maximum is {maxHostBytes}")
    else (writeStateFrame memory oldLen ((work.drop src).take len)).mapError .frame

/-- The memory after the call and its error: it is filled with zeros before it is written. -/
def writeStatePayload (memory payload : Bytes) : Bytes × Option WriteError :=
  if memory.length ≠ canonicalStateMemoryBytes then (memory, some (.refused "memory limit exceeded"))
  else match writeStateFrame (List.replicate memory.length 0) 0 payload with
  | .ok memory => (memory, none)
  | .error error => (List.replicate memory.length 0, some (.frame error))

/-- The import writes only after its last check; payloads are validated before the host writes
them. -/
def Operation.apply (maxPayload : ℕ) (memory : Bytes) : Operation → Bytes × Option WriteError
  | .stateWrite entry work src len hostBytes maxHostBytes =>
    match StateMemory.stateWrite maxPayload memory entry work src len hostBytes maxHostBytes with
    | .ok memory => (memory, none)
    | .error error => (memory, some error)
  | .rewrite payload =>
    if maxPayload < payload.1.length then (memory, some (.refused "memory limit exceeded"))
    else writeStatePayload memory payload

def step (maxPayload : ℕ) (s : Bytes × Bytes) (op : Operation) : Bytes × Bytes :=
  ((op.apply maxPayload s.1).1, if (op.apply maxPayload s.1).2.isNone then op.payload else s.2)

/-! ## Images -/

def image (size : ℕ) (payload : Bytes) : Bytes :=
  leBytes 4 payload.length ++ payload ++ List.replicate (size - 4 - payload.length) 0

variable {size maxPayload : ℕ} {payload old : Bytes}

theorem splice_append (a b c : Bytes) {n : ℕ} (hn : n = a.length) {bytes : Bytes}
    (hb : bytes.length = b.length) : splice (a ++ b ++ c) n bytes = a ++ bytes ++ c := by
  subst hn
  rw [splice, hb, ← List.length_append, List.drop_left, List.append_assoc a b c, List.take_left]

theorem length_image (h : payload.length + 4 ≤ size) : (image size payload).length = size := by
  simp [image]
  omega

theorem writeStateFrame_image (hold : old.length + 4 ≤ size) (hnew : payload.length + 4 ≤ size)
    (hlt : payload.length < 2 ^ 32) :
    writeStateFrame (image size old) old.length payload = .ok (image size payload) := by
  rw [writeStateFrame, length_image hold, if_neg (by omega), if_neg (by omega), if_neg (by omega)]
  refine congrArg Except.ok ?_
  -- Once the rest is cleared, the frame is a prefix, as many bytes as are written, and zeros.
  obtain ⟨covered, hlen, hclear⟩ : ∃ covered : Bytes, covered.length = payload.length ∧
      (if payload.length < old.length then splice (image size old) (4 + payload.length)
        (List.replicate (old.length - payload.length) 0) else image size old) =
      leBytes 4 old.length ++ covered ++ List.replicate (size - 4 - payload.length) 0 := by
    split
    next hshort =>
      refine ⟨old.take payload.length, by simp; omega, ?_⟩
      rw [image, ← old.take_append_drop payload.length, ← List.append_assoc,
        List.append_assoc (_ ++ _), ← List.append_assoc, splice_append _ _ _ (by simp; omega)
          (by simp), List.append_assoc (_ ++ _), List.take_append_drop, List.replicate_append_replicate]
      congr 2
      omega
    next hlong =>
      refine ⟨old ++ List.replicate (payload.length - old.length) 0, by simp; omega, ?_⟩
      rw [image, List.append_assoc, List.append_assoc, List.append_assoc,
        List.replicate_append_replicate]
      congr 4
      omega
  rw [hclear]
  have hhead := splice_append [] (leBytes 4 old.length)
    (covered ++ List.replicate (size - 4 - payload.length) 0) (n := 0) rfl
    (show (leBytes 4 payload.length).length = _ by simp)
  rw [List.nil_append, List.nil_append, ← List.append_assoc, ← List.append_assoc] at hhead
  rw [hhead, splice_append _ covered _ (by simp) hlen.symm, image]

theorem image_nil (h : 4 ≤ size) : image size [] = List.replicate size 0 := by
  rw [image, List.append_nil]
  exact (List.replicate_append_replicate (n := 4)).trans (congrArg (List.replicate · 0)
    (by simp; omega))

theorem stateFrameLen_image (hold : old.length + 4 ≤ size) (hlt : old.length < 2 ^ 32)
    (hmax : old.length ≤ maxPayload) : stateFrameLen (image size old) maxPayload = .ok old.length := by
  have hlen : leNat ((image size old).take 4) = old.length := by
    rw [image, List.append_assoc, List.take_left' (length_leBytes 4 _), leNat_leBytes 4 _ hlt]
  rw [stateFrameLen, length_image hold, if_neg (by omega)]
  dsimp only
  rw [hlen, if_neg (by omega), if_neg (by omega)]

def Fits (payload : Bytes) : Prop := payload.length + 4 ≤ canonicalStateMemoryBytes

theorem Fits.lt (h : Fits payload) : payload.length < 2 ^ 32 := by
  have : canonicalStateMemoryBytes < 2 ^ 32 := by decide
  rw [Fits] at h
  omega

theorem writeStateFrame_zeros (h : Fits payload) :
    writeStateFrame (List.replicate canonicalStateMemoryBytes 0) 0 payload =
      .ok (image canonicalStateMemoryBytes payload) := by
  rw [← image_nil (by decide)]
  exact writeStateFrame_image (by decide) h h.lt

theorem canonicalStateImage_eq_some {memory : Bytes} : canonicalStateImage payload = some memory ↔
    Fits payload ∧ memory = image canonicalStateMemoryBytes payload := by
  have hpos : 4 ≤ canonicalStateMemoryBytes := by decide
  rw [canonicalStateImage]
  split
  next h => exact ⟨nofun, fun ⟨hf, _⟩ => by rw [Fits] at hf; omega⟩
  next h =>
    have hf : Fits payload := by rw [Fits]; omega
    rw [writeStateFrame_zeros hf]
    exact ⟨fun heq => ⟨hf, (Option.some.inj heq).symm⟩, fun ⟨_, heq⟩ => congrArg some heq.symm⟩

/-- An operation on an image writes the image of its payload if it is admitted, and changes nothing
otherwise. -/
theorem apply_image (op : Operation) (hold : Fits old) (hmax : old.length ≤ maxPayload) :
    (op.Admitted maxPayload old.length →
      op.apply maxPayload (image canonicalStateMemoryBytes old) =
          (image canonicalStateMemoryBytes op.payload, none) ∧ Fits op.payload ∧
        op.payload.length ≤ maxPayload) ∧
    (¬ op.Admitted maxPayload old.length →
      ∃ message, op.apply maxPayload (image canonicalStateMemoryBytes old) =
        (image canonicalStateMemoryBytes old, some (.refused message))) := by
  cases op with
  | rewrite payload =>
    rw [Operation.apply, Operation.Admitted]
    split
    next hlarge => exact ⟨fun hle => absurd hle (not_le.2 hlarge), fun _ => ⟨_, rfl⟩⟩
    next hle =>
      have hf : Fits payload.1 :=
        (Nat.add_le_add_right payload.2 4).trans (by decide : maxStateBytes + 4 ≤ _)
      rw [writeStatePayload, length_image hold, if_neg (by simp), writeStateFrame_zeros hf]
      exact ⟨fun hle => ⟨rfl, hf, hle⟩, fun hnot => absurd (not_lt.1 hle) hnot⟩
  | stateWrite entry work src len hostBytes maxHostBytes =>
    rw [Operation.apply, stateWrite, stateFrameLen_image hold hold.lt hmax, length_image hold]
    dsimp only [Operation.Admitted]
    have hentry : entry.isSome = true ↔ entry ≠ none := by cases entry <;> simp
    split_ifs with h₁ h₂ h₃ h₄ h₅
    -- each refusal is the failure of one of the conditions
    iterate 5
      refine ⟨fun hadmitted => ?_, fun _ => ⟨_, rfl⟩⟩
      first | exact absurd hadmitted.1 (hentry.1 h₁) | omega
    have hlen : ((work.drop src).take len).length = len := by simp; omega
    have hf : Fits ((work.drop src).take len) := by rw [Fits, hlen]; omega
    have hnone : entry = none := not_not.1 (mt hentry.2 h₁)
    refine ⟨fun _ => ⟨?_, hf, hlen.trans_le (not_lt.1 h₃)⟩, fun hnot => ?_⟩
    · rw [writeStateFrame_image hold hf hf.lt]
      rfl
    · exact absurd ⟨hnone, not_lt.1 h₂, not_lt.1 h₃, not_lt.1 h₄, not_lt.1 h₅⟩ hnot

/-- The reader accepts exactly the images of payloads within its bound. -/
theorem canonicalStatePayload_eq_ok {frame : Bytes} :
    canonicalStatePayload frame maxPayload = .ok payload ↔
      payload.length ≤ maxPayload ∧ canonicalStateImage payload = some frame := by
  rw [canonicalStateImage_eq_some]
  constructor
  · intro h
    rw [canonicalStatePayload] at h
    split at h
    · cases h
    next hsize =>
      rw [not_not] at hsize
      split at h
      · cases h
      next len hlen =>
        split at h
        · cases h
        next htail =>
          cases h
          rw [stateFrameLen] at hlen
          split at hlen
          · cases hlen
          dsimp only at hlen
          split at hlen
          · cases hlen
          split at hlen
          · cases hlen
          cases hlen
          set len := leNat (frame.take 4)
          have hpayload : ((frame.drop 4).take len).length = len := by simp; omega
          refine ⟨by omega, by rw [Fits]; omega, ?_⟩
          have hzeros : frame.drop (4 + len) =
              List.replicate (canonicalStateMemoryBytes - 4 - len) 0 := by
            refine List.eq_replicate_iff.2 ⟨by simp; omega, fun b hb => ?_⟩
            exact not_not.1 fun hne => htail (List.any_eq_true.2 ⟨b, hb, decide_eq_true hne⟩)
          have hprefix : leBytes 4 len = frame.take 4 := by
            have := leBytes_leNat (frame.take 4)
            rwa [List.length_take_of_le (by omega)] at this
          rw [image, hpayload, hprefix, ← hzeros, ← List.drop_drop, List.append_assoc,
            List.take_append_drop, List.take_append_drop]
  · rintro ⟨hmax, hf, rfl⟩
    rw [canonicalStatePayload, length_image hf, if_neg (by simp),
      stateFrameLen_image hf hf.lt hmax]
    have hdrop : (image canonicalStateMemoryBytes payload).drop 4 =
        payload ++ List.replicate (canonicalStateMemoryBytes - 4 - payload.length) 0 := by
      rw [image, List.append_assoc, List.drop_left' (length_leBytes 4 _)]
    dsimp only
    rw [← List.drop_drop, hdrop, List.drop_left, List.take_left, if_neg]
    simp

/-- After any operations the memory is the image of the payload last written; the next one writes
its own image exactly if it is admitted and leaves the memory alone otherwise, and the reader inverts
exactly the images. -/
theorem state_memory_canonical (maxPayload : ℕ) (start memory : Bytes)
    (hmax : start.length ≤ maxPayload) (hstart : canonicalStateImage start = some memory)
    (ops : List Operation) :
    let s := ops.foldl (step maxPayload) (memory, start)
    canonicalStateImage s.2 = some s.1 ∧
    (∀ op : Operation,
      (op.Admitted maxPayload s.2.length → (op.apply maxPayload s.1).2 = none ∧
        canonicalStateImage op.payload = some (op.apply maxPayload s.1).1) ∧
      (¬ op.Admitted maxPayload s.2.length →
        ∃ message, op.apply maxPayload s.1 = (s.1, some (.refused message)))) ∧
    ∀ frame bound payload, canonicalStatePayload frame bound = .ok payload ↔
      payload.length ≤ bound ∧ canonicalStateImage payload = some frame := by
  intro s
  have hinv : Fits s.2 ∧ s.2.length ≤ maxPayload ∧ s.1 = image canonicalStateMemoryBytes s.2 := by
    induction ops using List.reverseRecOn with
    | nil => exact ⟨(canonicalStateImage_eq_some.1 hstart).1, hmax,
      (canonicalStateImage_eq_some.1 hstart).2⟩
    | append_singleton before op ih =>
      obtain ⟨hf, hle, heq⟩ := ih
      have hs : s = step maxPayload (before.foldl (step maxPayload) (memory, start)) op :=
        List.foldl_append ..
      rw [hs, step, heq]
      obtain ⟨hwritten, hrefused⟩ := apply_image op hf hle
      by_cases hadmitted : op.Admitted maxPayload
          (before.foldl (step maxPayload) (memory, start)).2.length
      · obtain ⟨happly, hf', hle'⟩ := hwritten hadmitted
        rw [happly]
        exact ⟨hf', hle', rfl⟩
      · obtain ⟨message, happly⟩ := hrefused hadmitted
        rw [happly]
        exact ⟨hf, hle, rfl⟩
  obtain ⟨hf, hle, heq⟩ := hinv
  refine ⟨canonicalStateImage_eq_some.2 ⟨hf, heq⟩, fun op => ?_,
    fun _ _ _ => canonicalStatePayload_eq_ok⟩
  rw [heq]
  obtain ⟨hwritten, hrefused⟩ := apply_image op hf hle
  refine ⟨fun hadmitted => ?_, hrefused⟩
  obtain ⟨happly, hf', -⟩ := hwritten hadmitted
  rw [happly]
  exact ⟨rfl, canonicalStateImage_eq_some.2 ⟨hf', rfl⟩⟩

/-- Three bytes are restored over an empty memory; the guest then writes one byte, which costs three
with the two that are cleared. -/
theorem state_memory_canonical_empty : ∃ memory, canonicalStateImage [] = some memory ∧
    let s := [Operation.rewrite ⟨[1, 2, 3], by decide⟩].foldl (step maxStateBytes) (memory, [])
    s.2 = [1, 2, 3] ∧ canonicalStateImage [1, 2, 3] = some s.1 ∧
      canonicalStateImage [7] =
        some ((Operation.stateWrite none [7] 0 1 0 3).apply maxStateBytes s.1).1 ∧
      ∃ message, (Operation.stateWrite none [7] 0 1 0 2).apply maxStateBytes s.1 =
        (s.1, some (.refused message)) := by
  obtain ⟨memory, hstart⟩ : ∃ memory, canonicalStateImage [] = some memory :=
    ⟨_, canonicalStateImage_eq_some.2 ⟨by rw [Fits]; decide, rfl⟩⟩
  refine ⟨memory, hstart, ?_⟩
  obtain ⟨-, hfirst, -⟩ := state_memory_canonical maxStateBytes [] _ (Nat.zero_le _) hstart []
  obtain ⟨himage, hnext, -⟩ := state_memory_canonical maxStateBytes [] _ (Nat.zero_le _) hstart
    [.rewrite ⟨[1, 2, 3], by decide⟩]
  have hthree : [1, 2, 3].length ≤ maxStateBytes := by decide
  have hrewritten := ((hfirst (.rewrite ⟨[1, 2, 3], by decide⟩)).1 hthree).1
  have hpayload : ([Operation.rewrite ⟨[1, 2, 3], by decide⟩].foldl (step maxStateBytes)
      (memory, [])).2 = [1, 2, 3] := if_pos (congrArg Option.isNone hrewritten)
  rw [hpayload] at himage hnext
  exact ⟨hpayload, himage, ((hnext (.stateWrite none [7] 0 1 0 3)).1 (by decide)).2,
    (hnext (.stateWrite none [7] 0 1 0 2)).2 (by decide)⟩

end Arena0.StateMemory
