import Arena0.Dispatch

/-!
# Direct lanes

The queue of a lane holds consecutive sequence numbers that end at the last
queued one.  Queueing, acknowledging and clearing keep this shape.
-/

namespace Arena0

open Fallible

variable {κ : Primitives} {lane : DirectLane}

theorem filter_lt_range' (k a n : ℕ) :
    (List.range' a n).filter (fun m => decide (k < m)) =
      List.range' (max a (k + 1)) (a + n - max a (k + 1)) := by
  induction n generalizing a with
  | zero =>
    simp
  | succ n ih =>
    rw [List.range'_succ, List.filter_cons, ih]
    by_cases hk : k < a
    · have h₁ : max a (k + 1) = a := by omega
      have h₂ : max (a + 1) (k + 1) = a + 1 := by omega
      have h₃ : a + (n + 1) - a = n + 1 := by omega
      have h₄ : a + 1 + n - (a + 1) = n := by omega
      simp only [hk, decide_true, ↓reduceIte, h₁, h₂, h₃, h₄, List.range'_succ]
    · have h₁ : max a (k + 1) = k + 1 := by omega
      have h₂ : max (a + 1) (k + 1) = k + 1 := by omega
      have h₃ : a + 1 + n = a + (n + 1) := by omega
      simp [hk, h₁, h₂, h₃]

namespace DirectLane

/-- The queued sequence numbers are consecutive and end at the last queued one. -/
structure Queued (lane : DirectLane) : Prop where
  length_le : lane.queue.length ≤ lane.lastQueued.toNat
  seqs : lane.queue.map (·.seq.toNat) =
    List.range' (lane.lastQueued.toNat + 1 - lane.queue.length) lane.queue.length

theorem queued_of_nil (h : lane.queue = []) : lane.Queued :=
  ⟨by simp [h], by simp [h]⟩

theorem Queued.push (h : lane.Queued) {seq : UInt64} {msg : Borsh.Bytes}
    {range : Option RangeAttachment} (hseq : checkedAdd lane.lastQueued 1 = some seq) :
    ({ lane with lastQueued := seq, queue := lane.queue ++ [⟨seq, msg, range⟩] } :
      DirectLane).Queued := by
  have hle := h.length_le
  have hn : seq.toNat = lane.lastQueued.toNat + 1 := by simpa using checkedAdd_eq_some hseq
  have hstart : seq.toNat + 1 - (lane.queue.length + 1) =
      lane.lastQueued.toNat + 1 - lane.queue.length := by omega
  refine ⟨?_, ?_⟩
  · simp only [List.length_append, List.length_singleton]
    omega
  · simp only [List.map_append, List.map_singleton, List.length_append, List.length_singleton,
      h.seqs, hstart, List.range'_concat]
    simp only [List.append_cancel_left_eq, List.cons.injEq, and_true]
    omega

theorem Queued.seqs_ack (h : lane.Queued) (seq : UInt64) :
    (lane.queue.filter (seq < ·.seq)).map (·.seq.toNat) =
      List.range' (max (lane.lastQueued.toNat + 1 - lane.queue.length) (seq.toNat + 1))
        (lane.lastQueued.toNat + 1 - lane.queue.length + lane.queue.length -
          max (lane.lastQueued.toNat + 1 - lane.queue.length) (seq.toNat + 1)) := by
  rw [← filter_lt_range', ← h.seqs, List.filter_map]
  rfl

theorem Queued.ack (h : lane.Queued) (seq : UInt64) :
    ({ lane with queue := lane.queue.filter (seq < ·.seq) } : DirectLane).Queued := by
  have hle := h.length_le
  have hmap := h.seqs_ack seq
  have hlen := congrArg List.length hmap
  simp only [List.length_map, List.length_range'] at hlen
  refine ⟨?_, ?_⟩
  · simp only [hlen]
    omega
  · simp only [hmap, hlen]
    generalize hcount : lane.lastQueued.toNat + 1 - lane.queue.length + lane.queue.length -
      max (lane.lastQueued.toNat + 1 - lane.queue.length) (seq.toNat + 1) = count
    cases count with
    | zero => simp
    | succ count =>
      congr 1
      omega

end DirectLane

namespace ExecutionState

/-- Queueing the direct messages of a dispatch keeps what holds of every lane
of another participant and survives a push. -/
theorem queueDirect_induct {s : ExecutionState κ} {P : PeerId → DirectLane → Prop}
    {effects : List Effect} {direct result : OrdMap PeerId DirectLane}
    (hpush : ∀ recipient msg range seq, .sendDirect recipient msg range ∈ effects →
      recipient ≠ s.producer → s.binding.isParticipant recipient = true →
      ∀ lane, (P recipient lane ∨ lane = .default) → lane.queue.length ≠ maxDirectQueue →
      checkedAdd lane.lastQueued 1 = some seq →
      P recipient { lane with lastQueued := seq, queue := lane.queue ++ [⟨seq, msg, range⟩] })
    (hinit : ∀ peer lane, direct.get? peer = some lane → P peer lane)
    (h : s.queueDirect direct effects = .ok result) :
    ∀ peer lane, result.get? peer = some lane → P peer lane := by
  induction effects generalizing direct with
  | nil =>
    cases h
    exact hinit
  | cons effect effects ih =>
    have hpush' := fun recipient msg range seq hmem =>
      hpush recipient msg range seq (List.mem_cons_of_mem effect hmem)
    cases effect with
    | sendDirect recipient msg range =>
      simp only [queueDirect, bind_eq_ok, ensure_eq_ok, okOr_eq_ok] at h
      obtain ⟨_, ⟨hne, hpart⟩, _, hlen, seq, hseq, h⟩ := h
      refine ih hpush' ?_ h
      intro peer lane hget
      rcases OrdMap.get?_insert_cases hget with ⟨rfl, rfl⟩ | ⟨-, hget⟩
      · refine hpush peer msg range seq List.mem_cons_self hne hpart _ ?_ hlen hseq
        cases hold : direct.get? peer with
        | none => exact .inr rfl
        | some lane => exact .inl (hinit peer lane hold)
      · exact hinit peer lane hget
    | _ => exact ih hpush' hinit h

end ExecutionState

end Arena0
