import Arena0.Ballots

/-!
# The cumulative-sum program

Every participant fills the slot of its index, in index order, and the last one ends
the session with the sum.  The values come from other participants as any `u64`; the
sums wrap as they do in the release build the programs are packaged with.
-/

namespace Arena0.CumulativeSum

structure Shared where
  total : UInt64
  finalized : Bool
  contributions : List (Option UInt64)
  deriving DecidableEq

/-- `iter().flatten().sum()` over `u64`. -/
def sum (contributions : List (Option UInt64)) : UInt64 :=
  contributions.reduceOption.foldl (· + ·) 0

def checkedSum (contributions : List (Option UInt64)) : Option UInt64 :=
  contributions.reduceOption.foldlM checkedAdd 0

namespace Shared

def nextSlot (shared : Shared) : Option ℕ := shared.contributions.findIdx? (·.isNone)

def isNext (shared : Shared) (participant : Participant) : Bool :=
  shared.nextSlot = some participant.val

def displayTotal (shared : Shared) : UInt64 :=
  if shared.finalized then shared.total else sum shared.contributions

def outcome (shared : Shared) : UInt64 := shared.total

end Shared

def onSessionStarted (n : ℕ) : Shared := ⟨0, false, List.replicate n none⟩

def applyContribution (shared : Shared) (source : Participant) (value : UInt64) : Shared :=
  { shared with contributions := shared.contributions.set source (some value) }

def finalizeIfReady (shared : Shared) (n : ℕ) : Shared × Bool :=
  if shared.contributions.countP (·.isSome) ≠ n then (shared, false)
  else ({ shared with total := sum shared.contributions, finalized := true }, true)

/-- The shared part of `on_message`; none is a rejected message. -/
def onMessage (n : ℕ) (shared : Shared) (source : Participant) (value : UInt64) :
    Option (Shared × Bool) :=
  if shared.isNext source = false then none
  else some (finalizeIfReady (applyContribution shared source value) n)

/-! ## Runs -/

structure Session where
  shared : Shared
  ended : Bool
  accepted : List (Participant × UInt64)
  deriving DecidableEq

def Session.step (n : ℕ) (s : Session) (m : Participant × UInt64) : Session :=
  if s.ended then s
  else match onMessage n s.shared m.1 m.2 with
  | none => s
  | some (shared, ended) => ⟨shared, ended, s.accepted ++ [m]⟩

def run (n : ℕ) (messages : List (Participant × UInt64)) : Session :=
  messages.foldl (·.step n) ⟨onSessionStarted n, false, []⟩

def Session.contributed (s : Session) : ℕ := (s.accepted.map (·.2.toNat)).sum

/-- What holds of every run, whatever the values: slots are filled in index order, each by its
owner, and the last one ends the session. -/
structure Tracked (n : ℕ) (s : Session) : Prop where
  owners : s.accepted.map (·.1.val) = List.range s.accepted.length
  slots : s.shared.contributions =
    s.accepted.map (some ·.2) ++ List.replicate (n - s.accepted.length) none
  ended : s.ended = true ↔ s.accepted.length = n
  le : s.accepted.length ≤ n
  finalized : s.shared.finalized = s.ended
  total : s.ended = true → s.shared.total = sum s.shared.contributions

/-- The run is in order, no sum over the slots overflows, and both the view and the outcome show
the sum of what was accepted. -/
structure ReportsSum (n : ℕ) (s : Session) : Prop extends Tracked n s where
  fits : (checkedSum s.shared.contributions).isSome = true
  display : s.shared.displayTotal.toNat = s.contributed
  outcome : s.ended = true → s.shared.outcome.toNat = s.contributed

theorem reduceOption_slots (l : List (Participant × UInt64)) (k : ℕ) :
    (l.map (fun m : Participant × UInt64 => some m.2) ++ List.replicate k none).reduceOption =
      l.map (·.2) := by
  induction l with
  | nil => simp
  | cons m l ih => simpa using ih

private theorem Tracked.step {n : ℕ} {s : Session} (h : Tracked n s) (m : Participant × UInt64) :
    Tracked n (s.step n m) := by
  rw [Session.step]
  split
  · exact h
  next hopen =>
    have hlt : s.accepted.length < n :=
      lt_of_le_of_ne h.le fun heq => hopen (h.ended.2 heq)
    obtain ⟨k, hk⟩ : ∃ k, n - s.accepted.length = k + 1 := ⟨n - s.accepted.length - 1, by omega⟩
    have hslots := h.slots
    rw [hk, List.replicate_succ] at hslots
    have hnext : s.shared.nextSlot = some s.accepted.length := by
      rw [Shared.nextSlot, hslots, List.findIdx?_append, List.findIdx?_eq_none_iff.2 (by
        rintro _ hx
        obtain ⟨x, -, rfl⟩ := List.mem_map.1 hx
        rfl), List.findIdx?_cons]
      simp
    rw [onMessage]
    split
    · exact h
    next heq =>
      split at heq
      · cases heq
      next hturn =>
        rename_i shared ended
        have howner : s.accepted.length = m.1.val := by
          simpa [Shared.isNext, hnext] using hturn
        have hfilled : (applyContribution s.shared m.1 m.2).contributions =
            (s.accepted ++ [m]).map (some ·.2) ++ List.replicate k none := by
          rw [applyContribution, hslots, ← howner, List.set_append_right _ _ (by simp)]
          simp
        have hcount : (applyContribution s.shared m.1 m.2).contributions.countP (·.isSome) =
            s.accepted.length + 1 := by
          rw [hfilled, List.countP_append, List.countP_map, List.countP_replicate]
          simp [List.countP_eq_length.2]
        have hk' : n - (s.accepted ++ [m]).length = k := by simp; omega
        have howners : (s.accepted ++ [m]).map (·.1.val) = List.range (s.accepted ++ [m]).length := by
          rw [List.map_append, h.owners, List.length_append, List.length_singleton,
            List.range_succ, howner]
          rfl
        rw [finalizeIfReady, hcount] at heq
        split at heq
        next hmore =>
          obtain ⟨rfl, rfl⟩ := Prod.mk.inj (Option.some.inj heq)
          refine ⟨howners, by rw [hk']; exact hfilled, by simpa using hmore, by simp; omega, ?_, nofun⟩
          exact h.finalized.trans (Bool.eq_false_of_not_eq_true hopen)
        next hlast =>
          obtain ⟨rfl, rfl⟩ := Prod.mk.inj (Option.some.inj heq)
          refine ⟨howners, by rw [hk']; exact hfilled, ?_, by simp; omega, rfl, fun _ => rfl⟩
          simpa using hlast

theorem foldl_add (l : List UInt64) (a : UInt64) (h : a.toNat + (l.map UInt64.toNat).sum < 2 ^ 64) :
    (l.foldl (· + ·) a).toNat = a.toNat + (l.map UInt64.toNat).sum := by
  induction l generalizing a with
  | nil => rfl
  | cons b l ih =>
    rw [List.map_cons, List.sum_cons, ← Nat.add_assoc] at h ⊢
    have hb : (a + b).toNat = a.toNat + b.toNat := by
      rw [UInt64.toNat_add]
      exact Nat.mod_eq_of_lt (by omega)
    rw [List.foldl_cons, ih _ (by rwa [hb]), hb]

theorem isSome_foldlM_checkedAdd (l : List UInt64) (a : UInt64) :
    (l.foldlM checkedAdd a).isSome = true ↔ a.toNat + (l.map UInt64.toNat).sum < 2 ^ 64 := by
  induction l generalizing a with
  | nil => simpa using a.toNat_lt
  | cons b l ih =>
    rw [List.foldlM_cons, List.map_cons, List.sum_cons, ← Nat.add_assoc]
    cases hb : checkedAdd a b with
    | none =>
      rw [checkedAdd] at hb
      split at hb
      · cases hb
      · exact ⟨fun h => (Bool.false_ne_true h).elim, fun h => by omega⟩
    | some c =>
      rw [← checkedAdd_eq_some hb]
      exact ih c

/-- The values already recorded and the one that is next in turn stay a `u64`. -/
def Fits (s : Session) (m : Participant × UInt64) : Prop :=
  s.ended = false → s.shared.isNext m.1 = true →
    (s.shared.contributions.reduceOption.map UInt64.toNat).sum + m.2.toNat < 2 ^ 64

def Meets (n : ℕ) : Session → List (Participant × UInt64) → Prop
  | _, [] => True
  | s, m :: rest => Fits s m ∧ Meets n (s.step n m) rest

private theorem accepted_step (n : ℕ) (s : Session) (m : Participant × UInt64) :
    (s.step n m).accepted =
      if s.ended = false ∧ s.shared.isNext m.1 = true then s.accepted ++ [m] else s.accepted := by
  unfold Session.step onMessage
  cases s.ended <;> cases s.shared.isNext m.1 <;> rfl

theorem contributed_le_run (n : ℕ) (s : Session) (messages : List (Participant × UInt64)) :
    s.contributed ≤ (messages.foldl (·.step n) s).contributed := by
  induction messages generalizing s with
  | nil => exact le_rfl
  | cons m rest ih =>
    refine le_trans ?_ (ih _)
    rw [Session.contributed, Session.contributed, accepted_step]
    split <;> simp

theorem Tracked.reduceOption {n : ℕ} {s : Session} (h : Tracked n s) :
    s.shared.contributions.reduceOption.map UInt64.toNat = s.accepted.map (·.2.toNat) := by
  rw [h.slots, reduceOption_slots, List.map_map]
  rfl

-- The sum only grows, so the first step that does not fit is never made good.
theorem Tracked.contributed_lt_iff {n : ℕ} {s : Session} (h : Tracked n s)
    (hs : s.contributed < 2 ^ 64) (messages : List (Participant × UInt64)) :
    (messages.foldl (·.step n) s).contributed < 2 ^ 64 ↔ Meets n s messages := by
  induction messages generalizing s with
  | nil => exact ⟨fun _ => trivial, fun _ => hs⟩
  | cons m rest ih =>
    rw [List.foldl_cons, Meets]
    by_cases hm : s.ended = false ∧ s.shared.isNext m.1 = true
    · have hnext : (s.step n m).contributed = s.contributed + m.2.toNat := by
        rw [Session.contributed, accepted_step, if_pos hm]
        simp [Session.contributed]
      have hfits : Fits s m ↔ (s.step n m).contributed < 2 ^ 64 := by
        rw [Fits, h.reduceOption, hnext]
        exact ⟨fun hf => hf hm.1 hm.2, fun hf _ _ => hf⟩
      rw [hfits]
      refine ⟨fun hlt => ?_, fun ⟨hlt, hrest⟩ => (ih (h.step m) hlt).2 hrest⟩
      have hlt' := lt_of_le_of_lt (contributed_le_run n _ rest) hlt
      exact ⟨hlt', (ih (h.step m) hlt').1 hlt⟩
    · have hsame : (s.step n m).contributed = s.contributed := by
        rw [Session.contributed, accepted_step, if_neg hm, Session.contributed]
      rw [ih (h.step m) (hsame ▸ hs)]
      exact (and_iff_right fun he hn => absurd ⟨he, hn⟩ hm).symm

private theorem tracked_start {n : ℕ} (hn : 0 < n) : Tracked n ⟨onSessionStarted n, false, []⟩ :=
  ⟨rfl, by simp [onSessionStarted], by simp; omega, Nat.zero_le _, rfl, nofun⟩

private theorem tracked_run {n : ℕ} (hn : 0 < n) (messages : List (Participant × UInt64)) :
    Tracked n (run n messages) := by
  induction messages using List.reverseRecOn with
  | nil => exact tracked_start hn
  | append_singleton before m ih =>
    rw [run, List.foldl_append]
    exact ih.step m

/-- In a run of any ensemble the report is right exactly when every contribution keeps the sum of
those recorded before it and its own a `u64`. -/
theorem reports_sum_iff_fits (n : ℕ) (hlow : 2 ≤ n) (messages : List (Participant × UInt64)) :
    ReportsSum n (run n messages) ↔ Meets n ⟨onSessionStarted n, false, []⟩ messages := by
  have h := tracked_run (by omega : 0 < n) messages
  have hsum : (checkedSum (run n messages).shared.contributions).isSome = true ↔
      (run n messages).contributed < 2 ^ 64 := by
    rw [checkedSum, isSome_foldlM_checkedAdd, h.reduceOption, UInt64.toNat_zero, Nat.zero_add]
    rfl
  rw [← (tracked_start (by omega)).contributed_lt_iff (Nat.two_pow_pos 64) messages]
  refine ⟨fun hr => hsum.1 hr.fits, fun hlt => ?_⟩
  have hslots : (sum (run n messages).shared.contributions).toNat = (run n messages).contributed := by
    rw [sum, foldl_add]
    · rw [h.reduceOption, UInt64.toNat_zero, Nat.zero_add]
      rfl
    · rw [h.reduceOption, UInt64.toNat_zero, Nat.zero_add]
      exact hlt
  refine ⟨h, hsum.2 hlt, ?_, fun hended => by rw [Shared.outcome, h.total hended, hslots]⟩
  rw [Shared.displayTotal, h.finalized]
  split
  next hended => rw [h.total hended, hslots]
  next => exact hslots

theorem reports_sum_iff_fits_two :
    ReportsSum 2 (run 2 [(0, 5), (0, 9), (1, 7)]) ∧
      (run 2 [(0, 5), (0, 9), (1, 7)]).shared.outcome = 12 :=
  ⟨(reports_sum_iff_fits 2 le_rfl _).2 (by simp only [Meets, Fits]; decide +kernel),
    by decide +kernel⟩

theorem not_reports_sum_of_any_contributions :
    ¬ ∀ n, 2 ≤ n → n ≤ 64 → ∀ messages, ReportsSum n (run n messages) := by
  intro h
  have hfits := (h 2 le_rfl (by decide) [(0, 2 ^ 64 - 1), (1, 1)]).fits
  exact absurd hfits (by decide +kernel)

end Arena0.CumulativeSum
