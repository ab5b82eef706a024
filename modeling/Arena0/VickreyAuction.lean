import Mathlib

/-!
# Settlement of the sealed-bid auction

The revealed bids stand in participant order, the seller's fixed one first.  Bids are
only compared, so they are natural numbers; the shuffle of a tie is any permutation of
the tied bidders that depends on them alone.
-/

namespace Arena0.Vickrey

inductive Settlement
  | sold (winner price : ℕ)
  | noSale
  deriving DecidableEq

def qualifyingBids (reserve : Option ℕ) (values : List ℕ) : List (ℕ × ℕ) :=
  (values.zipIdx.drop 1).filterMap fun (bid, index) =>
    if reserve.getD 0 ≤ bid then some (index, bid) else none

def secondPrice (reserve : Option ℕ) (values : List ℕ) : ℕ :=
  (((qualifyingBids reserve values).map (·.2)).mergeSort (fun left right => right ≤ left))[1]?.getD
    (reserve.getD 0)

def settleBids (reserve : Option ℕ) (values : List ℕ) : Option Settlement :=
  match qualifyingBids reserve values with
  | [] => some .noSale
  | [only] => some (.sold only.1 (secondPrice reserve values))
  | qualifying => do
    let highest ← (qualifying.map (·.2)).max?
    if (qualifying.filter (·.2 = highest)).length < 2 then
      let winner ← qualifying.find? (·.2 = highest)
      some (.sold winner.1 (secondPrice reserve values))
    else none

/-- The order the joint randomness gives each set of tied bidders. -/
abbrev TieBreak := { shuffle : List ℕ → List ℕ // ∀ tied, (shuffle tied).Perm tied }

def settleTie (reserve : Option ℕ) (values : List ℕ) (tieBreak : TieBreak) :
    Except String Settlement := do
  match ((qualifyingBids reserve values).map (·.2)).max? with
  | none => .error "tie resolution requires a qualifying bid"
  | some highest =>
    let tied := ((qualifyingBids reserve values).filter (·.2 = highest)).map (·.1)
    if tied.length < 2 then .error "tie resolution requires at least two bidders"
    else match (tieBreak.1 tied)[0]? with
    | some winner => .ok (.sold winner (secondPrice reserve values))
    | none => .error "joint randomness did not produce a tie order"

def settle (reserve : Option ℕ) (values : List ℕ) (tieBreak : TieBreak) :
    Except String Settlement :=
  match settleBids reserve values with
  | some settlement => .ok settlement
  | none => settleTie reserve values tieBreak

/-! ## What a settlement is -/

/-- What bidder `i` has offered. -/
def Bids (values : List ℕ) (i bid : ℕ) : Prop := 1 ≤ i ∧ values[i]? = some bid

/-- The reserve and the qualifying bids of the others. -/
def Against (reserve : Option ℕ) (values : List ℕ) (i : ℕ) : Set ℕ :=
  { b | b = reserve.getD 0 ∨ ∃ j, j ≠ i ∧ Bids values j b ∧ reserve.getD 0 ≤ b }

/-- A highest bidder who reaches the reserve wins and pays the most they had to beat. -/
structure Wins (reserve : Option ℕ) (values : List ℕ) (winner price bid : ℕ) : Prop where
  bids : Bids values winner bid
  highest : ∀ i b, Bids values i b → b ≤ bid
  reserve_le : reserve.getD 0 ≤ bid
  greatest : IsGreatest (Against reserve values winner) price
  price_le : price ≤ bid

variable {reserve : Option ℕ} {values : List ℕ} {tieBreak : TieBreak} {i b : ℕ}

theorem mem_qualifyingBids :
    (i, b) ∈ qualifyingBids reserve values ↔ Bids values i b ∧ reserve.getD 0 ≤ b := by
  have hmem : (b, i) ∈ values.zipIdx.drop 1 ↔ Bids values i b := by
    rw [List.mem_iff_getElem?, Bids]
    constructor
    · rintro ⟨k, hk⟩
      rw [List.getElem?_drop, List.getElem?_zipIdx, Option.map_eq_some_iff] at hk
      obtain ⟨x, hx, heq⟩ := hk
      obtain ⟨rfl, rfl⟩ := Prod.mk.inj heq
      exact ⟨by omega, by rwa [Nat.zero_add]⟩
    · rintro ⟨hi, hb⟩
      refine ⟨i - 1, ?_⟩
      rw [List.getElem?_drop, List.getElem?_zipIdx, Nat.add_sub_cancel' hi, hb]
      simp
  rw [qualifyingBids, List.mem_filterMap, ← hmem]
  constructor
  · rintro ⟨⟨x, k⟩, hx, heq⟩
    dsimp only at heq
    split at heq
    · cases heq
      exact ⟨hx, ‹_›⟩
    · cases heq
  · rintro ⟨hx, hr⟩
    exact ⟨(b, i), hx, if_pos hr⟩

theorem nodup_qualifyingBids : (qualifyingBids reserve values).Nodup := by
  have hzip : values.zipIdx.Nodup := by
    refine List.Nodup.of_map Prod.snd ?_
    rw [List.zipIdx_map_snd]
    exact List.nodup_range'
  refine List.Nodup.filterMap ?_ (hzip.sublist (List.drop_sublist ..))
  rintro ⟨x, k⟩ ⟨x', k'⟩ q hq hq'
  dsimp only at hq hq'
  split at hq <;> split at hq' <;> grind

theorem isGreatest_secondPrice (h : (i, b) ∈ qualifyingBids reserve values)
    (hmax : ∀ q ∈ qualifyingBids reserve values, q.2 ≤ b) :
    IsGreatest (Against reserve values i) (secondPrice reserve values) := by
  set Q := qualifyingBids reserve values with hQ
  have hothers : ∀ j c, (j, c) ∈ Q.erase (i, b) ↔ (j ≠ i ∧ Bids values j c ∧ reserve.getD 0 ≤ c) := by
    intro j c
    rw [nodup_qualifyingBids.mem_erase_iff, mem_qualifyingBids]
    refine ⟨fun ⟨hne, hj⟩ => ⟨fun heq => hne ?_, hj⟩, fun ⟨hne, hj⟩ => ⟨fun heq => ?_, hj⟩⟩
    · have hb := (mem_qualifyingBids.1 h).1.2
      rw [← heq, hj.1.2] at hb
      rw [heq, Option.some.inj hb]
    · exact hne (Prod.mk.inj heq).1
  have hperm : ((Q.map (·.2)).mergeSort (fun left right => right ≤ left)).Perm
      (b :: (Q.erase (i, b)).map (·.2)) :=
    (List.mergeSort_perm _ _).trans ((List.perm_cons_erase h).map _)
  have hsorted := @List.pairwise_mergeSort _ (fun left right : ℕ => decide (right ≤ left))
    (by simp; omega) (by simp; omega) (Q.map (·.2))
  rw [secondPrice, ← hQ]
  -- The highest bid leads; what follows is a sorted list of the other bids.
  generalize (Q.map (·.2)).mergeSort (fun left right => right ≤ left) = S at hperm hsorted
  cases S with
  | nil => cases hperm.length_eq
  | cons first S =>
    rw [List.pairwise_cons] at hsorted
    have hfirst : first = b := by
      refine le_antisymm ?_ ?_
      · rcases List.mem_cons.1 (hperm.mem_iff.1 List.mem_cons_self) with heq | hmem
        · exact heq.le
        · obtain ⟨q, hq, rfl⟩ := List.mem_map.1 hmem
          exact hmax q (List.mem_of_mem_erase hq)
      · rcases List.mem_cons.1 (hperm.mem_iff.2 List.mem_cons_self) with heq | hmem
        · exact heq.le
        · exact of_decide_eq_true (hsorted.1 b hmem)
    subst hfirst
    have hrest : ∀ c, c ∈ S ↔ ∃ j, j ≠ i ∧ Bids values j c ∧ reserve.getD 0 ≤ c := by
      intro c
      rw [hperm.cons_inv.mem_iff, List.mem_map]
      constructor
      · rintro ⟨⟨j, c⟩, hq, rfl⟩
        exact ⟨j, (hothers j c).1 hq⟩
      · rintro ⟨j, hj⟩
        exact ⟨(j, c), (hothers j c).2 hj, rfl⟩
    cases S with
    | nil =>
      refine ⟨.inl rfl, ?_⟩
      rintro c (rfl | hc)
      · exact le_rfl
      · cases (hrest c).2 hc
    | cons second S =>
      refine ⟨.inr ((hrest second).1 List.mem_cons_self), ?_⟩
      rintro c (rfl | hc)
      · exact ((hrest second).1 List.mem_cons_self).choose_spec.2.2
      · rcases List.mem_cons.1 ((hrest c).2 hc) with rfl | hmem
        · exact le_rfl
        · exact of_decide_eq_true ((List.pairwise_cons.1 hsorted.2).1 c hmem)

theorem wins_secondPrice (h : (i, b) ∈ qualifyingBids reserve values)
    (hmax : ∀ q ∈ qualifyingBids reserve values, q.2 ≤ b) :
    Wins reserve values i (secondPrice reserve values) b := by
  obtain ⟨hbids, hreserve⟩ := mem_qualifyingBids.1 h
  have hgreatest := isGreatest_secondPrice h hmax
  have hhigh : ∀ j c, Bids values j c → c ≤ b := by
    intro j c hc
    rcases le_total (reserve.getD 0) c with hr | hr
    · exact hmax (j, c) (mem_qualifyingBids.2 ⟨hc, hr⟩)
    · exact hr.trans hreserve
  refine ⟨hbids, hhigh, hreserve, hgreatest, ?_⟩
  rcases hgreatest.1 with heq | ⟨j, -, hj, -⟩
  · exact heq.trans_le hreserve
  · exact hhigh j _ hj

theorem exists_max {Q : List (ℕ × ℕ)} (h : Q ≠ []) :
    ∃ highest, (Q.map (·.2)).max? = some highest ∧ (∀ q ∈ Q, q.2 ≤ highest) ∧
      ∃ q ∈ Q, q.2 = highest := by
  cases hmax : (Q.map (·.2)).max? with
  | none => exact absurd (List.map_eq_nil_iff.1 (List.max?_eq_none_iff.1 hmax)) h
  | some highest =>
    obtain ⟨hmem, hle⟩ := List.max?_eq_some_iff.1 hmax
    exact ⟨highest, rfl, fun q hq => hle _ (List.mem_map_of_mem hq), List.mem_map.1 hmem⟩

/-- Either nobody reaches the reserve, or a highest bidder wins. -/
theorem settle_spec (reserve : Option ℕ) (values : List ℕ) (tieBreak : TieBreak) :
    (settle reserve values tieBreak = .ok .noSale ∧
      ∀ i b, Bids values i b → b < reserve.getD 0) ∨
    ∃ winner price bid, settle reserve values tieBreak = .ok (.sold winner price) ∧
      Wins reserve values winner price bid := by
  rcases eq_or_ne (qualifyingBids reserve values) [] with hQ | hQ
  · refine .inl ⟨by simp [settle, settleBids, hQ], fun i b hb => not_le.1 fun hr => ?_⟩
    have := mem_qualifyingBids.2 ⟨hb, hr⟩
    rw [hQ] at this
    cases this
  refine .inr ?_
  obtain ⟨highest, hmax, hle, q, hq, hqmax⟩ := exists_max hQ
  have hwin : ∀ w ∈ qualifyingBids reserve values, w.2 = highest →
      Wins reserve values w.1 (secondPrice reserve values) highest := by
    rintro ⟨w, c⟩ hw rfl
    exact wins_secondPrice hw hle
  cases hbids : settleBids reserve values with
  | some settlement =>
    have hsettle : settle reserve values tieBreak = .ok settlement := by rw [settle, hbids]
    unfold settleBids at hbids
    split at hbids
    next heq => exact absurd heq hQ
    next only heq =>
      rw [heq, List.mem_singleton] at hq
      cases hbids
      exact ⟨only.1, _, highest, hsettle, hwin only (by simp [heq]) (hq ▸ hqmax)⟩
    next =>
      rw [hmax, Option.bind_eq_bind, Option.bind_some] at hbids
      split at hbids
      · obtain ⟨w, hfind, heq⟩ := Option.bind_eq_some_iff.1 hbids
        cases heq
        exact ⟨w.1, _, highest, hsettle, hwin w (List.mem_of_find?_eq_some hfind)
          (by simpa using List.find?_some hfind)⟩
      · cases hbids
  | none =>
    have htied : ¬ ((qualifyingBids reserve values).filter (·.2 = highest)).length < 2 := by
      intro hlt
      unfold settleBids at hbids
      split at hbids
      · cases hbids
      · cases hbids
      · rw [hmax, Option.bind_eq_bind, Option.bind_some, if_pos hlt, Option.bind_eq_bind,
          Option.bind_eq_none_iff] at hbids
        have hsome : ((qualifyingBids reserve values).find? (·.2 = highest)).isSome :=
          List.find?_isSome.2 ⟨q, hq, by simpa using hqmax⟩
        obtain ⟨w, hw⟩ := Option.isSome_iff_exists.1 hsome
        cases hbids w hw
    set tied := ((qualifyingBids reserve values).filter (·.2 = highest)).map (·.1) with hset
    have hperm := tieBreak.2 tied
    have hlen : ¬ tied.length < 2 := by rwa [hset, List.length_map]
    cases horder : tieBreak.1 tied with
    | nil =>
      rw [horder] at hperm
      exact absurd hperm.length_eq (by simp; omega)
    | cons winner rest =>
      have hmem : winner ∈ tied := hperm.mem_iff.1 (by simp [horder])
      obtain ⟨w, hw, rfl⟩ := List.mem_map.1 hmem
      obtain ⟨hw, heq⟩ := List.mem_filter.1 hw
      refine ⟨w.1, _, highest, ?_, hwin w hw (of_decide_eq_true heq)⟩
      rw [settle, hbids, settleTie, hmax]
      simp [← hset, hlen, horder]

/-! ## Truthfulness -/

/-- The bidder's value less the price when they win. -/
def payoff (i v : ℕ) : Except String Settlement → ℤ
  | .ok (.sold winner price) => if winner = i then v - price else 0
  | .ok .noSale => 0
  | .error _ => 0

theorem bids_set_of_ne {j v c : ℕ} (h : j ≠ i) : Bids (values.set i v) j c ↔ Bids values j c := by
  rw [Bids, Bids, List.getElem?_set_ne h.symm]

theorem against_set (v : ℕ) : Against reserve (values.set i v) i = Against reserve values i := by
  ext c
  simp only [Against, Set.mem_ofPred_eq]
  refine or_congr_right (exists_congr fun j => and_congr_right fun hne => ?_)
  rw [bids_set_of_ne hne]

theorem payoff_nonneg (hlen : i < values.length) (v : ℕ) :
    0 ≤ payoff i v (settle reserve (values.set i v) tieBreak) := by
  rcases settle_spec reserve (values.set i v) tieBreak with ⟨heq, -⟩ | ⟨w, p, bid, heq, hwins⟩
  · rw [heq, payoff]
  · rw [heq, payoff]
    split
    next hw =>
      have hbid := hwins.bids.2
      rw [hw, List.getElem?_set_self hlen] at hbid
      have := hwins.price_le
      rw [← Option.some.inj hbid] at this
      omega
    · exact le_rfl

/-- No alternative bid does better than the true value. -/
theorem payoff_set_le (hi : 1 ≤ i) (hlen : i < values.length) (v b : ℕ) :
    payoff i v (settle reserve (values.set i b) tieBreak) ≤
      payoff i v (settle reserve (values.set i v) tieBreak) := by
  have hzero : 0 ≤ payoff i v (settle reserve (values.set i v) tieBreak) := payoff_nonneg hlen v
  rcases settle_spec reserve (values.set i b) tieBreak with ⟨heq, -⟩ | ⟨w, p, bid, heq, hwins⟩
  · rwa [heq]
  rw [heq]
  rcases ne_or_eq w i with hw | rfl
  · rwa [payoff, if_neg hw]
  rw [payoff, if_pos rfl]
  have hgreatest := hwins.greatest
  rw [against_set] at hgreatest
  have hv : Bids (values.set w v) w v := ⟨hi, List.getElem?_set_self hlen⟩
  rcases settle_spec reserve (values.set w v) tieBreak with ⟨heq', hlow⟩ | ⟨j, p', bid', heq', hwins'⟩
  · have := hlow w v hv
    have := hgreatest.2 (.inl rfl)
    rw [heq', payoff]
    omega
  rw [heq', payoff]
  split
  next hj =>
    have hgreatest' := hwins'.greatest
    rw [hj, against_set] at hgreatest'
    rw [hgreatest.unique hgreatest']
  next hj =>
    have := hwins'.highest w v hv
    have := hgreatest.2 (.inr ⟨j, hj, (bids_set_of_ne hj).1 hwins'.bids, hwins'.reserve_le⟩)
    omega

/-- The auction is truthful. -/
theorem auction_truthful (reserve : Option ℕ) (values : List ℕ) (tieBreak : TieBreak) :
    (∃ settlement, settle reserve values tieBreak = .ok settlement ∧
      (∀ winner price, settlement = .sold winner price → ∃ bid, Wins reserve values winner price bid) ∧
      (settlement = .noSale ↔ ∀ i b, Bids values i b → b < reserve.getD 0)) ∧
    ∀ i v b, 1 ≤ i → i < values.length →
      payoff i v (settle reserve (values.set i b) tieBreak) ≤
        payoff i v (settle reserve (values.set i v) tieBreak) := by
  refine ⟨?_, fun i v b hi hlen => payoff_set_le hi hlen v b⟩
  rcases settle_spec reserve values tieBreak with ⟨heq, hlow⟩ | ⟨w, p, bid, heq, hwins⟩
  · exact ⟨_, heq, nofun, fun _ => hlow, fun _ => rfl⟩
  · refine ⟨_, heq, ?_, nofun, fun hlow => ?_⟩
    · rintro winner price hsold
      obtain ⟨rfl, rfl⟩ := Settlement.sold.inj hsold
      exact ⟨bid, hwins⟩
    · exact absurd (hlow w bid hwins.bids) (not_lt.2 hwins.reserve_le)

end Arena0.Vickrey
