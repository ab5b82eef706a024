import Mathlib

/-!
# Fallible computations

Inversion rules for `Except` computations written as a sequence of checks: a
computation succeeds exactly when every check holds and every part succeeds.
-/

namespace Fallible

variable {ε ε' α β : Type} {e : ε} {a : α}

/-- Go on when the condition holds, and fail with the given error otherwise. -/
def ensure (c : Prop) [Decidable c] (e : ε) : Except ε Unit :=
  if c then .ok () else .error e

def okOr (o : Option α) (e : ε) : Except ε α :=
  match o with
  | some a => .ok a
  | none => .error e

def forAll (f : α → Except ε Unit) : List α → Except ε Unit
  | [] => .ok ()
  | a :: l => do
    f a
    forAll f l

@[simp] theorem bind_eq_ok {x : Except ε α} {f : α → Except ε β} {b : β} :
    (x >>= f) = .ok b ↔ ∃ a, x = .ok a ∧ f a = .ok b := by
  cases x with
  | error e => exact ⟨(nomatch ·), fun ⟨_, h, _⟩ => nomatch h⟩
  | ok a =>
    constructor
    · exact fun h => ⟨a, rfl, h⟩
    · rintro ⟨a', h, hb⟩
      cases h
      exact hb

theorem bind_eq_ok_of_iff {x : Except ε α} {f : α → Except ε β} {P : Prop} {b : β}
    (hx : ∀ r, x = .ok r ↔ P ∧ a = r) : x >>= f = .ok b ↔ P ∧ f a = .ok b := by
  rw [bind_eq_ok]
  constructor
  · rintro ⟨r, hr, hb⟩
    obtain ⟨hP, rfl⟩ := (hx r).1 hr
    exact ⟨hP, hb⟩
  · rintro ⟨hP, hb⟩
    exact ⟨a, (hx a).2 ⟨hP, rfl⟩, hb⟩

@[simp] theorem ensure_eq_ok {c : Prop} [Decidable c] {u : Unit} : ensure c e = .ok u ↔ c := by
  unfold ensure
  split <;> simp_all

@[simp] theorem okOr_eq_ok {o : Option α} : okOr o e = .ok a ↔ o = some a := by
  cases o <;> simp [okOr]

@[simp] theorem pure_eq_ok {a b : α} : (pure a : Except ε α) = .ok b ↔ a = b := by
  constructor
  · exact fun h => Except.ok.inj h
  · rintro rfl
    rfl

theorem eq_ok_get {x : Except ε α} (h : x.toOption.isSome = true) : x = .ok (x.toOption.get h) := by
  cases x with
  | error e => cases h
  | ok a => rfl

theorem exists_some_of_any {x : Option α} {p : α → Prop} [DecidablePred p]
    (h : x.any (p ·) = true) : ∃ a, x = some a ∧ p a := by
  cases x with
  | none => cases h
  | some a => exact ⟨a, rfl, of_decide_eq_true h⟩

theorem exists_ok_of_any {x : Except ε α} {p : α → Prop} [DecidablePred p]
    (h : x.toOption.any (p ·) = true) : ∃ a, x = .ok a ∧ p a := by
  cases x with
  | error e => cases h
  | ok a => exact ⟨a, rfl, of_decide_eq_true h⟩

@[simp] theorem throw_eq_ok : (throw e : Except ε α) = .ok a ↔ False :=
  ⟨(nomatch ·), False.elim⟩

@[simp] theorem map_eq_ok {x : Except ε α} {f : α → β} {b : β} :
    (f <$> x) = .ok b ↔ ∃ a, x = .ok a ∧ f a = b := by
  cases x <;> simp [Functor.map, Except.map]

@[simp] theorem exists_unit_eq_ok {x : Except ε Unit} : (∃ u, x = .ok u) ↔ x = .ok () :=
  ⟨fun ⟨_, h⟩ => h, fun h => ⟨(), h⟩⟩

@[simp] theorem mapError_eq_ok {x : Except ε α} {f : ε → ε'} :
    x.mapError f = .ok a ↔ x = .ok a := by
  cases x <;> simp [Except.mapError]

@[simp] theorem forAll_eq_ok {f : α → Except ε Unit} {l : List α} {u : Unit} :
    forAll f l = .ok u ↔ ∀ a ∈ l, f a = .ok () := by
  induction l with
  | nil => simp [forAll]
  | cons a l ih => simp [forAll, ih]

@[simp] theorem error_bind {f : α → Except ε β} :
    ((.error e : Except ε α) >>= f) = .error e := rfl

@[simp] theorem ok_bind {f : α → Except ε β} : ((.ok a : Except ε α) >>= f) = f a := rfl

/-! ## Errors

What a computation can fail with, followed through its parts in order.
-/

/-- Every error the computation can fail with has the property. -/
def FailsOnly (P : ε → Prop) (x : Except ε α) : Prop := ∀ e, x = .error e → P e

section

variable {P : ε → Prop} {x : Except ε α} {f : α → Except ε β}

theorem FailsOnly.mono {Q : ε → Prop} (hx : FailsOnly P x) (h : ∀ e, P e → Q e) : FailsOnly Q x :=
  fun e he => h e (hx e he)

theorem failsOnly_of_ok (h : x = .ok a) : FailsOnly P x := by
  intro e he
  rw [h] at he
  cases he

theorem failsOnly_ok : FailsOnly P (.ok a) := failsOnly_of_ok rfl

theorem failsOnly_pure : FailsOnly P (pure a) := failsOnly_of_ok rfl

theorem failsOnly_error (h : P e) : FailsOnly P (.error e : Except ε α) := by
  intro e' he
  obtain rfl := Except.error.inj he
  exact h

theorem FailsOnly.bind (hx : FailsOnly P x) (hf : ∀ a, x = .ok a → FailsOnly P (f a)) :
    FailsOnly P (x >>= f) := by
  cases x with
  | error e => exact failsOnly_error (hx e rfl)
  | ok a => exact hf a rfl

theorem failsOnly_ensure {c : Prop} [Decidable c] (h : ¬ c → P e) : FailsOnly P (ensure c e) := by
  unfold ensure
  split
  · exact failsOnly_ok
  · exact failsOnly_error (h ‹_›)

theorem failsOnly_okOr {o : Option α} (h : o = none → P e) : FailsOnly P (okOr o e) := by
  cases o with
  | none => exact failsOnly_error (h rfl)
  | some a => exact failsOnly_ok

theorem failsOnly_ensure_bind {c : Prop} [Decidable c] {g : Unit → Except ε β}
    (h : ¬ c → P e) (hg : c → FailsOnly P (g ())) : FailsOnly P (ensure c e >>= g) :=
  (failsOnly_ensure h).bind fun _ hc => hg (ensure_eq_ok.1 hc)

theorem failsOnly_okOr_bind {o : Option α} (h : o = none → P e)
    (hf : ∀ a, o = some a → FailsOnly P (f a)) : FailsOnly P (okOr o e >>= f) :=
  (failsOnly_okOr h).bind fun a ha => hf a (okOr_eq_ok.1 ha)

theorem failsOnly_mapError {y : Except ε' α} {g : ε' → ε} (h : ∀ e, P (g e)) :
    FailsOnly P (y.mapError g) := by
  cases y with
  | error e => exact failsOnly_error (h e)
  | ok a => exact failsOnly_ok

end

end Fallible
