import Mathlib

/-!
# Sanitizing program text

The scanner of the terminal client over characters: control sequences that end in `m` and
newlines are kept, every other escape and control is dropped.
-/

namespace Arena0.Sanitize

def maxSlotBytes : ℕ := 64 * 1024

def isControl (c : Char) : Bool := c.toNat ≤ 0x1f ∨ 0x7f ≤ c.toNat ∧ c.toNat ≤ 0x9f

def isParameter (c : Char) : Bool := 0x30 ≤ c.toNat ∧ c.toNat ≤ 0x3f

def isIntermediate (c : Char) : Bool := 0x20 ≤ c.toNat ∧ c.toNat ≤ 0x2f

def isFinal (c : Char) : Bool := 0x40 ≤ c.toNat ∧ c.toNat ≤ 0x7e

def stripOrKeepCsi (keepSgr : Bool) (chars : List Char) : List Char × List Char :=
  let rest := chars.dropWhile isParameter
  match rest.dropWhile isIntermediate with
  | [] => ([], [])
  | final :: after =>
    if isFinal final = false then (final :: after, [])
    else (after, if keepSgr = true ∧ final = 'm' then
      '\x1b' :: '[' :: (chars.takeWhile isParameter ++ (rest.takeWhile isIntermediate ++ [final]))
      else [])

/-- `strip_until_osc_terminator` where `BEL` ends the string, else `strip_until_st`. -/
def stripUntil (bel : Bool) : List Char → List Char
  | [] => []
  | c :: rest =>
    if bel = true ∧ c = '\x07' then rest
    else if c = '\x1b' ∧ rest.head? = some '\\' then rest.tail
    else stripUntil bel rest

def stripOrKeepEscape (keepSgr : Bool) : List Char → List Char × List Char
  | [] => ([], [])
  | kind :: rest =>
    if kind = '[' then stripOrKeepCsi keepSgr rest
    else if kind = ']' then (stripUntil true rest, [])
    else if kind ∈ ['P', 'X', '^', '_'] then (stripUntil false rest, [])
    else (rest, [])

/-- A complete control sequence with final `m`. -/
def Kept (s : List Char) : Prop :=
  ∃ ps is, (∀ c ∈ ps, isParameter c = true) ∧ (∀ c ∈ is, isIntermediate c = true) ∧
    s = '\x1b' :: '[' :: (ps ++ (is ++ ['m']))

variable {keepSgr : Bool} {l s after : List Char} {c : Char} {S : List Char → Prop}

theorem stripUntil_suffix (bel : Bool) (l : List Char) : stripUntil bel l <:+ l := by
  induction l with
  | nil => exact List.suffix_rfl
  | cons c rest ih =>
    rw [stripUntil]
    split
    · exact List.suffix_cons c rest
    · split
      · exact (List.tail_suffix rest).trans (List.suffix_cons c rest)
      · exact ih.trans (List.suffix_cons c rest)

theorem escape_spec (keepSgr : Bool) (l : List Char) :
    (stripOrKeepEscape keepSgr l).1 <:+ l ∧ ((stripOrKeepEscape keepSgr l).2 = [] ∨
      keepSgr = true ∧ Kept (stripOrKeepEscape keepSgr l).2 ∧
        '\x1b' :: l = (stripOrKeepEscape keepSgr l).2 ++ (stripOrKeepEscape keepSgr l).1) := by
  cases l with
  | nil => exact ⟨List.suffix_rfl, .inl rfl⟩
  | cons kind rest =>
    rw [stripOrKeepEscape]
    split
    next hkind =>
      subst hkind
      have hcut : rest = rest.takeWhile isParameter ++
          ((rest.dropWhile isParameter).takeWhile isIntermediate ++
            (rest.dropWhile isParameter).dropWhile isIntermediate) := by
        rw [List.takeWhile_append_dropWhile, List.takeWhile_append_dropWhile]
      rw [stripOrKeepCsi]
      split
      · exact ⟨List.nil_suffix, .inl rfl⟩
      next final after hfinal =>
        rw [hfinal] at hcut
        have hsuffix : final :: after <:+ '[' :: rest := by
          refine List.IsSuffix.trans ?_ (List.suffix_cons _ _)
          exact ⟨_, by rw [List.append_assoc]; exact hcut.symm⟩
        split
        · exact ⟨hsuffix, .inl rfl⟩
        · refine ⟨(List.suffix_cons _ _).trans hsuffix, ?_⟩
          split
          next hkeep =>
            refine .inr ⟨hkeep.1, ⟨_, _, fun _ => List.mem_takeWhile_imp,
              fun _ => List.mem_takeWhile_imp, by rw [hkeep.2]⟩, ?_⟩
            conv_lhs => rw [hcut]
            simp
          · exact .inl rfl
    · split
      · exact ⟨(stripUntil_suffix _ _).trans (List.suffix_cons _ _), .inl rfl⟩
      · split
        · exact ⟨(stripUntil_suffix _ _).trans (List.suffix_cons _ _), .inl rfl⟩
        · exact ⟨List.suffix_cons _ _, .inl rfl⟩

theorem span_append {p : Char → Bool} {w : List Char} (rest : List Char) (hw : ∀ c ∈ w, p c = true)
    (hr : ∀ c ∈ rest.head?, p c = false) :
    (w ++ rest).takeWhile p = w ∧ (w ++ rest).dropWhile p = rest := by
  rw [List.takeWhile_append_of_pos hw, List.dropWhile_append_of_pos hw]
  cases rest with
  | nil => simp
  | cons c rest => simp [hr c rfl]

theorem escape_kept (hs : Kept s) (h : '\x1b' :: l = s ++ after) :
    stripOrKeepEscape true l = (after, s) := by
  obtain ⟨ps, is, hps, his, rfl⟩ := hs
  have hl : l = '[' :: (ps ++ (is ++ 'm' :: after)) := by simpa using h
  have hinter := span_append ('m' :: after) his (by rintro _ ⟨⟩; decide)
  have hparam := span_append (is ++ 'm' :: after) hps (by
    cases is with
    | nil => rintro _ ⟨⟩; decide
    | cons c is =>
      rintro _ ⟨⟩
      have := his c List.mem_cons_self
      simp only [isIntermediate, isParameter, decide_eq_true_eq, decide_eq_false_iff_not] at this ⊢
      omega)
  rw [hl, stripOrKeepEscape, if_pos rfl, stripOrKeepCsi]
  simp only [hparam, hinter]
  rw [if_neg (by decide), if_pos (by simp)]

def scan (keepSgr : Bool) : List Char → List Char
  | [] => []
  | c :: rest =>
    if c = '\n' then (if keepSgr then [c] else []) ++ scan keepSgr rest
    else if c = '\x1b' then
      (stripOrKeepEscape keepSgr rest).2 ++ scan keepSgr (stripOrKeepEscape keepSgr rest).1
    else if isControl c then scan keepSgr rest
    else c :: scan keepSgr rest
termination_by chars => chars.length
decreasing_by
  · exact Nat.lt_succ_self _
  · exact Nat.lt_succ_of_le (escape_spec _ _).1.length_le
  · exact Nat.lt_succ_self _
  · exact Nat.lt_succ_self _

def bytes (l : List Char) : ℕ := (l.map Char.utf8Size).sum

def truncateOnCharBoundary (max : ℕ) : List Char → List Char
  | [] => []
  | c :: rest =>
    if c.utf8Size ≤ max then c :: truncateOnCharBoundary (max - c.utf8Size) rest else []

def sanitize (input : List Char) : List Char := scan true (truncateOnCharBoundary maxSlotBytes input)

def stripAnsi (input : List Char) : List Char := scan false input

/-! ## The language of the output -/

/-- Digits, semicolons and colons between `ESC [` and `m`. -/
def Sgr (s : List Char) : Prop :=
  ∃ ps, (∀ c ∈ ps, c.isDigit = true ∨ c = ';' ∨ c = ':') ∧ s = '\x1b' :: '[' :: (ps ++ ['m'])

/-- Printable characters, newlines and sequences. -/
inductive Text (S : List Char → Prop) : List Char → Prop
  | nil : Text S []
  | char {c rest} : isControl c = false ∨ c = '\n' → Text S rest → Text S (c :: rest)
  | sequence {s rest} : S s → Text S rest → Text S (s ++ rest)

/-- Every complete sequence the scanner comes to is one of `S`. -/
def Reads (S : List Char → Prop) : List Char → Prop
  | [] => True
  | c :: rest =>
    if c = '\x1b' then (∀ s after, Kept s → c :: rest = s ++ after → S s) ∧
      Reads S (stripOrKeepEscape true rest).1
    else Reads S rest
termination_by chars => chars.length
decreasing_by
  · exact Nat.lt_succ_of_le (escape_spec _ _).1.length_le
  · exact Nat.lt_succ_self _

/-- The scanner goes from character to character and past each escape. -/
theorem scan_induction (keepSgr : Bool) {P : List Char → Prop} (nil : P [])
    (char : ∀ c rest, c ≠ '\x1b' → P rest → P (c :: rest))
    (escape : ∀ rest, P (stripOrKeepEscape keepSgr rest).1 → P ('\x1b' :: rest)) (l) : P l := by
  induction h : l.length using Nat.strong_induction_on generalizing l with
  | _ n ih =>
    subst h
    cases l with
    | nil => exact nil
    | cons c rest =>
      by_cases hc : c = '\x1b'
      · rw [hc]
        exact escape rest (ih _ (Nat.lt_succ_of_le (escape_spec _ _).1.length_le) _ rfl)
      · exact char c rest hc (ih _ (Nat.lt_succ_self _) _ rfl)

theorem scan_char (hc : c ≠ '\x1b') : scan keepSgr (c :: l) =
    (if c = '\n' ∧ keepSgr = true ∨ isControl c = false then [c] else []) ++ scan keepSgr l := by
  have hnl : isControl '\n' = true := by decide
  rw [scan]
  split
  next h =>
    subst h
    cases keepSgr <;> simp [hnl]
  next h => cases hcontrol : isControl c <;> simp [h]

theorem scan_escape : scan keepSgr ('\x1b' :: l) =
    (stripOrKeepEscape keepSgr l).2 ++ scan keepSgr (stripOrKeepEscape keepSgr l).1 := by
  rw [scan, if_neg (by decide), if_pos rfl]

theorem text_scan {whole : List Char} (hr : Reads S l) (hw : l <:+ whole) :
    Text (fun s => S s ∧ s <:+: whole) (scan true l) := by
  induction l using scan_induction true with
  | nil => rw [scan]; exact .nil
  | char c rest hc ih =>
    rw [Reads, if_neg hc] at hr
    have hrest := ih hr ((List.suffix_cons c rest).trans hw)
    rw [scan_char hc]
    split
    next h => exact .char (by tauto) hrest
    · exact hrest
  | escape rest ih =>
    rw [Reads, if_pos rfl] at hr
    obtain ⟨hsuffix, hout⟩ := escape_spec true rest
    have hrest := ih hr.2 ((hsuffix.trans (List.suffix_cons _ _)).trans hw)
    rw [scan_escape]
    rcases hout with hnil | ⟨-, hkept, heq⟩
    · rwa [hnil]
    · refine .sequence ⟨hr.1 _ _ hkept heq, ?_⟩ hrest
      exact (List.prefix_append _ _).isInfix.trans (heq ▸ hw.isInfix)

theorem scan_of_text (hS : ∀ s, S s → Kept s) (h : Text S l) : scan true l = l := by
  induction h with
  | nil => rw [scan]
  | @char c rest hc _ ih =>
    rw [scan_char (by rintro rfl; revert hc; decide), ih, if_pos (by tauto)]
    rfl
  | @sequence s rest hs _ ih =>
    obtain ⟨ps, is, -, -, heq⟩ := hS s hs
    have hcons : s ++ rest = '\x1b' :: ('[' :: (ps ++ (is ++ ['m']))  ++ rest) := by rw [heq]; rfl
    rw [hcons, scan_escape, escape_kept (hS s hs) hcons.symm, ih, ← hcons]

theorem text_append (hS : ∀ s, S s → Kept s) (hs : Kept s) (h : Text S (s ++ after)) :
    S s ∧ Text S after := by
  obtain ⟨l, hl⟩ : ∃ l, '\x1b' :: l = s ++ after := by
    obtain ⟨ps, is, -, -, rfl⟩ := hs
    exact ⟨_, rfl⟩
  rw [← hl] at h
  generalize hx : '\x1b' :: l = x at h
  cases h with
  | nil => cases hx
  | char hc hrest =>
    obtain ⟨rfl, -⟩ := List.cons.inj hx
    exact absurd hc (by decide)
  | sequence hs' hrest =>
    obtain ⟨rfl, rfl⟩ := Prod.mk.inj ((escape_kept hs hl).symm.trans (escape_kept (hS _ hs') hx))
    exact ⟨hs', hrest⟩

theorem reads_of_text (hS : ∀ s, S s → Kept s) (h : Text S (scan true l)) : Reads S l := by
  induction l using scan_induction true with
  | nil => rw [Reads]; trivial
  | char c rest hc ih =>
    rw [Reads, if_neg hc]
    rw [scan_char hc] at h
    refine ih ?_
    split at h
    · generalize hx : [c] ++ scan true rest = x at h
      cases h with
      | nil => cases hx
      | char _ hrest =>
        obtain rfl : scan true rest = _ := (List.cons.inj hx).2
        exact hrest
      | sequence hs _ =>
        obtain ⟨ps, is, -, -, rfl⟩ := hS _ hs
        exact absurd (List.cons.inj hx).1 hc
    · exact h
  | escape rest ih =>
    rw [Reads, if_pos rfl]
    rw [scan_escape] at h
    rcases (escape_spec true rest).2 with hnil | ⟨-, hkept, -⟩
    · rw [hnil] at h
      refine ⟨fun s after hs heq => ?_, ih h⟩
      rw [escape_kept hs heq] at hnil
      obtain ⟨ps, is, -, -, rfl⟩ := hs
      cases hnil
    · obtain ⟨hS', hrest⟩ := text_append hS hkept h
      refine ⟨fun s after hs heq => ?_, ih hrest⟩
      rwa [escape_kept hs heq] at hS'

theorem kept_of_sgr (h : Sgr s) : Kept s := by
  obtain ⟨ps, hps, rfl⟩ := h
  refine ⟨ps, [], fun c hc => ?_, nofun, rfl⟩
  rcases hps c hc with h | rfl | rfl
  · simp only [Char.isDigit, Bool.and_eq_true, decide_eq_true_eq, isParameter] at h ⊢
    exact ⟨h.1, le_trans h.2 (by decide)⟩
  · decide
  · decide

theorem scan_sublist (keepSgr : Bool) (l : List Char) : (scan keepSgr l).Sublist l := by
  induction l using scan_induction keepSgr with
  | nil => rw [scan]
  | char c rest hc ih =>
    rw [scan_char hc]
    split
    · exact ih.cons_cons c
    · exact ih.cons c
  | escape rest ih =>
    rw [scan_escape]
    obtain ⟨hsuffix, hnil | ⟨-, -, heq⟩⟩ := escape_spec keepSgr rest
    · rw [hnil]
      exact (ih.trans hsuffix.sublist).cons _
    · rw [heq]
      exact ih.append_left _

theorem not_control_of_mem_strip : ∀ c ∈ scan false l, isControl c = false := by
  induction l using scan_induction false with
  | nil => rw [scan]; nofun
  | char c rest hc ih =>
    rw [scan_char hc]
    split
    next h => exact List.forall_mem_cons.2 ⟨by simpa using h, ih⟩
    · exact ih
  | escape rest ih =>
    rw [scan_escape]
    obtain ⟨-, hnil | ⟨hfalse, -⟩⟩ := escape_spec false rest
    · rwa [hnil]
    · cases hfalse

theorem strip_of_not_control (h : ∀ c ∈ l, isControl c = false) : scan false l = l := by
  induction l with
  | nil => rw [scan]
  | cons c rest ih =>
    have hc := h c List.mem_cons_self
    rw [scan_char (by rintro rfl; revert hc; decide), ih fun c hc => h c (List.mem_cons_of_mem _ hc),
      if_pos (.inr hc)]
    rfl

theorem truncate_spec (max : ℕ) (l : List Char) : bytes (truncateOnCharBoundary max l) ≤ max ∧
    truncateOnCharBoundary max l <+: l ∧ (bytes l ≤ max → truncateOnCharBoundary max l = l) := by
  induction l generalizing max with
  | nil => exact ⟨Nat.zero_le _, List.prefix_rfl, fun _ => rfl⟩
  | cons c rest ih =>
    obtain ⟨hle, hpre, hid⟩ := ih (max - c.utf8Size)
    have hcons : ∀ l, bytes (c :: l) = c.utf8Size + bytes l := fun l => List.sum_cons
    rw [truncateOnCharBoundary, hcons]
    split
    next hc =>
      rw [hcons]
      exact ⟨by omega, List.cons_prefix_cons.2 ⟨rfl, hpre⟩, fun h => by rw [hid (by omega)]⟩
    · exact ⟨Nat.zero_le _, List.nil_prefix, fun h => by omega⟩

/-! ## Terminal safety -/

structure TerminalSafe (input : List Char) : Prop where
  within : bytes (sanitize input) ≤ maxSlotBytes
  text : Text (fun s => Sgr s ∧ s <:+: input) (sanitize input)
  stripped : ∀ c ∈ stripAnsi input, isControl c = false
  idempotent : sanitize (sanitize input) = sanitize input ∧
    stripAnsi (stripAnsi input) = stripAnsi input
  unchanged : Text Sgr input → bytes input ≤ maxSlotBytes → sanitize input = input

theorem Text.imp {S' : List Char → Prop} (h : Text S l) (himp : ∀ s, S s → S' s) : Text S' l := by
  induction h with
  | nil => exact .nil
  | char hc _ ih => exact .char hc ih
  | sequence hs _ ih => exact .sequence (himp _ hs) ih

theorem reads_kept (l : List Char) : Reads Kept l := by
  induction l using scan_induction true with
  | nil => rw [Reads]; trivial
  | char c rest hc ih => rwa [Reads, if_neg hc]
  | escape rest ih =>
    rw [Reads, if_pos rfl]
    exact ⟨fun _ _ hs _ => hs, ih⟩

theorem bytes_sanitize_le (input : List Char) : bytes (sanitize input) ≤ maxSlotBytes :=
  (((scan_sublist true _).map _).sum_le_sum fun _ _ => Nat.zero_le _).trans (truncate_spec _ input).1

/-- Sanitized text is safe exactly when every complete sequence with final `m` that the scanner
comes to has only digits, semicolons and colons. -/
theorem terminalSafe_iff_reads_sgr (input : List Char) :
    TerminalSafe input ↔ Reads Sgr (truncateOnCharBoundary maxSlotBytes input) := by
  have hid : ∀ l, Text Kept l → bytes l ≤ maxSlotBytes → sanitize l = l := by
    intro l hl hle
    rw [sanitize, (truncate_spec _ l).2.2 hle, scan_of_text (fun _ h => h) hl]
  constructor
  · intro h
    exact reads_of_text (fun _ => kept_of_sgr) (h.text.imp fun _ hs => hs.1)
  · intro h
    refine ⟨bytes_sanitize_le input, ?_, fun _ => not_control_of_mem_strip _,
      ⟨hid _ ?_ (bytes_sanitize_le _), strip_of_not_control fun _ => not_control_of_mem_strip _⟩,
      fun ht => hid _ (ht.imp fun _ => kept_of_sgr)⟩
    · exact (text_scan h List.suffix_rfl).imp fun s hs =>
        ⟨hs.1, hs.2.trans (truncate_spec _ input).2.1.isInfix⟩
    · exact (text_scan (reads_kept _) List.suffix_rfl).imp fun s hs => hs.1

/-- `ESC [ > 4 ; 1 m` sets a keyboard mode and is kept. -/
theorem not_terminalSafe_private : ¬ ∀ input, TerminalSafe input := by
  intro h
  have hreads := reads_of_text (fun _ => kept_of_sgr)
    ((h ['\x1b', '[', '>', '4', ';', '1', 'm']).text.imp fun _ hs => hs.1)
  rw [truncate_spec _ _ |>.2.2 (by decide), Reads, if_pos rfl] at hreads
  obtain ⟨ps, hps, heq⟩ := hreads.1 _ [] ⟨['>', '4', ';', '1'], [],
    by simp [isParameter], nofun, rfl⟩ rfl
  cases ps with
  | nil => cases heq
  | cons c ps =>
    obtain ⟨rfl, -⟩ := List.cons.inj (List.cons.inj (List.cons.inj heq).2).2
    exact absurd (hps '>' List.mem_cons_self) (by decide)

end Arena0.Sanitize
