import Arena0.FrameCodec

/-!
# The wire envelope

One frame is the length of what follows, the version and the body.  The writer
collects the body in a bounded buffer, which may refuse a part of a value; the
reader wants exactly one complete frame of the current version.

Sizes are natural numbers: no sum of two lengths reaches the limit of a machine word.
-/

namespace Arena0

open Borsh Fallible

inductive WireError where
  | encode (message : String)
  | decode (message : String)
  | valueTooLarge (name : String) (size max : ℕ)
  | collectionTooLarge (name : String) (size max : ℕ)
  | frameTooShort (expected actual : ℕ)
  | payloadTooLarge (size max : ℕ)
  | truncated (declared actual : ℕ)
  | trailingBytes (expected actual : ℕ)
  | unsupportedVersion (expected actual : ℕ)
  deriving DecidableEq

/-- An error of a writer or a reader: a wire error inside, or its text only. -/
inductive StreamError where
  | wire (error : WireError)
  | other (message : String)
  deriving DecidableEq

/-- Bounds are wire errors; the errors of fixed fields are known by their text. -/
def StreamError.ofFrame : FrameError → StreamError
  | .valueTooLarge name size max => .wire (.valueTooLarge name size max)
  | error => .other (toString error)

/-! ## Writers -/

/-- A computation that writes into a buffer and may fail; the buffer survives a failure. -/
abbrev Writing (σ : Type) := ExceptT StreamError (StateM σ)

def vecWrite (bytes : Bytes) : Writing Bytes Unit :=
  ExceptT.mk fun written => (.ok (), written ++ bytes)

def toVec (serialize : (Bytes → Writing Bytes Unit) → Writing Bytes Unit) :
    Except StreamError Bytes :=
  match StateT.run (ExceptT.run (serialize vecWrite)) [] with
  | (.ok (), written) => .ok written
  | (.error error, _) => .error error

structure BoundedWriter where
  bytes : Bytes
  max : ℕ
  overflowed : Bool
  attemptedSize : ℕ

namespace BoundedWriter

def new (max : ℕ) : BoundedWriter := ⟨[], max, false, 0⟩

def write (bytes : Bytes) : Writing BoundedWriter Unit :=
  ExceptT.mk fun writer =>
    let attemptedSize := writer.bytes.length + bytes.length
    if writer.max < attemptedSize then
      (.error (.other "wire body exceeds codec bound"),
        { writer with overflowed := true, attemptedSize := attemptedSize })
    else (.ok (), { writer with bytes := writer.bytes ++ bytes })

end BoundedWriter

section

variable {m : Type → Type} [Monad m] [MonadExceptOf StreamError m] (write : Bytes → m Unit)

def check (x : Except StreamError Unit) : m Unit :=
  match x with
  | .ok () => pure ()
  | .error error => throw error

def writeAll : List Bytes → m Unit
  | [] => pure ()
  | part :: parts => do
    write part
    writeAll parts

def checkCollectionLen (len max : ℕ) (name : String) : Except StreamError Unit :=
  ensure (len ≤ max) (.wire (.collectionTooLarge name len max))

def writeCollectionLen (len max : ℕ) (name : String) : m Unit := do
  check (checkCollectionLen len max name)
  check (ensure (len < 256 ^ 4) (.wire (.collectionTooLarge name len (256 ^ 4 - 1))))
  write (Codec.leBytes 4 len)

def writeBoundedBytes (bytes : Bytes) (max : ℕ) (name : String) : m Unit := do
  check ((checkBoundedLen bytes.length max name).mapError .ofFrame)
  write (Codec.leBytes 4 bytes.length)
  write bytes

end

def readCollectionLen (bytes : Bytes) (max : ℕ) (name : String) :
    Except StreamError (ℕ × Bytes) := do
  let (length, rest) ← okOr ((Codec.le 4).decode bytes) (.ofFrame .field)
  ensure (length ≤ max) (.wire (.collectionTooLarge name length max))
  return (length, rest)

/-! ## The codec -/

def frameHeaderSize : ℕ := 4
def frameVersion : ℕ := 2
def frameVersionSize : ℕ := 2

structure WireCodec where
  maxSize : ℕ

namespace WireCodec

variable {α : Type} (codec : WireCodec)

def checkBodySize (size : ℕ) : Except WireError Unit :=
  ensure (size ≤ codec.maxSize) (.payloadTooLarge size codec.maxSize)

def frame (body : Bytes) : Except WireError Bytes := do
  codec.checkBodySize body.length
  let framedBodyLen := body.length + frameVersionSize
  ensure (framedBodyLen < 256 ^ 4) (.payloadTooLarge framedBodyLen (256 ^ 4 - 1))
  return Codec.leBytes 4 framedBodyLen ++ Codec.leBytes 2 frameVersion ++ body

def encode (serialize : (Bytes → Writing BoundedWriter Unit) → Writing BoundedWriter Unit) :
    Except WireError Bytes :=
  match StateT.run (ExceptT.run (serialize BoundedWriter.write)) (.new codec.maxSize) with
  | (result, writer) =>
    if writer.overflowed = true then .error (.payloadTooLarge writer.attemptedSize codec.maxSize)
    else
      match result with
      | .ok () => codec.frame writer.bytes
      | .error (.wire error) => .error error
      | .error (.other message) => .error (.encode message)

def decodeFrame (bytes : Bytes) : Except WireError Bytes := do
  ensure (frameHeaderSize ≤ bytes.length) (.frameTooShort frameHeaderSize bytes.length)
  let bodyLen := Codec.leNat (bytes.take frameHeaderSize)
  ensure (frameVersionSize ≤ bodyLen)
    (.frameTooShort (frameHeaderSize + frameVersionSize) (frameHeaderSize + bodyLen))
  codec.checkBodySize (bodyLen - frameVersionSize)
  let expected := frameHeaderSize + bodyLen
  ensure (expected ≤ bytes.length) (.truncated bodyLen (bytes.length - frameHeaderSize))
  ensure (bytes.length ≤ expected) (.trailingBytes expected bytes.length)
  let actualVersion := Codec.leNat ((bytes.drop frameHeaderSize).take frameVersionSize)
  ensure (actualVersion = frameVersion) (.unsupportedVersion frameVersion actualVersion)
  return bytes.drop (frameHeaderSize + frameVersionSize)

/-- Decode one exact frame; the reader must consume its whole body. -/
def decode (deserialize : Bytes → Except StreamError (α × Bytes)) (bytes : Bytes) :
    Except WireError α := do
  let body ← codec.decodeFrame bytes
  match deserialize body with
  | .ok (value, []) => return value
  | .ok (_, _ :: _) => throw (.decode "Not all bytes read")
  | .error (.wire error) => throw error
  | .error (.other message) => throw (.decode message)

end WireCodec

/-! ## What is written -/

section

variable {σ α β : Type}

theorem Writing.run_bind (x : Writing σ α) (f : α → Writing σ β) (s : σ) :
    StateT.run (ExceptT.run (x >>= f)) s =
      match StateT.run (ExceptT.run x) s with
      | (.ok a, t) => StateT.run (ExceptT.run (f a)) t
      | (.error error, t) => (.error error, t) := by
  rw [ExceptT.run_bind, StateT.run_bind]
  cases StateT.run (ExceptT.run x) s with
  | mk result t =>
    cases result with
    | ok a => rfl
    | error error => rfl

theorem run_writeAll_vecWrite (parts : List Bytes) (written : Bytes) :
    StateT.run (ExceptT.run (writeAll vecWrite parts)) written =
      (.ok (), written ++ parts.flatten) := by
  induction parts generalizing written with
  | nil =>
    rw [List.flatten_nil, List.append_nil]
    rfl
  | cons part parts ih =>
    rw [writeAll, Writing.run_bind]
    change StateT.run (ExceptT.run (writeAll vecWrite parts)) (written ++ part) = _
    rw [ih, List.flatten_cons, List.append_assoc]

theorem run_forM_write {parts : List Bytes} {w : BoundedWriter}
    (h : w.bytes.length + parts.flatten.length ≤ w.max) :
    StateT.run (ExceptT.run (writeAll BoundedWriter.write parts)) w =
      (.ok (), { w with bytes := w.bytes ++ parts.flatten }) := by
  induction parts generalizing w with
  | nil =>
    rw [List.flatten_nil, List.append_nil]
    rfl
  | cons part parts ih =>
    rw [List.flatten_cons, List.length_append] at h
    have hwrite : StateT.run (ExceptT.run (BoundedWriter.write part)) w =
        (.ok (), { w with bytes := w.bytes ++ part }) :=
      if_neg (by omega)
    rw [writeAll, Writing.run_bind, hwrite]
    dsimp only
    rw [ih (by rw [List.length_append]; dsimp only; omega), List.flatten_cons, List.append_assoc]

theorem overflowed_forM_write {parts : List Bytes} {w : BoundedWriter}
    (h : w.max < w.bytes.length + parts.flatten.length) (hw : w.bytes.length ≤ w.max) :
    (StateT.run (ExceptT.run (writeAll BoundedWriter.write parts)) w).2.overflowed = true := by
  induction parts generalizing w with
  | nil =>
    rw [List.flatten_nil, List.length_nil] at h
    omega
  | cons part parts ih =>
    rw [List.flatten_cons, List.length_append] at h
    rw [writeAll, Writing.run_bind]
    by_cases hlt : w.max < w.bytes.length + part.length
    · have hwrite : StateT.run (ExceptT.run (BoundedWriter.write part)) w =
          (.error (.other "wire body exceeds codec bound"), { w with
            overflowed := true, attemptedSize := w.bytes.length + part.length }) :=
        if_pos hlt
      rw [hwrite]
    · have hwrite : StateT.run (ExceptT.run (BoundedWriter.write part)) w =
          (.ok (), { w with bytes := w.bytes ++ part }) :=
        if_neg hlt
      rw [hwrite]
      exact ih (by rw [List.length_append]; dsimp only; omega)
        (by rw [List.length_append]; dsimp only; omega)

end

section

variable {m : Type → Type} [Monad m] [MonadExceptOf StreamError m]
  {write : Bytes → m Unit}

@[simp] theorem check_ok : check (m := m) (.ok ()) = pure () := rfl

theorem check_ensure {c : Prop} [Decidable c] {error : StreamError} (h : c) :
    check (m := m) (ensure c error) = pure () := by
  rw [ensure, if_pos h, check_ok]

variable [LawfulMonad m]

theorem writeCollectionLen_eq {len max : ℕ} {name : String} (h : len ≤ max) (hmax : max < 256 ^ 4) :
    writeCollectionLen write len max name = write (Codec.leBytes 4 len) := by
  rw [writeCollectionLen, checkCollectionLen, check_ensure h, check_ensure (by omega), pure_bind,
    pure_bind]

theorem writeBoundedBytes_eq {bytes : Bytes} {max : ℕ} {name : String} (h : bytes.length ≤ max)
    (hmax : max < 256 ^ 4) :
    writeBoundedBytes write bytes max name =
      writeAll write [Codec.leBytes 4 bytes.length, bytes] := by
  have hok : checkBoundedLen bytes.length max name = .ok () := by
    simp only [checkBoundedLen, bind_eq_ok, ensure_eq_ok]
    exact ⟨(), h, by omega⟩
  rw [writeBoundedBytes, hok, Except.mapError, check, pure_bind, writeAll, writeAll, writeAll,
    bind_pure_unit]

omit [MonadExceptOf StreamError m] in
theorem writeAll_append (parts parts' : List Bytes) :
    writeAll write (parts ++ parts') = (writeAll write parts >>= fun _ => writeAll write parts') := by
  induction parts with
  | nil => rw [List.nil_append, writeAll, pure_bind]
  | cons part parts ih => rw [List.cons_append, writeAll, ih, writeAll, bind_assoc]

end

namespace WireCodec

variable {α : Type} {codec : WireCodec}
  {serialize : (Bytes → Writing BoundedWriter Unit) → Writing BoundedWriter Unit}

def envelope (body : Bytes) : Bytes :=
  Codec.leBytes 4 (body.length + frameVersionSize) ++ Codec.leBytes 2 frameVersion ++ body

theorem take_envelope (body : Bytes) :
    (envelope body).take frameHeaderSize = Codec.leBytes 4 (body.length + frameVersionSize) := by
  rw [envelope, List.append_assoc]
  exact List.take_left' (Codec.length_leBytes 4 _)

theorem drop_envelope (body : Bytes) :
    (envelope body).drop frameHeaderSize = Codec.leBytes 2 frameVersion ++ body := by
  rw [envelope, List.append_assoc]
  exact List.drop_left' (Codec.length_leBytes 4 _)

theorem take_drop_envelope (body : Bytes) :
    ((envelope body).drop frameHeaderSize).take frameVersionSize =
      Codec.leBytes 2 frameVersion := by
  rw [drop_envelope]
  exact List.take_left' (Codec.length_leBytes 2 _)

theorem length_envelope (body : Bytes) :
    (envelope body).length = frameHeaderSize + (body.length + frameVersionSize) := by
  simp only [envelope, List.length_append, Codec.length_leBytes, frameHeaderSize, frameVersionSize]
  omega

theorem frame_eq_ok {body out : Bytes} :
    codec.frame body = .ok out ↔ body.length ≤ codec.maxSize ∧
      body.length + frameVersionSize < 256 ^ 4 ∧ envelope body = out := by
  simp only [frame, checkBodySize, bind_eq_ok, ensure_eq_ok, pure_eq_ok]
  constructor
  · rintro ⟨_, hsize, _, hlt, hout⟩
    exact ⟨hsize, hlt, hout⟩
  · rintro ⟨hsize, hlt, hout⟩
    exact ⟨(), hsize, (), hlt, hout⟩

/-- A value that is written part by part. -/
theorem encode_eq_ok
    {parts : List Bytes} (h : serialize BoundedWriter.write = writeAll BoundedWriter.write parts)
    {out : Bytes} :
    codec.encode serialize = .ok out ↔ parts.flatten.length ≤ codec.maxSize ∧
      parts.flatten.length + frameVersionSize < 256 ^ 4 ∧ envelope parts.flatten = out := by
  rw [encode, h]
  by_cases hle : parts.flatten.length ≤ codec.maxSize
  · rw [run_forM_write (by simpa [BoundedWriter.new] using hle)]
    exact frame_eq_ok
  · have hover : (StateT.run (ExceptT.run (writeAll BoundedWriter.write parts))
        (.new codec.maxSize)).2.overflowed = true :=
      overflowed_forM_write (by simpa [BoundedWriter.new] using hle) (Nat.zero_le _)
    split
    next result writer heq =>
      rw [heq] at hover
      rw [if_pos hover]
      exact ⟨nofun, fun h => absurd h.1 hle⟩

theorem encode_error
    {error : StreamError} (h : serialize BoundedWriter.write = throw error) (out : Bytes) :
    codec.encode serialize ≠ .ok out := by
  rw [encode, h]
  cases error with
  | wire error => exact nofun
  | other message => exact nofun

/-! ## What is read -/

theorem decodeFrame_eq_ok {bytes body : Bytes} :
    codec.decodeFrame bytes = .ok body ↔ body.length ≤ codec.maxSize ∧
      body.length + frameVersionSize < 256 ^ 4 ∧ bytes = envelope body := by
  have hheader : frameHeaderSize = 4 := rfl
  have hversion : frameVersionSize = 2 := rfl
  simp only [decodeFrame, checkBodySize, bind_eq_ok, ensure_eq_ok, pure_eq_ok]
  constructor
  · rintro ⟨_, hlength, _, hbody, _, hsize, _, htruncated, _, htrailing, _, hactual, rfl⟩
    have htake : (bytes.take frameHeaderSize).length = 4 := by
      rw [List.length_take]
      omega
    have htake' : ((bytes.drop frameHeaderSize).take frameVersionSize).length = 2 := by
      rw [List.length_take, List.length_drop]
      omega
    have hlt := Codec.leNat_lt (bytes.take frameHeaderSize)
    rw [htake] at hlt
    have hle := Codec.leBytes_leNat (bytes.take frameHeaderSize)
    rw [htake] at hle
    have hle' := Codec.leBytes_leNat ((bytes.drop frameHeaderSize).take frameVersionSize)
    rw [htake', hactual] at hle'
    have hdrop : (bytes.drop (frameHeaderSize + frameVersionSize)).length + frameVersionSize =
        Codec.leNat (bytes.take frameHeaderSize) := by
      rw [List.length_drop]
      omega
    refine ⟨by omega, by omega, ?_⟩
    rw [envelope, hdrop, hle, hle', List.append_assoc, ← List.drop_drop,
      List.take_append_drop, List.take_append_drop]
  · rintro ⟨hsize, hlt, rfl⟩
    have hlength := length_envelope body
    have hnat : Codec.leNat (Codec.leBytes 4 (body.length + frameVersionSize)) =
        body.length + frameVersionSize :=
      Codec.leNat_leBytes 4 _ hlt
    refine ⟨(), by omega, (), ?_, (), ?_, (), ?_, (), ?_, (), ?_, ?_⟩
    · rw [take_envelope, hnat]
      omega
    · rw [take_envelope, hnat]
      omega
    · rw [take_envelope, hnat]
      omega
    · rw [take_envelope, hnat]
      omega
    · rw [take_drop_envelope]
      exact Codec.leNat_leBytes 2 _ (by decide)
    · rw [← List.drop_drop, drop_envelope]
      exact List.drop_left' (Codec.length_leBytes 2 _)

theorem decode_eq_ok {deserialize : Bytes → Except StreamError (α × Bytes)} {bytes : Bytes}
    {a : α} :
    codec.decode deserialize bytes = .ok a ↔
      ∃ body, codec.decodeFrame bytes = .ok body ∧ deserialize body = .ok (a, []) := by
  rw [decode, bind_eq_ok]
  refine exists_congr fun body => and_congr_right fun _ => ?_
  split
  next value heq => simp [heq]
  next value b rest heq => simp [heq]
  next error heq => simp [heq]
  next message heq => simp [heq]

end WireCodec

end Arena0
