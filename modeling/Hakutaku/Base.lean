import Hakutaku.Lib.Wire

/-!
# Machine integers, errors and bounded byte access

The vocabulary shared by every translated function of `hakutaku_core`: the pointer width of the
target, the arithmetic operators of the source with their overflow behaviour, the reader's error
type, and the checked accessors of `format.rs` (`checked_slice`, `read_u32`, `require_zero`, …).

A Rust operator that would panic (or wrap) is kept apart from a reported error: `Stop.panic` is not
an `Error`. Counts, offsets and lengths are `Nat`, and each operation states the width it is done at.
-/

namespace Hakutaku

/-- The targets the crate supports: `usize` has 32 or 64 bits. -/
class Target where
  usizeBits : Nat
  supported : usizeBits = 32 ∨ usizeBits = 64

/-- The 64-bit target, for closed examples. -/
@[reducible] def target64 : Target := ⟨64, .inr rfl⟩

/-- Number of `usize` values. -/
def usizeSize [Target] : Nat := 2 ^ Target.usizeBits

theorem le_usizeSize [Target] : 2 ^ 32 ≤ usizeSize := by
  rcases Target.supported with h | h <;> simp [usizeSize, h]

abbrev Bytes := List UInt8

/-- A Rust byte array `[u8; n]`. -/
@[ext] structure ByteArr (n : Nat) where
  toList : Bytes
  length_toList : toList.length = n
deriving DecidableEq

attribute [simp] ByteArr.length_toList

/-- `[b; n]`. -/
def ByteArr.replicate (n : Nat) (b : UInt8) : ByteArr n := ⟨List.replicate n b, List.length_replicate⟩

instance (n : Nat) : Inhabited (ByteArr n) := ⟨.replicate n 0⟩

/-- Stable 128-bit identity shared by every release of one project. -/
structure ProjectId where
  bytes : ByteArr 16
deriving DecidableEq

/-- Content-derived identity of one immutable segment file. -/
structure SegmentId where
  bytes : ByteArr 32
deriving DecidableEq

/-- The `std::io::ErrorKind`s the code distinguishes or produces. -/
inductive IoKind
  | notFound | alreadyExists | invalidInput | unexpectedEof | interrupted | permissionDenied | other
deriving DecidableEq, Repr

/-- Failures produced by the parser and the random-access reader (`error.rs`). -/
inductive Error
  | io (kind : IoKind)
  | invalidFormat (reason : String)
  | unsupportedVersion (major minor : UInt16)
  | limitExceeded (limit : String)
  | authentication (scope : String)
  | signature
  | releaseRollback (minimum actual : UInt64)
  | projectMismatch
  | segmentUnavailable (id : SegmentId)
  | assetNotFound
  | invalidPath
  | invalidRange
  | compression
deriving DecidableEq

/-- Failures of publisher operations (`pack/src/error.rs`). -/
inductive PackError
  | io (kind : IoKind)
  | core (e : Error)
  | invalidInput (reason : String)
  | identity (reason : String)
  | crypto (scope : String)
deriving DecidableEq

/-- How a translated function can end without a value: by returning `Err`, or by a panic of an
unchecked operator, an index or `copy_from_slice`. -/
inductive Stop (ε : Type)
  | err (e : ε)
  | panic (what : String)
deriving DecidableEq

/-- A computation with error type `ε` that may also panic. -/
abbrev Outcome (ε α : Type) := Except (Stop ε) α

/-- `hakutaku_core::Result`. -/
abbrev Result (α : Type) := Outcome Error α

/-- `hakutaku_pack::Result`. -/
abbrev PackResult (α : Type) := Outcome PackError α

/-- `Err(e)`. -/
def fail {ε α : Type} (e : ε) : Outcome ε α := .error (.err e)

/-- A panic of the process. -/
def panicked {ε α : Type} (what : String) : Outcome ε α := .error (.panic what)

/-- `Option::ok_or`. -/
def okOr {ε α : Type} (o : Option α) (e : ε) : Outcome ε α :=
  match o with
  | some a => .ok a
  | none => fail e

/-- `Error::from`: a failure of the core crate as one of the publisher. -/
def coreResult {α : Type} : Result α → PackResult α
  | .ok a => .ok a
  | .error (.err e) => .error (.err (.core e))
  | .error (.panic what) => .error (.panic what)

/-! ### Results -/

section Result
variable {ε α β : Type} {x : Outcome ε α} {f : α → Outcome ε β} {a : α} {b : β} {e : ε}

@[simp] theorem bind_eq_ok : (x >>= f) = .ok b ↔ ∃ a, x = .ok a ∧ f a = .ok b := by
  cases x <;> simp [bind, Except.bind]

@[simp] theorem ok_bind (a : α) (f : α → Outcome ε β) : ((.ok a : Outcome ε α) >>= f) = f a := rfl

@[simp] theorem error_bind (s : Stop ε) (f : α → Outcome ε β) : ((.error s : Outcome ε α) >>= f) = .error s := rfl

@[simp] theorem pure_eq_ok : (pure a : Outcome ε α) = .ok a := rfl

@[simp] theorem fail_ne_ok : (fail e : Outcome ε α) ≠ .ok a := by simp [fail]

@[simp] theorem panicked_ne_ok {w : String} : (panicked w : Outcome ε α) ≠ .ok a := by simp [panicked]

@[simp] theorem okOr_eq_ok {o : Option α} : okOr o e = .ok a ↔ o = some a := by
  cases o <;> simp [okOr]

@[simp] theorem fail_bind : (fail e : Outcome ε α) >>= f = fail e := rfl

/-- `if c { return Err(e) }`. -/
@[simp] theorem ite_fail_eq_ok {c : Prop} [Decidable c] : (if c then fail e else x) = .ok a ↔ ¬ c ∧ x = .ok a := by
  split <;> simp [*]

/-- `if c { return Err(e) }` in front of what follows. -/
theorem ite_fail_bind_eq_ok {c : Prop} [Decidable c] {g : Unit → Outcome ε β} {y : Outcome ε β} :
    (if c then (fail e : Outcome ε Unit) >>= g else y) = .ok b ↔ ¬ c ∧ y = .ok b := by
  rw [fail_bind, ite_fail_eq_ok]

@[simp] theorem ite_else_fail_eq_ok {c : Prop} [Decidable c] :
    (if c then x else fail e) = .ok a ↔ c ∧ x = .ok a := by
  split <;> simp [*]

/-- Computations that go on in the same way after every value are equal. -/
theorem bind_congr_ok {g : α → Outcome ε β} (h : ∀ a, x = .ok a → f a = g a) : x >>= f = x >>= g := by
  cases x with
  | ok a => exact h a rfl
  | error s => rfl

@[simp] theorem throw_eq_fail : (throw (.err e) : Outcome ε α) = fail e := rfl

end Result

theorem coreResult_eq_ok {α : Type} {x : Result α} {a : α} : coreResult x = .ok a ↔ x = .ok a := by
  rcases x with (e | what) | a
  · exact ⟨nofun, nofun⟩
  · exact ⟨nofun, nofun⟩
  · constructor
    · rintro ⟨⟩
      rfl
    · rintro ⟨⟩
      rfl

/-- The computation reports an error or a value; it does not panic. -/
def NoPanic {ε α : Type} (x : Outcome ε α) : Prop := ∀ w, x ≠ .error (.panic w)

namespace NoPanic
variable {ε α β : Type}

@[simp] theorem ok (a : α) : NoPanic (.ok a : Outcome ε α) := by simp [NoPanic]

@[simp] theorem fail (e : ε) : NoPanic (fail e : Outcome ε α) := by simp [NoPanic, Hakutaku.fail]

@[simp] theorem okOr (o : Option α) (e : ε) : NoPanic (okOr o e) := by
  cases o <;> simp [Hakutaku.okOr]

theorem bind {x : Outcome ε α} {f : α → Outcome ε β} (hx : NoPanic x) (hf : ∀ a, x = .ok a → NoPanic (f a)) :
    NoPanic (x >>= f) := by
  cases x with
  | ok a => exact hf a rfl
  | error s => intro w h; exact hx w (by simpa using h)

theorem ite {c : Prop} [Decidable c] {x y : Outcome ε α} (hx : c → NoPanic x) (hy : ¬ c → NoPanic y) :
    NoPanic (if c then x else y) := by
  split
  · exact hx ‹_›
  · exact hy ‹_›

/-- `if c { return Err(e) }` before a computation that does not panic. -/
theorem failIf {c : Prop} [Decidable c] {e : ε} {f : Unit → Outcome ε α} {x : Outcome ε α}
    (hx : ¬ c → NoPanic x) : NoPanic (if c then Hakutaku.fail e >>= f else x) :=
  .ite (fun _ => .fail _) hx

theorem of_eq_ok {x : Outcome ε α} {a : α} (h : x = .ok a) : NoPanic x := by rw [h]; exact ok a

end NoPanic

/-! ### Arithmetic at a fixed width -/

/-- `checked_add` at a type with `size` values. -/
def checkedAdd (size a b : Nat) : Option Nat := if a + b < size then some (a + b) else none

/-- `checked_mul` at a type with `size` values. -/
def checkedMul (size a b : Nat) : Option Nat := if a * b < size then some (a * b) else none

/-- The operator `+`, which overflows at `size`. -/
def plainAdd {ε : Type} (size a b : Nat) : Outcome ε Nat := if a + b < size then .ok (a + b) else panicked "add overflow"

/-- The operator `*`, which overflows at `size`. -/
def plainMul {ε : Type} (size a b : Nat) : Outcome ε Nat := if a * b < size then .ok (a * b) else panicked "multiply overflow"

/-- The operator `-` on unsigned integers. -/
def plainSub {ε : Type} (a b : Nat) : Outcome ε Nat := if b ≤ a then .ok (a - b) else panicked "subtract overflow"

/-- Number of `u32` values. -/
abbrev u32Size : Nat := 2 ^ 32

/-- Number of `u64` values. -/
abbrev u64Size : Nat := 2 ^ 64

section Arith
variable {ε : Type} {size a b c : Nat}

@[simp] theorem checkedAdd_eq_some : checkedAdd size a b = some c ↔ a + b < size ∧ c = a + b := by
  simp only [checkedAdd]; split <;> simp_all [eq_comm]

@[simp] theorem checkedMul_eq_some : checkedMul size a b = some c ↔ a * b < size ∧ c = a * b := by
  simp only [checkedMul]; split <;> simp_all [eq_comm]

@[simp] theorem plainAdd_eq_ok : (plainAdd size a b : Outcome ε Nat) = .ok c ↔ a + b < size ∧ c = a + b := by
  simp only [plainAdd]; split <;> simp_all [eq_comm, panicked]

@[simp] theorem plainMul_eq_ok : (plainMul size a b : Outcome ε Nat) = .ok c ↔ a * b < size ∧ c = a * b := by
  simp only [plainMul]; split <;> simp_all [eq_comm, panicked]

@[simp] theorem plainSub_eq_ok : (plainSub a b : Outcome ε Nat) = .ok c ↔ b ≤ a ∧ c = a - b := by
  simp only [plainSub]; split <;> simp_all [eq_comm, panicked]

theorem NoPanic.plainAdd (h : a + b < size) : NoPanic (plainAdd size a b : Outcome ε Nat) := by
  simp [Hakutaku.plainAdd, h]

theorem NoPanic.plainMul (h : a * b < size) : NoPanic (plainMul size a b : Outcome ε Nat) := by
  simp [Hakutaku.plainMul, h]

theorem NoPanic.plainSub (h : b ≤ a) : NoPanic (plainSub a b : Outcome ε Nat) := by
  simp [Hakutaku.plainSub, h]

end Arith

@[simp] theorem plainAdd_of_lt {ε : Type} {size a b : Nat} (h : a + b < size) :
    (plainAdd size a b : Outcome ε Nat) = .ok (a + b) := if_pos h

@[simp] theorem plainSub_of_le {ε : Type} {a b : Nat} (h : b ≤ a) : (plainSub a b : Outcome ε Nat) = .ok (a - b) :=
  if_pos h

/-- `u32::try_from(usize)` as used by the encoder. -/
def usizeToU32 (value : Nat) : Result UInt32 :=
  if value < u32Size then .ok (UInt32.ofNat value) else fail (.invalidFormat "value does not fit u32")

/-! ### Checked byte access -/

section Access
variable [Target]
open Wire

def checkedSlice (bytes : Bytes) (offset len : Nat) : Result Bytes := do
  let endOffset ← okOr (checkedAdd usizeSize offset len) (.invalidFormat "slice range overflow")
  if endOffset ≤ bytes.length then return slice bytes offset len
  else fail (.invalidFormat "slice range is out of bounds")

/-- `copy_from_slice` into a fresh array panics unless the lengths agree. -/
def copyToArray (n : Nat) (source : Bytes) : Result (ByteArr n) :=
  if h : source.length = n then .ok ⟨source, h⟩ else panicked "copy_from_slice length"

def readArray (n : Nat) (bytes : Bytes) (offset : Nat) : Result (ByteArr n) := do
  copyToArray n (← checkedSlice bytes offset n)

def readU16 (bytes : Bytes) (offset : Nat) : Result UInt16 := do
  return UInt16.ofNat (leNat (← readArray 2 bytes offset).toList)

def readU32 (bytes : Bytes) (offset : Nat) : Result UInt32 := do
  return UInt32.ofNat (leNat (← readArray 4 bytes offset).toList)

def readU64 (bytes : Bytes) (offset : Nat) : Result UInt64 := do
  return UInt64.ofNat (leNat (← readArray 8 bytes offset).toList)

/-- The index expression `bytes[index]`. -/
def byteAt (bytes : Bytes) (index : Nat) : Result UInt8 :=
  match bytes[index]? with
  | some b => .ok b
  | none => panicked "index out of bounds"

def requireLen (bytes : Bytes) (minimum : Nat) (name : String) : Result Unit :=
  if bytes.length < minimum then fail (.invalidFormat name) else .ok ()

def requireMagic (bytes magic : Bytes) (name : String) : Result Unit :=
  if 8 ≤ bytes.length ∧ bytes.take 8 = magic then .ok () else fail (.invalidFormat name)

/-- `require_zero(bytes, start..stop)`. -/
def requireZero (bytes : Bytes) (start stop : Nat) (name : String) : Result Unit :=
  if start ≤ stop ∧ stop ≤ bytes.length ∧ (slice bytes start (stop - start)).all (· == 0) then .ok ()
  else fail (.invalidFormat name)

end Access

/-- `put_u16`, `put_u32`, `put_u64`: the bytes written for an integer of that width. -/
def u16Bytes (v : UInt16) : Bytes := Wire.leBytes 2 v.toNat
def u32Bytes (v : UInt32) : Bytes := Wire.leBytes 4 v.toNat
def u64Bytes (v : UInt64) : Bytes := Wire.leBytes 8 v.toNat

/-! ### What the accessors accept -/

section AccessSpec
variable [Target] {bytes : Bytes} {offset len n : Nat}
open Wire

omit [Target] in
@[simp] theorem length_u16Bytes (v : UInt16) : (u16Bytes v).length = 2 := length_leBytes _ _
omit [Target] in
@[simp] theorem length_u32Bytes (v : UInt32) : (u32Bytes v).length = 4 := length_leBytes _ _
omit [Target] in
@[simp] theorem length_u64Bytes (v : UInt64) : (u64Bytes v).length = 8 := length_leBytes _ _

omit [Target] in
theorem u16Bytes_injective : Function.Injective u16Bytes := fun a b h =>
  UInt16.toNat_inj.1 (leBytes_inj a.toNat_lt b.toNat_lt h)

omit [Target] in
theorem u32Bytes_injective : Function.Injective u32Bytes := fun a b h =>
  UInt32.toNat_inj.1 (leBytes_inj a.toNat_lt b.toNat_lt h)

omit [Target] in
theorem u64Bytes_injective : Function.Injective u64Bytes := fun a b h =>
  UInt64.toNat_inj.1 (leBytes_inj a.toNat_lt b.toNat_lt h)

theorem checkedSlice_eq_ok {s : Bytes} :
    checkedSlice bytes offset len = .ok s ↔
      offset + len < usizeSize ∧ offset + len ≤ bytes.length ∧ slice bytes offset len = s := by
  simp only [checkedSlice, bind_eq_ok, okOr_eq_ok, checkedAdd_eq_some, and_assoc, exists_and_left,
    exists_eq_left]
  split <;> simp [*]

theorem NoPanic.checkedSlice : NoPanic (checkedSlice bytes offset len) :=
  .bind (.okOr _ _) fun _ _ => .ite (fun _ => .ok _) fun _ => .fail _

theorem readArray_eq_ok {v : ByteArr n} :
    readArray n bytes offset = .ok v ↔
      offset + n < usizeSize ∧ offset + n ≤ bytes.length ∧ slice bytes offset n = v.toList := by
  simp only [readArray, bind_eq_ok, checkedSlice_eq_ok, copyToArray]
  constructor
  · rintro ⟨s, ⟨h1, h2, rfl⟩, h3⟩
    rw [dif_pos (length_slice h2), Except.ok.injEq] at h3
    exact ⟨h1, h2, by rw [← h3]⟩
  · rintro ⟨h1, h2, h3⟩
    refine ⟨_, ⟨h1, h2, rfl⟩, ?_⟩
    rw [dif_pos (length_slice h2), Except.ok.injEq]
    exact ByteArr.ext h3

theorem NoPanic.readArray : NoPanic (readArray n bytes offset) := by
  refine .bind .checkedSlice fun s hs => ?_
  obtain ⟨-, h2, rfl⟩ := checkedSlice_eq_ok.1 hs
  rw [copyToArray, dif_pos (length_slice h2)]
  exact .ok _

omit [Target] in
theorem leNat_array_lt (a : ByteArr n) : leNat a.toList < 256 ^ n := by
  simpa only [a.length_toList] using leNat_lt a.toList

theorem readU16_eq_ok {v : UInt16} :
    readU16 bytes offset = .ok v ↔
      offset + 2 < usizeSize ∧ offset + 2 ≤ bytes.length ∧ slice bytes offset 2 = u16Bytes v := by
  simp only [readU16, bind_eq_ok, readArray_eq_ok, pure_eq_ok, Except.ok.injEq]
  constructor
  · rintro ⟨a, ⟨h1, h2, h3⟩, rfl⟩
    refine ⟨h1, h2, ?_⟩
    rw [h3, u16Bytes, UInt16.toNat_ofNat_of_lt' (leNat_array_lt a), leBytes_leNat' a.length_toList]
  · rintro ⟨h1, h2, h3⟩
    refine ⟨⟨slice bytes offset 2, length_slice h2⟩, ⟨h1, h2, rfl⟩, ?_⟩
    show UInt16.ofNat (leNat (slice bytes offset 2)) = v
    rw [h3, u16Bytes, leNat_leBytes v.toNat_lt, UInt16.ofNat_toNat]

theorem readU32_eq_ok {v : UInt32} :
    readU32 bytes offset = .ok v ↔
      offset + 4 < usizeSize ∧ offset + 4 ≤ bytes.length ∧ slice bytes offset 4 = u32Bytes v := by
  simp only [readU32, bind_eq_ok, readArray_eq_ok, pure_eq_ok, Except.ok.injEq]
  constructor
  · rintro ⟨a, ⟨h1, h2, h3⟩, rfl⟩
    refine ⟨h1, h2, ?_⟩
    rw [h3, u32Bytes, UInt32.toNat_ofNat_of_lt' (leNat_array_lt a), leBytes_leNat' a.length_toList]
  · rintro ⟨h1, h2, h3⟩
    refine ⟨⟨slice bytes offset 4, length_slice h2⟩, ⟨h1, h2, rfl⟩, ?_⟩
    show UInt32.ofNat (leNat (slice bytes offset 4)) = v
    rw [h3, u32Bytes, leNat_leBytes v.toNat_lt, UInt32.ofNat_toNat]

theorem readU64_eq_ok {v : UInt64} :
    readU64 bytes offset = .ok v ↔
      offset + 8 < usizeSize ∧ offset + 8 ≤ bytes.length ∧ slice bytes offset 8 = u64Bytes v := by
  simp only [readU64, bind_eq_ok, readArray_eq_ok, pure_eq_ok, Except.ok.injEq]
  constructor
  · rintro ⟨a, ⟨h1, h2, h3⟩, rfl⟩
    refine ⟨h1, h2, ?_⟩
    rw [h3, u64Bytes, UInt64.toNat_ofNat_of_lt' (leNat_array_lt a), leBytes_leNat' a.length_toList]
  · rintro ⟨h1, h2, h3⟩
    refine ⟨⟨slice bytes offset 8, length_slice h2⟩, ⟨h1, h2, rfl⟩, ?_⟩
    show UInt64.ofNat (leNat (slice bytes offset 8)) = v
    rw [h3, u64Bytes, leNat_leBytes v.toNat_lt, UInt64.ofNat_toNat]

theorem NoPanic.readU16 : NoPanic (readU16 bytes offset) := .bind .readArray fun _ _ => .ok _

theorem NoPanic.readU32 : NoPanic (readU32 bytes offset) := .bind .readArray fun _ _ => .ok _

theorem NoPanic.readU64 : NoPanic (readU64 bytes offset) := .bind .readArray fun _ _ => .ok _

omit [Target] in
theorem byteAt_eq_ok {v : UInt8} :
    byteAt bytes offset = .ok v ↔ offset + 1 ≤ bytes.length ∧ slice bytes offset 1 = [v] := by
  simp only [byteAt]
  rcases Nat.lt_or_ge offset bytes.length with h | h
  · simp [h, slice, List.take_one_drop_eq_of_lt_length]
  · simp [List.getElem?_eq_none h, Nat.not_le.2 (Nat.lt_succ_of_le h)]

omit [Target] in
theorem NoPanic.byteAt (h : offset < bytes.length) : NoPanic (byteAt bytes offset) := by
  simp [Hakutaku.byteAt, h]

omit [Target] in
theorem requireLen_eq_ok {name : String} {u : Unit} : requireLen bytes n name = .ok u ↔ n ≤ bytes.length := by
  simp only [requireLen]; split <;> simp <;> omega

omit [Target] in
theorem requireMagic_eq_ok {magic : Bytes} {name : String} {u : Unit} :
    requireMagic bytes magic name = .ok u ↔ 8 ≤ bytes.length ∧ slice bytes 0 8 = magic := by
  simp only [requireMagic, slice, List.drop_zero]; split <;> simp [*]

omit [Target] in
theorem requireZero_eq_ok {start stop : Nat} {name : String} {u : Unit} (h : start ≤ stop) :
    requireZero bytes start stop name = .ok u ↔
      stop ≤ bytes.length ∧ slice bytes start (stop - start) = zeros (stop - start) := by
  simp only [requireZero, h, true_and]
  have key : stop ≤ bytes.length →
      ((slice bytes start (stop - start)).all (· == 0) = true ↔ slice bytes start (stop - start) = zeros (stop - start)) := by
    intro hle
    rw [zeros, List.eq_replicate_iff, List.all_eq_true, length_slice (by omega)]
    simp
  split
  · rename_i hc; simp [hc.1, (key hc.1).1 hc.2]
  · rename_i hc
    simp only [fail_ne_ok, false_iff, not_and]
    exact fun hle hz => hc ⟨hle, (key hle).2 hz⟩

omit [Target] in
@[simp] theorem NoPanic.requireLen {name : String} : NoPanic (requireLen bytes n name) :=
  .ite (fun _ => .fail _) fun _ => .ok _

omit [Target] in
@[simp] theorem NoPanic.requireMagic {magic : Bytes} {name : String} : NoPanic (requireMagic bytes magic name) :=
  .ite (fun _ => .ok _) fun _ => .fail _

omit [Target] in
@[simp] theorem NoPanic.requireZero {start stop : Nat} {name : String} :
    NoPanic (requireZero bytes start stop name) :=
  .ite (fun _ => .ok _) fun _ => .fail _

end AccessSpec

end Hakutaku
