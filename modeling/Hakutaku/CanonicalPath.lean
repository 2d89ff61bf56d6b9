import Hakutaku.Base

/-!
# Canonical paths (`format.rs`)

The platform-independent path rules of package indexes. A Rust `&str` is a `String`; the functions
here walk its characters, and `strBytes` / `fromUtf8` are its UTF-8 bytes and their checked reading.
-/

namespace Hakutaku

/-- `str::as_bytes`. -/
def strBytes (s : String) : Bytes := s.toByteArray.data.toList

/-- `std::str::from_utf8`. -/
def fromUtf8 (bytes : Bytes) : Option String := String.fromUTF8? ⟨bytes.toArray⟩

/-- `char::eq_ignore_ascii_case` on strings. -/
def eqIgnoreAsciiCase (a b : List Char) : Bool := a.map Char.toLower == b.map Char.toLower

/-- `str::split_at_checked`: `none` unless byte index `mid` is a character boundary. -/
def splitAtChecked : List Char → Nat → Option (List Char × List Char)
  | cs, 0 => some ([], cs)
  | [], _ + 1 => none
  | c :: cs, mid =>
    if c.utf8Size ≤ mid then (splitAtChecked cs (mid - c.utf8Size)).map fun (p, s) => (c :: p, s) else none

def isWindowsReservedComponent (component : List Char) : Bool :=
  let stem := component.takeWhile (· ≠ '.')
  if ["CON", "PRN", "AUX", "NUL"].any fun name => eqIgnoreAsciiCase stem name.toList then true
  else
    match splitAtChecked stem 3 with
    | none => false
    | some (stemPrefix, stemSuffix) =>
      (eqIgnoreAsciiCase stemPrefix "COM".toList || eqIgnoreAsciiCase stemPrefix "LPT".toList) &&
        ["1", "2", "3", "4", "5", "6", "7", "8", "9", "¹", "²", "³"].any fun d => stemSuffix == d.toList

/-- One `/`-separated part that the rules refuse. -/
def badPart (part : List Char) : Bool :=
  part.isEmpty || part == ['.'] || part == ['.', '.'] || part.head? == some ' ' ||
    part.getLast? == some ' ' || part.getLast? == some '.' ||
    part.any (fun character => character < ' ' || "<>:\"|?*".toList.contains character) ||
    isWindowsReservedComponent part

/-- The condition under which `validate_canonical_path` refuses. -/
def nonCanonical (path : String) : Bool :=
  let cs := path.toList
  cs.isEmpty || cs.head? == some '/' || cs.getLast? == some '/' || cs.contains '\\' || cs.contains '\x00' ||
    (cs.splitOn '/').any badPart

def validateCanonicalPath (path : String) : Result Unit :=
  if nonCanonical path then fail .invalidPath else .ok ()

/-- `validate_canonical_path` returns `Ok`. -/
def Canonical (path : String) : Prop := nonCanonical path = false

instance (path : String) : Decidable (Canonical path) := inferInstanceAs (Decidable (_ = _))

theorem validateCanonicalPath_eq_ok {path : String} {u : Unit} :
    validateCanonicalPath path = .ok u ↔ Canonical path := by
  simp [validateCanonicalPath, Canonical]

theorem NoPanic.validateCanonicalPath {path : String} : NoPanic (validateCanonicalPath path) :=
  .ite (fun _ => .fail _) fun _ => .ok _

example : validateCanonicalPath "data/a.txt" = .ok () ∧ validateCanonicalPath "a/../b" = fail .invalidPath ∧
    validateCanonicalPath "x/com¹.txt" = fail .invalidPath := by decide

/-! ### UTF-8 -/

theorem fromUtf8_eq_some {bytes : Bytes} {s : String} : fromUtf8 bytes = some s ↔ bytes = strBytes s := by
  simp only [fromUtf8, String.fromUTF8?, strBytes]
  constructor
  · intro h
    split at h
    · obtain rfl := Option.some.inj h
      simp [String.fromUTF8]
    · cases h
  · rintro rfl
    have hs : (⟨s.toByteArray.data.toList.toArray⟩ : ByteArray) = s.toByteArray := by simp
    rw [hs, dif_pos s.isValidUTF8]
    rfl

@[simp] theorem fromUtf8_strBytes (s : String) : fromUtf8 (strBytes s) = some s := fromUtf8_eq_some.2 rfl

theorem strBytes_injective : Function.Injective strBytes := by
  intro a b h
  have := congrArg fromUtf8 h
  simpa using this

@[simp] theorem strBytes_eq_nil {s : String} : strBytes s = [] ↔ s = "" := by
  constructor
  · intro h; exact strBytes_injective (by rw [h]; rfl)
  · rintro rfl; rfl

theorem zero_ne_ofNat {n : Nat} (hpos : 0 < n) (hlt : n < 256) : 0 ≠ UInt8.ofNat n := by
  intro h
  have hn : 0 = n % 256 := congrArg UInt8.toNat h
  rw [Nat.mod_eq_of_lt hlt] at hn
  exact hpos.ne hn

/-- A byte of a longer encoding is not zero. -/
theorem zero_ne_utf8Byte (a : Nat) {k off : Nat} (hk : 0 < k) (hoff : 0 < off) (hle : k + off ≤ 256) :
    0 ≠ UInt8.ofNat (a % k + off) := by
  have hmod := Nat.mod_lt a hk
  exact zero_ne_ofNat (by omega) (by omega)

/-- Only the NUL character has a zero byte. -/
theorem eq_nul_of_zero_mem {c : Char} (h : (0 : UInt8) ∈ String.utf8EncodeChar c) : c = '\x00' := by
  unfold String.utf8EncodeChar at h
  dsimp only at h
  split at h
  · rcases Nat.eq_zero_or_pos c.val.toNat with hzero | hpos
    · exact Char.ext (UInt32.toNat_inj.1 hzero)
    · exact absurd (List.mem_singleton.1 h) (zero_ne_ofNat hpos (by omega))
  · refine absurd h ?_
    split <;> [skip; split] <;> simp only [List.mem_cons, List.not_mem_nil, or_false, not_or]
    · constructor <;> exact zero_ne_utf8Byte _ (by decide) (by decide) (by decide)
    · refine ⟨?_, ?_, ?_⟩ <;> exact zero_ne_utf8Byte _ (by decide) (by decide) (by decide)
    · refine ⟨?_, ?_, ?_, ?_⟩ <;> exact zero_ne_utf8Byte _ (by decide) (by decide) (by decide)

/-- The bytes of a string are the encodings of its characters. -/
theorem strBytes_eq_flatMap (s : String) : strBytes s = s.toList.flatMap String.utf8EncodeChar := by
  unfold strBytes
  rw [← String.utf8Encode_toList, List.utf8Encode, List.data_toByteArray]

/-- A canonical path has no zero byte. -/
theorem Canonical.zero_not_mem {path : String} (h : Canonical path) : (0 : UInt8) ∉ strBytes path := by
  intro hzero
  rw [strBytes_eq_flatMap] at hzero
  obtain ⟨c, hc, hbyte⟩ := List.mem_flatMap.1 hzero
  obtain rfl := eq_nul_of_zero_mem hbyte
  unfold Canonical nonCanonical at h
  simp only [Bool.or_eq_false_iff] at h
  have hcontains : path.toList.contains '\x00' = false := h.1.2
  rw [List.contains_iff_mem.2 hc] at hcontains
  cases hcontains

end Hakutaku
