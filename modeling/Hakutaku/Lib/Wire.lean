import Mathlib.Tactic

/-!
# Byte strings with fixed layouts

Little-endian numbers, slices and in-place writes on byte lists, and the two facts every fixed
record codec needs: writing fields into a zeroed buffer in increasing offsets is appending them
(with zero gaps), and a buffer is the concatenation of its consecutive slices.
-/

namespace Wire

/-! ### Little-endian numbers -/

/-- The `n` low bytes of `v`, least significant first. -/
def leBytes : Nat → Nat → List UInt8
  | 0, _ => []
  | n + 1, v => UInt8.ofNat v :: leBytes n (v / 256)

/-- The number a little-endian byte string stands for. -/
def leNat : List UInt8 → Nat
  | [] => 0
  | b :: bs => b.toNat + 256 * leNat bs

@[simp] theorem length_leBytes (n v : Nat) : (leBytes n v).length = n := by
  induction n generalizing v with
  | zero => rfl
  | succ n ih => simp [leBytes, ih]

theorem leNat_lt (bs : List UInt8) : leNat bs < 256 ^ bs.length := by
  induction bs with
  | nil => simp [leNat]
  | cons b bs ih =>
    have hb : b.toNat < 256 := b.toNat_lt
    simp only [leNat, List.length_cons, pow_succ]
    omega

theorem leNat_leBytes {n v : Nat} (h : v < 256 ^ n) : leNat (leBytes n v) = v := by
  induction n generalizing v with
  | zero => simp only [pow_zero] at h; simp [leBytes, leNat]; omega
  | succ n ih =>
    have hv : v / 256 < 256 ^ n := by
      rw [pow_succ] at h
      exact Nat.div_lt_of_lt_mul (by omega)
    simp only [leBytes, leNat, ih hv, UInt8.toNat_ofNat']
    omega

theorem leBytes_leNat (bs : List UInt8) : leBytes bs.length (leNat bs) = bs := by
  induction bs with
  | nil => rfl
  | cons b bs ih =>
    have hb : b.toNat < 256 := b.toNat_lt
    have hdiv : (b.toNat + 256 * leNat bs) / 256 = leNat bs := by omega
    have hlow : UInt8.ofNat (b.toNat + 256 * leNat bs) = b := by
      rw [← UInt8.toNat_inj, UInt8.toNat_ofNat']
      omega
    simp only [List.length_cons, leNat, leBytes, hdiv, hlow, ih]

theorem leBytes_leNat' {bs : List UInt8} {n : Nat} (h : bs.length = n) : leBytes n (leNat bs) = bs := by
  rw [← h, leBytes_leNat]

theorem leBytes_inj {n v w : Nat} (hv : v < 256 ^ n) (hw : w < 256 ^ n)
    (h : leBytes n v = leBytes n w) : v = w := by
  rw [← leNat_leBytes hv, h, leNat_leBytes hw]

/-- A byte more than a number needs is zero. -/
theorem leBytes_succ_of_lt {n v : Nat} (h : v < 256 ^ n) : leBytes (n + 1) v = leBytes n v ++ [0] := by
  induction n generalizing v with
  | zero =>
    rw [pow_zero] at h
    rw [Nat.lt_one_iff.1 h]
    rfl
  | succ n ih =>
    have hv : v / 256 < 256 ^ n := by
      rw [pow_succ] at h
      exact Nat.div_lt_of_lt_mul (by omega)
    rw [leBytes, ih hv]
    rfl

/-! ### Slices -/

variable {α : Type}

/-- What stands behind the last occurrence of an element, and what before it. -/
theorem append_inj_of_last {z : α} {a b p q : List α} (hp : z ∉ p) (hq : z ∉ q)
    (h : a ++ [z] ++ p = b ++ [z] ++ q) : a = b ∧ p = q := by
  have hsplit : ∀ {a b p q : List α}, z ∉ p → ∀ c, b ++ [z] = a ++ [z] ++ c → p = c ++ q → a = b ∧ p = q := by
    intro a b p q hp c hb hc
    rcases List.eq_nil_or_concat' c with rfl | ⟨c, last, rfl⟩
    · rw [List.append_nil] at hb
      exact ⟨(List.append_left_injective _ hb).symm, hc⟩
    · -- The last element of `c` is `z`, and it is in `p`.
      rw [← List.append_assoc] at hb
      obtain ⟨-, hlast⟩ := List.append_inj' hb rfl
      obtain rfl := List.singleton_injective hlast
      exact absurd (by rw [hc]; simp) hp
  rcases List.append_eq_append_iff.1 h with ⟨c, hb, hc⟩ | ⟨c, ha, hc⟩
  · exact hsplit hp c hb hc
  · obtain ⟨hba, hqp⟩ := hsplit hq c ha hc
    exact ⟨hba.symm, hqp.symm⟩

/-- The `n` elements of `bs` from offset `o` on. -/
def slice (bs : List α) (o n : Nat) : List α := (bs.drop o).take n

theorem length_slice {bs : List α} {o n : Nat} (h : o + n ≤ bs.length) : (slice bs o n).length = n := by
  simp only [slice, List.length_take, List.length_drop]; omega

theorem length_slice_zero {bs : List α} {n : Nat} (h : n ≤ bs.length) : (slice bs 0 n).length = n :=
  length_slice (by simpa using h)

theorem slice_full (bs : List α) : slice bs 0 bs.length = bs := by simp [slice]

@[simp] theorem slice_zero_len (bs : List α) (o : Nat) : slice bs o 0 = [] := by simp [slice]

/-- A slice splits at any point. -/
theorem slice_add (bs : List α) (o n m : Nat) : slice bs o (n + m) = slice bs o n ++ slice bs (o + n) m := by
  simp only [slice, List.take_add, List.drop_drop]

/-- A slice is a concatenation iff both of its parts are. -/
theorem slice_eq_append {bs a b : List α} {o : Nat} (h : o + a.length + b.length ≤ bs.length) :
    slice bs o (a.length + b.length) = a ++ b ↔ slice bs o a.length = a ∧ slice bs (o + a.length) b.length = b := by
  rw [slice_add]
  constructor
  · intro heq
    exact List.append_inj heq (length_slice (by omega))
  · rintro ⟨ha, hb⟩
    rw [ha, hb]

/-- Inside the left part of a concatenation. -/
theorem slice_append_left {a b : List α} {o n : Nat} (h : o + n ≤ a.length) :
    slice (a ++ b) o n = slice a o n := by
  simp only [slice, List.drop_append, List.take_append, List.length_drop]
  have h1 : n - (a.length - o) = 0 := by omega
  simp [h1]

/-- Past the left part of a concatenation. -/
theorem slice_append_right {a b : List α} {o n : Nat} (h : a.length ≤ o) :
    slice (a ++ b) o n = slice b (o - a.length) n := by
  simp only [slice, List.drop_append, List.drop_eq_nil_of_le h, List.nil_append]

theorem slice_append_mid (a b c : List α) : slice (a ++ b ++ c) a.length b.length = b := by
  rw [List.append_assoc, slice_append_right le_rfl, Nat.sub_self, slice_append_left (by simp), slice_full]

theorem slice_slice {bs : List α} {o n o' n' : Nat} (h : o' + n' ≤ n) :
    slice (slice bs o n) o' n' = slice bs (o + o') n' := by
  simp only [slice, List.drop_take, List.drop_drop, List.take_take]
  rw [min_eq_left (by omega)]

theorem slice_of_le {bs : List α} {o n : Nat} (h : bs.length ≤ o + n) : slice bs o n = bs.drop o := by
  simp only [slice]
  exact List.take_of_length_le (by simp; omega)

theorem getElem?_slice (bs : List α) (o n i : Nat) :
    (slice bs o n)[i]? = if i < n then bs[o + i]? else none := by
  simp only [slice, List.getElem?_take, List.getElem?_drop]

theorem slice_infix (bs : List α) (o n : Nat) : slice bs o n <:+: bs :=
  ((List.take_prefix _ _).isInfix).trans (List.drop_suffix _ _).isInfix

/-! ### Writing into a zeroed buffer -/

/-- Overwrites `buf` with `v` from offset `o` on. -/
def putAt (buf : List α) (o : Nat) (v : List α) : List α := buf.take o ++ v ++ buf.drop (o + v.length)

theorem length_putAt {buf : List α} {o : Nat} {v : List α} (h : o + v.length ≤ buf.length) :
    (putAt buf o v).length = buf.length := by
  simp only [putAt, List.length_append, List.length_take, List.length_drop]; omega

/-- `n` zero bytes. -/
def zeros (n : Nat) : List UInt8 := List.replicate n 0

@[simp] theorem length_zeros (n : Nat) : (zeros n).length = n := List.length_replicate

@[simp] theorem zeros_zero : zeros 0 = [] := rfl

/-- Writing `v` behind the written prefix `p` keeps the buffer a prefix followed by zeros; the bytes
skipped over stay zero. -/
theorem putAt_zeros {p v : List UInt8} {n o : Nat} (ho : p.length ≤ o) (hn : o + v.length ≤ p.length + n) :
    putAt (p ++ zeros n) o v =
      (p ++ (zeros (o - p.length) ++ v)) ++ zeros (n - (o - p.length + v.length)) := by
  have h1 : (p ++ zeros n).take o = p ++ zeros (o - p.length) := by
    rw [List.take_append, List.take_of_length_le ho]
    simp only [zeros, List.take_replicate]
    rw [min_eq_left (by omega)]
  have h2 : (p ++ zeros n).drop (o + v.length) = zeros (n - (o - p.length + v.length)) := by
    rw [List.drop_append, List.drop_eq_nil_of_le (by omega), List.nil_append]
    simp only [zeros, List.drop_replicate]
    congr 1; omega
  simp only [putAt, h1, h2, List.append_assoc]

/-- The first write into an untouched buffer. -/
theorem putAt_zeros_nil {v : List UInt8} {n : Nat} (hn : v.length ≤ n) :
    putAt (zeros n) 0 v = v ++ zeros (n - v.length) := by
  simpa using putAt_zeros (p := []) (v := v) (n := n) (o := 0) (by simp) (by simpa using hn)

/-- `putAt` does not change what lies before it. -/
theorem getElem?_putAt_of_lt {buf v : List α} {o i : Nat} (h : i < o) (ho : o ≤ buf.length) :
    (putAt buf o v)[i]? = buf[i]? := by
  rw [putAt, List.append_assoc, List.getElem?_append_left (by simp; omega), List.getElem?_take_of_lt h]

/-- `putAt` does not change what lies behind it. -/
theorem getElem?_putAt_of_ge {buf v : List α} {o i : Nat} (h : o + v.length ≤ i) (ho : o ≤ buf.length) :
    (putAt buf o v)[i]? = buf[i]? := by
  rw [putAt, List.getElem?_append_right (by simp; omega), List.getElem?_drop]
  congr 1; simp; omega

theorem getElem?_putAt_mid {buf v : List α} {o i : Nat} (h : i < v.length) (ho : o ≤ buf.length) :
    (putAt buf o v)[o + i]? = v[i]? := by
  have hlen : (buf.take o).length = o := by rw [List.length_take]; omega
  rw [putAt, List.append_assoc, List.getElem?_append_right (by omega), hlen, Nat.add_sub_cancel_left,
    List.getElem?_append_left h]

/-- Two writes in a row are one. -/
theorem putAt_putAt {buf v w : List α} {o : Nat} (h : o + v.length + w.length ≤ buf.length) :
    putAt (putAt buf o v) (o + v.length) w = putAt buf o (v ++ w) := by
  have hlen : (buf.take o ++ v).length = o + v.length := by rw [List.length_append, List.length_take]; omega
  have htake : (putAt buf o v).take (o + v.length) = buf.take o ++ v := by
    rw [putAt, ← hlen, List.take_left]
  have hdrop : (putAt buf o v).drop (o + v.length + w.length) = buf.drop (o + (v.length + w.length)) := by
    rw [putAt, List.drop_append, hlen, List.drop_of_length_le (by omega), List.nil_append, List.drop_drop]
    congr 1
    omega
  rw [putAt, htake, hdrop, putAt, List.length_append]
  simp only [List.append_assoc]

/-! ### Consecutive pieces -/

section Pieces
variable {f : Nat → List α} {start : Nat → Nat} {n : Nat}

theorem length_flatMap_range (hzero : start 0 = 0) (hnext : ∀ i < n, start i + (f i).length = start (i + 1)) :
    ((List.range n).flatMap f).length = start n := by
  induction n with
  | zero => exact hzero.symm
  | succ n ih =>
    rw [List.range_succ, List.flatMap_append, List.length_append, ih fun i hi => hnext i (Nat.lt_succ_of_lt hi)]
    simpa using hnext n (Nat.lt_succ_self n)

theorem getElem?_flatMap_range (hzero : start 0 = 0) (hnext : ∀ i < n, start i + (f i).length = start (i + 1))
    {i j : Nat} (hi : i < n) (hj : j < (f i).length) : ((List.range n).flatMap f)[start i + j]? = (f i)[j]? := by
  induction n with
  | zero => cases hi
  | succ n ih =>
    have hlen := length_flatMap_range hzero fun i hi => hnext i (Nat.lt_succ_of_lt hi)
    rw [List.range_succ, List.flatMap_append, List.flatMap_singleton]
    rcases Nat.lt_or_eq_of_le (Nat.le_of_lt_succ hi) with hlt | rfl
    · have hfound := ih (fun i hi => hnext i (Nat.lt_succ_of_lt hi)) hlt
      rw [List.getElem?_append_left, hfound]
      rw [List.getElem?_eq_getElem hj] at hfound
      exact (List.getElem?_eq_some_iff.1 hfound).1
    · rw [List.getElem?_append_right (by omega), hlen, Nat.add_sub_cancel_left]

end Pieces

/-! ### Records as consecutive fields -/

/-- From offset `o` on, `b` is exactly the fields `fs`, one after the other. -/
def Fields (b : List UInt8) : Nat → List (List UInt8) → Prop
  | o, [] => o = b.length
  | o, f :: fs => o + f.length ≤ b.length ∧ slice b o f.length = f ∧ Fields b (o + f.length) fs

theorem drop_eq_flatten_iff {b : List UInt8} {o : Nat} (ho : o ≤ b.length) (fs : List (List UInt8)) :
    b.drop o = fs.flatten ↔ Fields b o fs := by
  induction fs generalizing o with
  | nil =>
    simp only [List.flatten_nil, List.drop_eq_nil_iff, Fields]
    omega
  | cons f fs ih =>
    simp only [List.flatten_cons, Fields]
    constructor
    · intro h
      have hle : o + f.length ≤ b.length := by
        have := congrArg List.length h
        simp only [List.length_drop, List.length_append] at this
        omega
      refine ⟨hle, by simp [slice, h], (ih hle).1 ?_⟩
      rw [← List.drop_drop, h, List.drop_left]
    · rintro ⟨hle, hf, hrest⟩
      rw [← (ih hle).2 hrest, ← List.drop_drop, ← hf]
      simp only [slice, List.length_take, List.length_drop]
      rw [min_eq_left (by omega), List.take_append_drop]

/-- A record is its fields iff each field is the slice at its own offset. -/
theorem eq_flatten_iff (b : List UInt8) (fs : List (List UInt8)) : b = fs.flatten ↔ Fields b 0 fs := by
  simpa using drop_eq_flatten_iff (b := b) (Nat.zero_le _) fs

/-- Fields of the same lengths are determined by their concatenation. -/
theorem flatten_inj {fs gs : List (List UInt8)} (hlen : fs.map List.length = gs.map List.length)
    (h : fs.flatten = gs.flatten) : fs = gs := by
  induction fs generalizing gs with
  | nil => simpa using hlen.symm
  | cons f fs ih =>
    cases gs with
    | nil => simp at hlen
    | cons g gs =>
      simp only [List.map_cons, List.cons.injEq] at hlen
      obtain ⟨rfl, hrest⟩ := List.append_inj h hlen.1
      rw [ih hlen.2 hrest]

/-! ### Tables of fixed-size records -/

section Table
variable {ρ : Type} {encode : ρ → List UInt8} {size : Nat} {rs : List ρ} {b : List UInt8} {i : Nat} {r : ρ}

theorem length_flatMap (hsize : ∀ r, (encode r).length = size) (rs : List ρ) :
    (rs.flatMap encode).length = rs.length * size := by
  induction rs with
  | nil => simp
  | cons r rs ih => simp [ih, hsize, Nat.add_mul, Nat.add_comm]

/-- Row `i` of a table is the encoding of its `i`-th record. -/
theorem slice_flatMap (hsize : ∀ r, (encode r).length = size) (h : rs[i]? = some r) :
    slice (rs.flatMap encode) (i * size) size = encode r := by
  induction rs generalizing i with
  | nil => simp at h
  | cons q rs ih =>
    rw [List.flatMap_cons]
    cases i with
    | zero =>
      obtain rfl : q = r := by simpa using h
      rw [Nat.zero_mul, slice_append_left (by rw [hsize]; omega), ← hsize q, slice_full]
    | succ i =>
      rw [slice_append_right (by rw [hsize, Nat.add_mul]; omega), hsize]
      have : (i + 1) * size - size = i * size := by rw [Nat.add_mul]; omega
      rw [this]
      exact ih (by simpa using h)

/-- A byte string whose rows are the encodings of the records is their table. -/
theorem eq_flatMap_of_slices (hlen : b.length = rs.length * size)
    (h : ∀ i r, rs[i]? = some r → slice b (i * size) size = encode r) : b = rs.flatMap encode := by
  induction rs generalizing b with
  | nil => simpa using hlen
  | cons q rs ih =>
    rw [List.length_cons, Nat.add_mul, Nat.one_mul] at hlen
    have hhead : b.take size = encode q := by simpa [slice] using h 0 q rfl
    have htail : b.drop size = rs.flatMap encode := by
      refine ih (by rw [List.length_drop]; omega) fun i r hr => ?_
      have := h (i + 1) r (by simpa using hr)
      rw [Nat.add_mul, Nat.one_mul] at this
      simpa only [slice, List.drop_drop, Nat.add_comm size] using this
    rw [List.flatMap_cons, ← hhead, ← htail, List.take_append_drop]

end Table

end Wire
