import Mathlib

/-!
# Byte strings

Little-endian words, reads of a fixed width, and the relation `HasAt` ("this byte
string holds that one at this offset"), which lets a layout be read off piece by
piece.
-/

namespace Lib

theorem toNat_ofNat_byte {n : Nat} (h : n < 256) : (UInt8.ofNat n).toNat = n := by
  rw [UInt8.toNat_ofNat']
  exact Nat.mod_eq_of_lt h

/-! ## Little-endian words -/

/-- The number a little-endian byte string stands for. -/
def leNat : List UInt8 → Nat
  | [] => 0
  | b :: bs => b.toNat + 256 * leNat bs

/-- The low `w` bytes of `n`, least significant first. -/
def leBytes : Nat → Nat → List UInt8
  | 0, _ => []
  | w + 1, n => UInt8.ofNat n :: leBytes w (n / 256)

@[simp] theorem length_leBytes (w n : Nat) : (leBytes w n).length = w := by
  induction w generalizing n with
  | zero => rfl
  | succ w ih => simp [leBytes, ih]

theorem leNat_lt (bs : List UInt8) : leNat bs < 256 ^ bs.length := by
  induction bs with
  | nil => simp [leNat]
  | cons b bs ih =>
    have hb : b.toNat < 256 := b.toNat_lt
    simp only [leNat, List.length_cons, Nat.pow_succ]
    omega

theorem leNat_leBytes (w n : Nat) : leNat (leBytes w n) = n % 256 ^ w := by
  induction w generalizing n with
  | zero => simp [leBytes, leNat, Nat.mod_one]
  | succ w ih =>
    have h8 : (UInt8.ofNat n).toNat = n % 256 := UInt8.toNat_ofNat'
    rw [leBytes, leNat, ih, h8, Nat.pow_succ, Nat.mul_comm (256 ^ w) 256, Nat.mod_mul]

/-- A number that fits its bytes is read back. -/
theorem leNat_leBytes_of_lt {w n : Nat} (h : n < 256 ^ w) : leNat (leBytes w n) = n := by
  rw [leNat_leBytes, Nat.mod_eq_of_lt h]

theorem leBytes_leNat (bs : List UInt8) : leBytes bs.length (leNat bs) = bs := by
  induction bs with
  | nil => rfl
  | cons b bs ih =>
    have hb : b.toNat < 256 := b.toNat_lt
    have hlow : UInt8.ofNat (b.toNat + 256 * leNat bs) = b := by
      apply UInt8.toNat_inj.mp
      rw [UInt8.toNat_ofNat']
      omega
    have hhigh : (b.toNat + 256 * leNat bs) / 256 = leNat bs := by omega
    simp only [List.length_cons, leBytes, leNat, hlow, hhigh, ih]

/-! ## Reads -/

/-- The `n` bytes at `offset`, or `none` when they are not all there. -/
def fetch (bytes : List UInt8) (offset n : Nat) : Option (List UInt8) :=
  if offset + n ≤ bytes.length then some ((bytes.drop offset).take n) else none

theorem fetch_eq_some {bytes : List UInt8} {offset n : Nat} {bs : List UInt8} :
    fetch bytes offset n = some bs ↔
      offset + n ≤ bytes.length ∧ bs = (bytes.drop offset).take n := by
  unfold fetch
  split
  · rename_i hle
    simp [hle, eq_comm]
  · rename_i hlt
    simp [hlt]

/-! ## Contents at an offset -/

/-- `file` holds the bytes `xs` from `offset` on. -/
def HasAt (file : List UInt8) (offset : Nat) (xs : List UInt8) : Prop :=
  xs <+: file.drop offset

theorem HasAt.nil (file : List UInt8) (offset : Nat) : HasAt file offset [] :=
  List.nil_prefix

theorem HasAt.self (xs : List UInt8) : HasAt xs 0 xs :=
  ⟨[], by rw [List.append_nil, List.drop_zero]⟩

theorem hasAt_append {file : List UInt8} {offset : Nat} {xs ys : List UInt8} :
    HasAt file offset (xs ++ ys) ↔
      HasAt file offset xs ∧ HasAt file (offset + xs.length) ys := by
  unfold HasAt
  rw [← List.drop_drop]
  constructor
  · rintro ⟨zs, hzs⟩
    rw [← hzs]
    exact ⟨⟨ys ++ zs, by simp⟩, ⟨zs, by simp⟩⟩
  · rintro ⟨⟨zs, hzs⟩, hys⟩
    rw [← hzs, List.drop_left] at hys
    rw [← hzs]
    exact (List.prefix_append_right_inj xs).mpr hys

theorem HasAt.intro (pre xs post : List UInt8) :
    HasAt (pre ++ xs ++ post) pre.length xs := by
  unfold HasAt
  rw [List.append_assoc, List.drop_left]
  exact List.prefix_append xs post

/-- What is held at a place ends inside. -/
theorem HasAt.le_length {file : List UInt8} {offset : Nat} {xs : List UInt8}
    (h : HasAt file offset xs) (hne : xs ≠ []) : offset + xs.length ≤ file.length := by
  have hlen := h.length_le
  have hpos : 0 < xs.length := List.length_pos_iff.mpr hne
  rw [List.length_drop] at hlen
  omega

theorem HasAt.fetch {file : List UInt8} {offset : Nat} {xs : List UInt8}
    (h : HasAt file offset xs) (hle : offset + xs.length ≤ file.length) :
    fetch file offset xs.length = some xs := by
  rw [fetch_eq_some]
  exact ⟨hle, List.prefix_iff_eq_take.mp h⟩

/-- The part of a byte string from `i` on, found at its own place. -/
theorem HasAt.drop {file : List UInt8} {offset : Nat} {xs : List UInt8}
    (h : HasAt file offset xs) (i : Nat) (hi : i ≤ xs.length) :
    HasAt file (offset + i) (xs.drop i) := by
  have hsplit : HasAt file offset (xs.take i ++ xs.drop i) := by
    rwa [List.take_append_drop]
  have htail := (hasAt_append.mp hsplit).2
  rwa [List.length_take, Nat.min_eq_left hi] at htail

/-- One of the pieces of the same length that are there one after the other. -/
theorem HasAt.flatMap {α : Type} {f : α → List UInt8} {w : Nat} (hwidth : ∀ x, (f x).length = w)
    {file : List UInt8} {l : List α} {x : α} : ∀ {place i : Nat},
      HasAt file place (l.flatMap f) → l[i]? = some x → HasAt file (place + i * w) (f x) := by
  induction l with
  | nil => intro _ _ _ hi; cases hi
  | cons first l ih =>
    intro place i h hi
    rw [List.flatMap_cons, hasAt_append, hwidth] at h
    cases i with
    | zero =>
      cases hi
      rw [Nat.zero_mul, Nat.add_zero]
      exact h.1
    | succ i =>
      have hrest := ih h.2 hi
      rwa [Nat.succ_mul, Nat.add_comm (i * w), ← Nat.add_assoc]

theorem HasAt.getElem? {file : List UInt8} {offset : Nat} {x : UInt8} {xs : List UInt8}
    (h : HasAt file offset (x :: xs)) : file[offset]? = some x := by
  obtain ⟨ys, hys⟩ := h
  have hget : (file.drop offset)[0]? = some x := by rw [← hys]; rfl
  rwa [List.getElem?_drop, Nat.add_zero] at hget

/-- The contents, byte by byte. -/
theorem hasAt_iff_getElem? {file : List UInt8} {offset : Nat} {xs : List UInt8} :
    HasAt file offset xs ↔ ∀ i < xs.length, file[offset + i]? = xs[i]? := by
  rw [HasAt, List.prefix_iff_getElem?]
  constructor
  · intro h i hi
    rw [← List.getElem?_drop, h i hi, List.getElem?_eq_getElem hi]
  · intro h i hi
    rw [List.getElem?_drop, h i hi, List.getElem?_eq_getElem hi]

/-- The same bytes are at a place of a file that agrees there. -/
theorem HasAt.congr {file file' : List UInt8} {offset : Nat} {xs : List UInt8}
    (h : HasAt file offset xs)
    (hsame : ∀ i < xs.length, file'[offset + i]? = file[offset + i]?) : HasAt file' offset xs :=
  hasAt_iff_getElem?.mpr fun i hi => (hsame i hi).trans (hasAt_iff_getElem?.mp h i hi)

/-! ## Overwriting -/

/-- `bytes` with the bytes from `offset` on replaced by `xs`. -/
def overwrite (bytes : List UInt8) (offset : Nat) (xs : List UInt8) : List UInt8 :=
  bytes.take offset ++ xs ++ bytes.drop (offset + xs.length)

@[simp] theorem length_overwrite {bytes : List UInt8} {offset : Nat} {xs : List UInt8}
    (h : offset + xs.length ≤ bytes.length) :
    (overwrite bytes offset xs).length = bytes.length := by
  simp only [overwrite, List.length_append, List.length_take, List.length_drop]
  omega

theorem getElem?_overwrite {bytes : List UInt8} {offset : Nat} {xs : List UInt8}
    (h : offset + xs.length ≤ bytes.length) (j : Nat) :
    (overwrite bytes offset xs)[j]? =
      if offset ≤ j ∧ j < offset + xs.length then xs[j - offset]? else bytes[j]? := by
  have htake : (bytes.take offset).length = offset := by
    rw [List.length_take]
    omega
  have hfront : (bytes.take offset ++ xs).length = offset + xs.length := by
    rw [List.length_append, htake]
  rw [overwrite]
  by_cases hlow : j < offset
  · rw [if_neg (by omega), List.getElem?_append_left (by omega),
      List.getElem?_append_left (by omega), List.getElem?_take_of_lt hlow]
  by_cases hhigh : j < offset + xs.length
  · rw [if_pos ⟨by omega, hhigh⟩, List.getElem?_append_left (by omega),
      List.getElem?_append_right (by omega), htake]
  · rw [if_neg (by omega), List.getElem?_append_right (by omega), hfront, List.getElem?_drop,
      Nat.add_sub_cancel' (by omega)]

theorem hasAt_overwrite_self {bytes : List UInt8} {offset : Nat} {xs : List UInt8}
    (h : offset + xs.length ≤ bytes.length) : HasAt (overwrite bytes offset xs) offset xs := by
  refine hasAt_iff_getElem?.mpr fun i hi => ?_
  rw [getElem?_overwrite h, if_pos (by omega), Nat.add_sub_cancel_left]

/-- What is apart from the bytes that are overwritten stays. -/
theorem HasAt.overwrite {bytes : List UInt8} {offset i : Nat} {xs ys : List UInt8}
    (h : HasAt bytes i ys) (hin : offset + xs.length ≤ bytes.length)
    (hapart : i + ys.length ≤ offset ∨ offset + xs.length ≤ i) :
    HasAt (overwrite bytes offset xs) i ys := by
  refine h.congr fun j hj => ?_
  rw [getElem?_overwrite hin, if_neg (by omega)]

/-- Overwriting the middle of three pieces by one of its length. -/
theorem overwrite_append (as bs cs xs : List UInt8) (h : xs.length = bs.length) :
    overwrite (as ++ bs ++ cs) as.length xs = as ++ xs ++ cs := by
  have htake : (as ++ bs ++ cs).take as.length = as := by
    rw [List.append_assoc, List.take_left]
  have hdrop : (as ++ bs ++ cs).drop (as.length + xs.length) = cs := by
    rw [h, ← List.length_append, List.drop_left]
  rw [overwrite, htake, hdrop]

end Lib
