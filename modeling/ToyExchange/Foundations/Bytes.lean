import ToyExchange.Foundations.SignedWord
import Mathlib.Data.List.TakeWhile
import Mathlib.Tactic.Ring

/-!
# Bytes in memory

A region of memory is a list of bytes.  `slice` reads the bytes of a member at its offset and
`store` overwrites them.  Members that are written one behind the other lie one behind the other
(`storeAll_eq`).

`encodeInt` and `decodeInt` are the little-endian two's-complement bytes of an integer and back;
`decodeInt_encodeInt` is the round trip for the integers that fit.  `cString` reads the characters
before the first NUL.
-/

namespace Bytes

/-! ## Slices and stores -/

/-- The `len` bytes from `off` on. -/
def slice (off len : ℕ) (m : List UInt8) : List UInt8 := (m.drop off).take len

/-- Overwrite the bytes from `off` on. -/
def store (off : ℕ) (bs m : List UInt8) : List UInt8 :=
  m.take off ++ (bs ++ m.drop (off + bs.length))

section Memory

variable {off len : ℕ} {bs m : List UInt8}

@[simp] lemma length_slice (h : off + len ≤ m.length) : (slice off len m).length = len := by
  unfold slice
  rw [List.length_take, List.length_drop]
  omega

@[simp] lemma length_store (h : off + bs.length ≤ m.length) :
    (store off bs m).length = m.length := by
  unfold store
  simp only [List.length_append, List.length_take, List.length_drop]
  omega

/-- The bytes up to the end of what was stored. -/
lemma take_store (h : off ≤ m.length) : (store off bs m).take (off + bs.length) =
    m.take off ++ bs := by
  have hfront : (m.take off ++ bs).length = off + bs.length := by
    rw [List.length_append, List.length_take, min_eq_left h]
  rw [store, ← List.append_assoc, ← hfront]
  exact List.take_left

/-- The bytes behind what was stored are not touched. -/
lemma drop_store (h : off ≤ m.length) (k : ℕ) :
    (store off bs m).drop (off + bs.length + k) = m.drop (off + bs.length + k) := by
  have hfront : (m.take off ++ bs).length = off + bs.length := by
    rw [List.length_append, List.length_take, min_eq_left h]
  rw [store, ← List.append_assoc, ← List.drop_drop, ← hfront, List.drop_left, hfront,
    List.drop_drop]

/-- Overwrite consecutive members from `off` on. -/
def storeAll (off : ℕ) : List (List UInt8) → List UInt8 → List UInt8
  | [], m => m
  | bs :: members, m => storeAll (off + bs.length) members (store off bs m)

/-- Consecutive members lie one behind the other; the bytes around them are not touched. -/
theorem storeAll_eq {members : List (List UInt8)} (h : off + members.flatten.length ≤ m.length) :
    storeAll off members m =
      m.take off ++ (members.flatten ++ m.drop (off + members.flatten.length)) := by
  induction members generalizing off m with
  | nil => exact (List.take_append_drop off m).symm
  | cons bs members ih =>
    rw [List.flatten_cons, List.length_append] at h
    have hoff : off ≤ m.length := by omega
    have hfits : off + bs.length + members.flatten.length ≤ (store off bs m).length := by
      rw [length_store (by omega)]
      omega
    rw [storeAll, ih hfits, take_store hoff, drop_store hoff, List.flatten_cons,
      List.length_append, List.append_assoc, List.append_assoc, Nat.add_assoc]

end Memory

/-! ## Little-endian integers -/

/-- The lowest `n` bytes of a number, the least significant first. -/
def leBytes : ℕ → ℕ → List UInt8
  | 0, _ => []
  | n + 1, u => UInt8.ofNat u :: leBytes n (u / 256)

/-- The number that bytes stand for, the least significant first. -/
def leNat : List UInt8 → ℕ
  | [] => 0
  | b :: bs => b.toNat + 256 * leNat bs

@[simp] lemma length_leBytes (n u : ℕ) : (leBytes n u).length = n := by
  induction n generalizing u with
  | zero => rfl
  | succ n ih => rw [leBytes, List.length_cons, ih]

lemma leNat_leBytes (n u : ℕ) : leNat (leBytes n u) = u % 256 ^ n := by
  induction n generalizing u with
  | zero => rw [leBytes, leNat, pow_zero, Nat.mod_one]
  | succ n ih =>
    have hbyte : (UInt8.ofNat u).toNat = u % 256 := by simp
    rw [leBytes, leNat, ih, hbyte, pow_succ', Nat.mod_mul]

/-- The two's-complement bytes of an integer. -/
def encodeInt (n : ℕ) (x : ℤ) : List UInt8 := leBytes n (x % 256 ^ n).toNat

/-- The integer that bytes stand for in two's complement. -/
def decodeInt (bs : List UInt8) : ℤ := SignedWord.wrap (8 * bs.length) (leNat bs)

@[simp] lemma length_encodeInt (n : ℕ) (x : ℤ) : (encodeInt n x).length = n := length_leBytes n _

lemma inRange_decodeInt (bs : List UInt8) : SignedWord.InRange (8 * bs.length) (decodeInt bs) :=
  SignedWord.inRange_wrap _ _

/-- An integer that fits is read back. -/
theorem decodeInt_encodeInt {n : ℕ} {x : ℤ} (h : SignedWord.InRange (8 * n) x) :
    decodeInt (encodeInt n x) = x := by
  have hpow : (2 : ℤ) ^ (8 * n) = 256 ^ n := by
    rw [pow_mul]
    norm_num
  have hnonneg : 0 ≤ x % 256 ^ n := Int.emod_nonneg x (by positivity)
  have hlt : x % 256 ^ n < 256 ^ n := Int.emod_lt_of_pos x (by positivity)
  have hvalue : ((leNat (encodeInt n x) : ℕ) : ℤ) = x % 2 ^ (8 * n) := by
    unfold encodeInt
    rw [leNat_leBytes]
    push_cast
    rw [Int.toNat_of_nonneg hnonneg, Int.emod_emod_of_dvd x (dvd_refl _), hpow]
  unfold decodeInt SignedWord.wrap
  rw [length_encodeInt, hvalue]
  have hmod : (x % 2 ^ (8 * n)).bmod (2 ^ (8 * n)) = x.bmod (2 ^ (8 * n)) := by
    have hcast : ((2 ^ (8 * n) : ℕ) : ℤ) = 2 ^ (8 * n) := by push_cast; rfl
    rw [← hcast, Int.emod_bmod]
  rw [hmod]
  exact SignedWord.wrap_of_inRange h

/-! ## Strings -/

/-- The characters before the first NUL. -/
def cString (bs : List UInt8) : List UInt8 := bs.takeWhile fun b => b ≠ 0

/-- Fill up with NULs to `n` bytes. -/
def padded (n : ℕ) (bs : List UInt8) : List UInt8 := bs ++ List.replicate (n - bs.length) 0

lemma length_padded {n : ℕ} {bs : List UInt8} (h : bs.length ≤ n) : (padded n bs).length = n := by
  unfold padded
  rw [List.length_append, List.length_replicate]
  omega

/-- Characters other than NUL are read back from a padded field. -/
lemma cString_padded {bs : List UInt8} (h : ∀ b ∈ bs, b ≠ 0) (n : ℕ) :
    cString (padded n bs) = bs := by
  unfold cString padded
  rw [List.takeWhile_append_of_pos fun b hb => decide_eq_true (h b hb)]
  cases n - bs.length with
  | zero => exact List.append_nil bs
  | succ k => exact List.append_nil bs

/-- What stands behind a NUL is not read. -/
lemma cString_append_zero (bs rest : List UInt8) : cString (bs ++ 0 :: rest) = cString bs := by
  unfold cString
  induction bs with
  | nil => rfl
  | cons b bs ih => rw [List.cons_append, List.takeWhile_cons, List.takeWhile_cons, ih]

/-- A string ends before its field does exactly if the field has a NUL. -/
lemma length_cString_lt_iff (bs : List UInt8) : (cString bs).length < bs.length ↔ 0 ∈ bs := by
  constructor
  · intro hshort
    by_contra hnone
    have hall : cString bs = bs := by
      apply List.takeWhile_eq_self_iff.mpr
      intro b hb
      exact decide_eq_true fun hzero => hnone (hzero ▸ hb)
    rw [hall] at hshort
    exact lt_irrefl _ hshort
  · intro hnul
    obtain ⟨front, rest, rfl⟩ := List.append_of_mem hnul
    have hle : (cString front).length ≤ front.length := (List.takeWhile_sublist _).length_le
    rw [cString_append_zero, List.length_append, List.length_cons]
    omega

/-- No character of a string is NUL. -/
lemma ne_zero_of_mem_cString {bs : List UInt8} {b : UInt8} (h : b ∈ cString bs) : b ≠ 0 :=
  of_decide_eq_true (List.mem_takeWhile_imp (p := fun b => decide (b ≠ 0)) h)

end Bytes
