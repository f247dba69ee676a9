import Mathlib.Algebra.BigOperators.Group.List.Basic
import Mathlib.Tactic.Common
import Mathlib.Tactic.Linarith

/-!
# Signed machine words

The integers of a signed word of `w` bits, and what two's complement makes of an integer that is
not one of them.  A running sum kept in a word is the wrapped exact sum (`foldl_wrap`), whatever
happened on the way, so it is right exactly when the exact sum is in range
(`wrap_eq_self_iff`).
-/

namespace SignedWord

/-- The integer is one of a signed word of `w` bits. -/
def InRange (w : ℕ) (x : ℤ) : Prop := -2 ^ w ≤ 2 * x ∧ 2 * x < 2 ^ w

instance (w : ℕ) : DecidablePred (InRange w) := fun x =>
  inferInstanceAs (Decidable (-2 ^ w ≤ 2 * x ∧ 2 * x < 2 ^ w))

/-- The two's-complement value of the lowest `w` bits. -/
def wrap (w : ℕ) (x : ℤ) : ℤ := x.bmod (2 ^ w)

variable {w : ℕ} {x : ℤ}

lemma inRange_of_nonneg (h : 0 ≤ x) (hlt : 2 * x < 2 ^ w) : InRange w x := by
  have hpow : (0 : ℤ) < 2 ^ w := by positivity
  exact ⟨by linarith, hlt⟩

/-- The negation of a positive integer in range is in range. -/
lemma inRange_neg (hpos : 0 < x) (h : InRange w x) : InRange w (-x) := by
  obtain ⟨-, hlt⟩ := h
  exact ⟨by linarith, by linarith⟩

/-- The absolute value of an integer in range is in range, unless it is the least one. -/
lemma inRange_natAbs_iff (h : InRange w x) : InRange w x.natAbs ↔ 2 * x ≠ -2 ^ w := by
  obtain ⟨hlow, hhigh⟩ := h
  unfold InRange
  generalize (2 : ℤ) ^ w = p at *
  omega

lemma inRange_wrap (w : ℕ) (x : ℤ) : InRange w (wrap w x) := by
  have hpow : 0 < 2 ^ w := by positivity
  have hlow := Int.le_bmod (x := x) hpow
  have hhigh := Int.bmod_lt (x := x) hpow
  unfold InRange wrap
  push_cast at hlow hhigh
  constructor
  · omega
  · omega

lemma wrap_of_inRange (h : InRange w x) : wrap w x = x := by
  obtain ⟨hlow, hhigh⟩ := h
  apply Int.bmod_eq_of_le_mul_two
  · push_cast
    linarith
  · push_cast
    linarith

/-- Wrapping leaves alone exactly the integers in range. -/
lemma wrap_eq_self_iff : wrap w x = x ↔ InRange w x := by
  constructor
  · intro h
    rw [← h]
    exact inRange_wrap w x
  · exact wrap_of_inRange

/-- An integer above the range, by less than all the words, wraps to one below it. -/
lemma wrap_of_above (hlow : 2 ^ w ≤ 2 * x) (hhigh : 2 * x < 3 * 2 ^ w) : wrap w x = x - 2 ^ w := by
  have hrange : InRange w (x - 2 ^ w) := ⟨by linarith, by linarith⟩
  have hcast : ((2 ^ w : ℕ) : ℤ) = 2 ^ w := by push_cast; rfl
  rw [← wrap_of_inRange hrange]
  unfold wrap
  rw [← hcast, Int.sub_bmod_right]

/-- An integer below the range, by less than all the words, wraps to one above it. -/
lemma wrap_of_below (hlow : -3 * 2 ^ w ≤ 2 * x) (hhigh : 2 * x < -2 ^ w) :
    wrap w x = x + 2 ^ w := by
  have hrange : InRange w (x + 2 ^ w) := ⟨by linarith, by linarith⟩
  have hcast : ((2 ^ w : ℕ) : ℤ) = 2 ^ w := by push_cast; rfl
  rw [← wrap_of_inRange hrange]
  unfold wrap
  rw [← hcast, Int.add_bmod_right]

/-- A running sum kept in a word is the wrapped exact sum. -/
theorem foldl_wrap (w : ℕ) (ds : List ℤ) (a : ℤ) :
    ds.foldl (fun sum d => wrap w (sum + wrap w d)) (wrap w a) = wrap w (a + ds.sum) := by
  induction ds generalizing a with
  | nil => rw [List.foldl_nil, List.sum_nil, add_zero]
  | cons d ds ih =>
    have hadd : wrap w (wrap w a + wrap w d) = wrap w (a + d) := by
      unfold wrap
      rw [Int.bmod_add_bmod, Int.add_bmod_bmod]
    rw [List.foldl_cons, hadd, ih, List.sum_cons, add_assoc]

end SignedWord
