import Mathlib.Data.Int.Log
import Mathlib.Data.Rat.Floor
import Mathlib.Tactic.FieldSimp
import Mathlib.Tactic.GCongr
import Mathlib.Tactic.Linarith
import Mathlib.Tactic.Positivity
import Mathlib.Tactic.Ring

/-!
# Rounding to a binary floating-point format

A format has a precision and a least exponent.  `Format.round` takes a rational number to the
nearest one of the format, ties to the even significand; numbers below the normal ones are rounded
to the multiples of the least unit.  There is no largest number: what is rounded is assumed to stay
below it.

For a normal number the relative error of rounding is at most `2 ^ (-precision)`
(`abs_round_sub_le_of_normal`).  Multiples of the least unit have no other error either, as they are
exact where they are not normal (`abs_round_sub_le_of_onGrid`); sums and integer multiples of
rounded numbers are such.

`Within u k m x y` says that `x` is `y` up to `k` roundings of relative error `u`, relative to a
magnitude `m`.  It is kept by exact operations and pays one more rounding for each inexact one, so
the error of a computation is read off its operations.
-/

namespace Rounding

/-! ## Rounding to integers -/

/-- An integer nearest to a number. -/
def Nearest (x : ℚ) (n : ℤ) : Prop := |(n : ℚ) - x| ≤ 1 / 2

/-- The nearest integer, ties to even. -/
def nearestEven (x : ℚ) : ℤ :=
  if x - ⌊x⌋ < 1 / 2 then ⌊x⌋
  else if 1 / 2 < x - ⌊x⌋ then ⌊x⌋ + 1
  else ⌊x⌋ + ⌊x⌋ % 2

/-- The nearest integer, ties away from zero. -/
def nearestAway (x : ℚ) : ℤ :=
  if x - ⌊x⌋ < 1 / 2 then ⌊x⌋
  else if 1 / 2 < x - ⌊x⌋ then ⌊x⌋ + 1
  else if x < 0 then ⌊x⌋ else ⌊x⌋ + 1

lemma nearest_nearestEven (x : ℚ) : Nearest x (nearestEven x) := by
  have hlow := Int.floor_le x
  have hhigh := Int.lt_floor_add_one x
  unfold Nearest nearestEven
  rw [abs_le]
  split_ifs with hbelow habove
  · constructor <;> linarith
  · push_cast
    constructor <;> linarith
  · have htie : x - ⌊x⌋ = 1 / 2 := le_antisymm (not_lt.mp habove) (not_lt.mp hbelow)
    rcases Int.emod_two_eq_zero_or_one ⌊x⌋ with hmod | hmod
    · rw [hmod]
      push_cast
      constructor <;> linarith
    · rw [hmod]
      push_cast
      constructor <;> linarith

lemma nearest_nearestAway (x : ℚ) : Nearest x (nearestAway x) := by
  have hlow := Int.floor_le x
  have hhigh := Int.lt_floor_add_one x
  unfold Nearest nearestAway
  rw [abs_le]
  split_ifs with hbelow habove hneg
  · constructor <;> linarith
  · push_cast
    constructor <;> linarith
  · constructor <;> linarith
  · push_cast
    constructor <;> linarith

namespace Nearest

variable {x : ℚ} {n m : ℤ}

/-- The only integer less than a half away is the nearest one. -/
lemma eq_of_abs_lt (h : Nearest x n) (hm : |(m : ℚ) - x| < 1 / 2) : n = m := by
  have hdist : |(n : ℚ) - m| < 1 := by
    have htri := abs_sub_le (n : ℚ) x m
    rw [abs_sub_comm x] at htri
    unfold Nearest at h
    linarith
  have hzero : |n - m| < 1 := by exact_mod_cast hdist
  exact sub_eq_zero.mp (Int.abs_lt_one_iff.mp hzero)

/-- An integer is nearest to itself. -/
lemma eq_of_intCast (h : Nearest (m : ℚ) n) : n = m :=
  h.eq_of_abs_lt (by rw [sub_self, abs_zero]; norm_num)

/-- Nothing above an integer is rounded below it. -/
lemma le_of_le (h : Nearest x n) (hm : (m : ℚ) ≤ x) : m ≤ n := by
  have hlow := (abs_le.mp h).1
  have hlt : ((m - 1 : ℤ) : ℚ) < n := by
    push_cast
    linarith
  exact Int.sub_one_lt_iff.mp (by exact_mod_cast hlt)

/-- Nothing below an integer is rounded above it. -/
lemma ge_of_ge (h : Nearest x n) (hm : x ≤ m) : n ≤ m := by
  have hhigh := (abs_le.mp h).2
  have hlt : (n : ℚ) < ((m + 1 : ℤ) : ℚ) := by
    push_cast
    linarith
  exact Int.lt_add_one_iff.mp (by exact_mod_cast hlt)

end Nearest

/-! ## Formats -/

/-- A binary floating-point format: how many bits a significand has, and the exponent of the least
unit. -/
structure Format where
  precision : ℕ
  minExponent : ℤ

/-- IEEE binary64. -/
def binary64 : Format := ⟨53, -1074⟩

namespace Format

variable (f : Format)

/-- The relative error of rounding. -/
def unit : ℚ := 2 ^ (-(f.precision : ℤ))

/-- The exponent of the unit in the last place. -/
def exponent (x : ℚ) : ℤ := max (Int.log 2 |x| + 1 - f.precision) f.minExponent

/-- The nearest number of the format, ties to even. -/
def round (x : ℚ) : ℚ := nearestEven (x / 2 ^ f.exponent x) * 2 ^ f.exponent x

/-- The number is zero or at least the least normal one. -/
def Normal (x : ℚ) : Prop := x = 0 ∨ 2 ^ (f.minExponent + f.precision - 1) ≤ |x|

/-- The number is a multiple of the least unit. -/
def OnGrid (x : ℚ) : Prop := ∃ n : ℤ, x = n * 2 ^ f.minExponent

variable {f} {x y : ℚ}

lemma unit_pos : 0 < f.unit := zpow_pos two_pos _

/-- The error is at most half a unit in the last place. -/
lemma abs_round_sub_le (x : ℚ) : |f.round x - x| ≤ 2 ^ f.exponent x / 2 := by
  have hpos : (0 : ℚ) < 2 ^ f.exponent x := zpow_pos two_pos _
  have hnear : |(nearestEven (x / 2 ^ f.exponent x) : ℚ) - x / 2 ^ f.exponent x| ≤ 1 / 2 :=
    nearest_nearestEven _
  have hscale : f.round x - x =
      ((nearestEven (x / 2 ^ f.exponent x) : ℚ) - x / 2 ^ f.exponent x) * 2 ^ f.exponent x := by
    unfold round
    field_simp
  rw [hscale, abs_mul, abs_of_pos hpos]
  linarith [mul_le_mul_of_nonneg_right hnear hpos.le]

/-- A multiple of the unit in the last place is not changed. -/
lemma round_of_multiple {n : ℤ} (h : x = n * 2 ^ f.exponent x) : f.round x = x := by
  have hpos : (0 : ℚ) < 2 ^ f.exponent x := zpow_pos two_pos _
  have hquotient : x / 2 ^ f.exponent x = n := by
    rw [div_eq_iff hpos.ne']
    exact h
  unfold round
  rw [hquotient, (nearest_nearestEven (n : ℚ)).eq_of_intCast]
  exact h.symm

@[simp] lemma round_zero : f.round 0 = 0 :=
  round_of_multiple (n := 0) (by rw [Int.cast_zero, zero_mul])

/-- A number whose significand fits is not changed. -/
lemma round_of_fits {n k : ℤ} (hn : |n| < 2 ^ f.precision) (hk : f.minExponent ≤ k) :
    f.round (n * 2 ^ k) = n * 2 ^ k := by
  rcases eq_or_ne n 0 with rfl | hne
  · simp
  have hpos : 0 < |(n : ℚ) * 2 ^ k| :=
    abs_pos.mpr (mul_ne_zero (Int.cast_ne_zero.mpr hne) (zpow_ne_zero _ two_ne_zero))
  have hbound : |(n : ℚ) * 2 ^ k| < ((2 : ℕ) : ℚ) ^ ((f.precision : ℤ) + k) := by
    have hn' : |(n : ℚ)| < 2 ^ f.precision := by exact_mod_cast hn
    rw [abs_mul, abs_of_pos (zpow_pos two_pos k : (0 : ℚ) < 2 ^ k), Nat.cast_ofNat,
      zpow_add₀ two_ne_zero, zpow_natCast]
    exact mul_lt_mul_of_pos_right hn' (zpow_pos two_pos k)
  have hlog := (Int.lt_zpow_iff_log_lt one_lt_two hpos).mp hbound
  have hexponent : f.exponent ((n : ℚ) * 2 ^ k) ≤ k := max_le (by omega) hk
  obtain ⟨d, hd⟩ := Int.le.dest hexponent
  refine round_of_multiple (n := n * 2 ^ d) ?_
  conv_lhs => rw [← hd]
  rw [zpow_add₀ two_ne_zero, zpow_natCast]
  push_cast
  ring

/-- An integer that fits is not changed. -/
lemma round_intCast (hf : f.minExponent ≤ 0) {n : ℤ} (hn : |n| < 2 ^ f.precision) :
    f.round n = n := by
  have hround := round_of_fits hn hf
  rwa [zpow_zero, mul_one] at hround

/-- The relative error for a normal number. -/
lemma abs_round_sub_le_of_normal (h : f.Normal x) : |f.round x - x| ≤ f.unit * |x| := by
  rcases h with rfl | hnormal
  · simp
  have hpos : 0 < |x| := (zpow_pos two_pos _).trans_le hnormal
  have hnormal' : ((2 : ℕ) : ℚ) ^ (f.minExponent + f.precision - 1) ≤ |x| := by
    exact_mod_cast hnormal
  have hlog := (Int.zpow_le_iff_le_log one_lt_two hpos).mp hnormal'
  have hexponent : f.exponent x = Int.log 2 |x| + 1 - f.precision := max_eq_left (by omega)
  have hself := Int.zpow_log_le_self (b := 2) one_lt_two hpos
  rw [Nat.cast_ofNat] at hself
  calc |f.round x - x| ≤ 2 ^ f.exponent x / 2 := abs_round_sub_le x
    _ = f.unit * 2 ^ Int.log 2 |x| := by
      rw [hexponent, unit, ← zpow_add₀ two_ne_zero, div_eq_iff two_ne_zero,
        ← zpow_add_one₀ two_ne_zero]
      congr 1
      ring
    _ ≤ f.unit * |x| := mul_le_mul_of_nonneg_left hself unit_pos.le

/-- The relative error for a multiple of the least unit. -/
lemma abs_round_sub_le_of_onGrid (h : f.OnGrid x) : |f.round x - x| ≤ f.unit * |x| := by
  by_cases hnormal : f.Normal x
  · exact abs_round_sub_le_of_normal hnormal
  obtain ⟨hne, hlt⟩ := not_or.mp hnormal
  have hlt' : |x| < ((2 : ℕ) : ℚ) ^ (f.minExponent + f.precision - 1) := by
    exact_mod_cast not_le.mp hlt
  have hlog := (Int.lt_zpow_iff_log_lt one_lt_two (abs_pos.mpr hne)).mp hlt'
  have hexponent : f.exponent x = f.minExponent := max_eq_right (by omega)
  obtain ⟨n, hn⟩ := h
  rw [round_of_multiple (n := n) (hexponent.symm ▸ hn), sub_self, abs_zero]
  exact mul_nonneg unit_pos.le (abs_nonneg x)

/-- A rounded number is on the grid. -/
lemma onGrid_round (x : ℚ) : f.OnGrid (f.round x) := by
  obtain ⟨d, hd⟩ := Int.le.dest (le_max_right (Int.log 2 |x| + 1 - f.precision) f.minExponent)
  refine ⟨nearestEven (x / 2 ^ f.exponent x) * 2 ^ d, ?_⟩
  have hexponent : f.exponent x = f.minExponent + d := hd.symm
  unfold round
  rw [hexponent, zpow_add₀ two_ne_zero, zpow_natCast]
  push_cast
  ring

lemma onGrid_zero : f.OnGrid 0 := ⟨0, by rw [Int.cast_zero, zero_mul]⟩

lemma OnGrid.add (hx : f.OnGrid x) (hy : f.OnGrid y) : f.OnGrid (x + y) := by
  obtain ⟨n, rfl⟩ := hx
  obtain ⟨m, rfl⟩ := hy
  exact ⟨n + m, by push_cast; ring⟩

lemma OnGrid.sub (hx : f.OnGrid x) (hy : f.OnGrid y) : f.OnGrid (x - y) := by
  obtain ⟨n, rfl⟩ := hx
  obtain ⟨m, rfl⟩ := hy
  exact ⟨n - m, by push_cast; ring⟩

lemma OnGrid.mul_intCast (hx : f.OnGrid x) (m : ℤ) : f.OnGrid (x * m) := by
  obtain ⟨n, rfl⟩ := hx
  exact ⟨n * m, by push_cast; ring⟩

lemma round_nonneg (h : 0 ≤ x) : 0 ≤ f.round x := by
  have hpos : (0 : ℚ) < 2 ^ f.exponent x := zpow_pos two_pos _
  have hquotient : ((0 : ℤ) : ℚ) ≤ x / 2 ^ f.exponent x := by
    rw [Int.cast_zero]
    exact div_nonneg h hpos.le
  have hle := (nearest_nearestEven (x / 2 ^ f.exponent x)).le_of_le hquotient
  exact mul_nonneg (Int.cast_nonneg hle) hpos.le

end Format

/-! ## Accumulated errors -/

/-- Up to `k` roundings of relative error `u`, relative to the magnitude `m`. -/
structure Within (u : ℚ) (k : ℕ) (m x y : ℚ) : Prop where
  magnitude : |y| ≤ m
  error : |x - y| ≤ ((1 + u) ^ k - 1) * m

namespace Within

variable {u m m' x x' y y' : ℚ} {k k' : ℕ}

lemma of_exact (hu : 0 ≤ u) (h : |y| ≤ m) : Within u k m y y := by
  have hpow : 1 ≤ (1 + u) ^ k := one_le_pow₀ (by linarith)
  refine ⟨h, ?_⟩
  rw [sub_self, abs_zero]
  exact mul_nonneg (by linarith) ((abs_nonneg y).trans h)

lemma mono (hu : 0 ≤ u) (h : Within u k m x y) (hk : k ≤ k') (hm : m ≤ m') :
    Within u k' m' x y := by
  have hpow : (1 + u) ^ k ≤ (1 + u) ^ k' := pow_le_pow_right₀ (by linarith) hk
  have hone : 1 ≤ (1 + u) ^ k := one_le_pow₀ (by linarith)
  have hpos : 0 ≤ m := (abs_nonneg y).trans h.magnitude
  refine ⟨h.magnitude.trans hm, h.error.trans ?_⟩
  exact mul_le_mul (by linarith) hm hpos (by linarith)

/-- One more rounding. -/
lemma round (h : Within u k m x y) (hu : 0 ≤ u) {r : ℚ} (hr : |r - x| ≤ u * |x|) :
    Within u (k + 1) m r y := by
  have hx : |x| ≤ (1 + u) ^ k * m := by
    have htri := abs_sub_abs_le_abs_sub x y
    linarith [h.error, h.magnitude]
  refine ⟨h.magnitude, ?_⟩
  calc |r - y| ≤ |r - x| + |x - y| := abs_sub_le r x y
    _ ≤ u * ((1 + u) ^ k * m) + ((1 + u) ^ k - 1) * m :=
      add_le_add (hr.trans (mul_le_mul_of_nonneg_left hx hu)) h.error
    _ = ((1 + u) ^ (k + 1) - 1) * m := by ring

lemma add (h : Within u k m x y) (h' : Within u k m' x' y') :
    Within u k (m + m') (x + x') (y + y') := by
  refine ⟨(abs_add_le y y').trans (add_le_add h.magnitude h'.magnitude), ?_⟩
  have hsplit : x + x' - (y + y') = x - y + (x' - y') := by ring
  rw [hsplit, mul_add]
  exact (abs_add_le _ _).trans (add_le_add h.error h'.error)

lemma neg (h : Within u k m x y) : Within u k m (-x) (-y) := by
  refine ⟨(abs_neg y).symm ▸ h.magnitude, ?_⟩
  rw [← neg_sub', abs_neg]
  exact h.error

lemma sub (h : Within u k m x y) (h' : Within u k m' x' y') :
    Within u k (m + m') (x - x') (y - y') := by
  rw [sub_eq_add_neg x, sub_eq_add_neg y]
  exact h.add h'.neg

/-- An exact factor. -/
lemma mul_exact (h : Within u k m x y) (c : ℚ) : Within u k (m * |c|) (x * c) (y * c) := by
  refine ⟨?_, ?_⟩
  · rw [abs_mul]
    exact mul_le_mul_of_nonneg_right h.magnitude (abs_nonneg c)
  · rw [← sub_mul, abs_mul, ← mul_assoc]
    exact mul_le_mul_of_nonneg_right h.error (abs_nonneg c)

/-- An exact divisor. -/
lemma div_exact (h : Within u k m x y) (c : ℚ) : Within u k (m / |c|) (x / c) (y / c) := by
  rw [div_eq_mul_inv, div_eq_mul_inv, div_eq_mul_inv, ← abs_inv]
  exact h.mul_exact c⁻¹

end Within

/-- A few roundings have little more than their sum for an error. -/
lemma pow_sub_one_le {u : ℚ} (hu : 0 ≤ u) {k : ℕ} (hk : 2 * k * u ≤ 1) :
    (1 + u) ^ k - 1 ≤ 2 * k * u := by
  induction k with
  | zero => simp
  | succ k ih =>
    push_cast at hk ⊢
    have hk' : 2 * (k : ℚ) * u ≤ 1 := by linarith
    have hpow : (1 + u) ^ k ≤ 1 + 2 * k * u := by linarith [ih hk']
    have hu' : 2 * (k : ℚ) * u * u ≤ u := mul_le_of_le_one_left hu hk'
    calc (1 + u) ^ (k + 1) - 1 = (1 + u) ^ k * (1 + u) - 1 := by rw [pow_succ]
      _ ≤ (1 + 2 * k * u) * (1 + u) - 1 :=
        sub_le_sub_right (mul_le_mul_of_nonneg_right hpow (by linarith)) 1
      _ ≤ 2 * (k + 1) * u := by linarith

end Rounding
