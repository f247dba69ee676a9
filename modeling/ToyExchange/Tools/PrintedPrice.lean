import ToyExchange.Tools.OrderGenerator

/-!
# Printed prices

The tools print a price in USD with two decimals.  The price is first divided as a double, which
rounds to 53 bits, and the double is then rounded to hundredths, ties to even.

Two roundings in a row can in general go the wrong way.  Here they do not: the first one is off by
less than one unit of the price, and a price is an integer, so what is printed is a nearest cent of
the price itself, and prices are printed in their order.
-/

namespace ToyExchange

namespace Tools

open Rounding

/-! ## Texts of numbers -/

/-- A number of hundredths with a point before its last two digits. -/
def hundredths (cents : ℕ) : List Char :=
  Nat.toDigits 10 (cents / 100) ++ ['.', (cents / 10 % 10).digitChar, (cents % 10).digitChar]

/-- `f"{x:.2f}"`: the sign, and the nearest number of hundredths. -/
def twoDecimals (x : ℚ) : List Char :=
  (if x < 0 then ['-'] else []) ++ hundredths (nearestEven (100 * |x|)).toNat

/-- `format_price`. -/
def formatPrice (price : ℤ) : List Char := twoDecimals (double (price / priceMultiplier))

/-! ## Reading them -/

/-- The number of hundredths that a text with two decimals shows. -/
def centsShown (text : List Char) : ℤ :=
  let cents : ℤ := Nat.ofDigitChars 10 (text.filter Char.isDigit) 0
  if text.head? = some '-' then -cents else cents

/-- The digits are those of the number. -/
lemma ofDigitChars_hundredths (cents : ℕ) :
    Nat.ofDigitChars 10 ((hundredths cents).filter Char.isDigit) 0 = cents := by
  have hunits : (Nat.toDigits 10 (cents / 100)).filter Char.isDigit =
      Nat.toDigits 10 (cents / 100) :=
    List.filter_eq_self.mpr fun ch hch => Nat.isDigit_of_mem_toDigits (by decide) (by decide) hch
  have hdigit : ∀ n : ℕ, (n % 10).digitChar.isDigit := by
    intro n
    rw [Nat.isDigit_digitChar]
    exact decide_eq_true (Nat.mod_lt _ (by decide))
  unfold hundredths
  rw [List.filter_append, hunits, List.filter_cons_of_neg (by decide),
    List.filter_cons_of_pos (hdigit _), List.filter_cons_of_pos (hdigit _), List.filter_nil,
    Nat.ofDigitChars_append, Nat.ofDigitChars_ten_toDigits,
    Nat.ofDigitChars_cons_digitChar_of_lt_ten (Nat.mod_lt _ (by decide)),
    Nat.ofDigitChars_cons_digitChar_of_lt_ten (Nat.mod_lt _ (by decide)), Nat.ofDigitChars_nil]
  omega

/-- The first character is a digit. -/
lemma head?_hundredths (cents : ℕ) : (hundredths cents).head? ≠ some '-' := by
  intro hhead
  unfold hundredths at hhead
  rw [List.head?_append_of_ne_nil _ Nat.toDigits_ne_nil] at hhead
  have hdigit := Nat.isDigit_of_mem_toDigits (by decide) (by decide) (List.mem_of_head? hhead)
  exact absurd hdigit (by decide)

lemma centsShown_hundredths (cents : ℕ) : centsShown (hundredths cents) = cents := by
  unfold centsShown
  rw [if_neg (head?_hundredths cents), ofDigitChars_hundredths]

lemma centsShown_minus (cents : ℕ) : centsShown ('-' :: hundredths cents) = -cents := by
  unfold centsShown
  rw [if_pos List.head?_cons, List.filter_cons_of_neg (by decide), ofDigitChars_hundredths]

/-- The printed number of hundredths is a nearest one. -/
lemma nearest_twoDecimals (x : ℚ) : Nearest (100 * x) (centsShown (twoDecimals x)) := by
  have hnonneg : 0 ≤ nearestEven (100 * |x|) := (nearest_nearestEven _).le_of_le (by simp)
  have hnearest := abs_le.mp (nearest_nearestEven (100 * |x|))
  unfold twoDecimals Nearest
  rw [abs_le]
  split_ifs with hx
  · rw [List.singleton_append, centsShown_minus, Int.toNat_of_nonneg hnonneg]
    rw [abs_of_neg hx] at hnearest ⊢
    push_cast
    constructor <;> linarith
  · rw [List.nil_append, centsShown_hundredths, Int.toNat_of_nonneg hnonneg]
    rw [abs_of_nonneg (not_lt.mp hx)] at hnearest ⊢
    exact hnearest

/-! ## Prices -/

/-- A cent in the unit of prices is `10 ^ 4`.  The division is off by one part in `2 ^ 53`. -/
lemma abs_centsShown_sub_le (price : ℤ) :
    |10000 * centsShown (formatPrice price) - price| ≤ 5000 + |price| / 2 ^ 53 := by
  have hcents := abs_le.mp (nearest_twoDecimals (double (price / priceMultiplier)))
  have hdouble : |double (ToyExchange.toUsd price) - ToyExchange.toUsd price| ≤
      doubleError * |ToyExchange.toUsd price| := Doubles.abs_double_toUsd_sub_le price
  have husd : ToyExchange.toUsd price = (price : ℚ) / 1000000 := rfl
  have hmillion : ((priceMultiplier : ℤ) : ℚ) = 1000000 := rfl
  rw [husd, doubleError_eq, abs_div, abs_of_pos (by norm_num : (0 : ℚ) < 1000000),
    abs_le] at hdouble
  rw [hmillion] at hcents
  have hquotient : |10000 * (centsShown (formatPrice price) : ℚ) - price| ≤
      5000 + |(price : ℚ)| / 2 ^ 53 := by
    unfold formatPrice
    rw [hmillion, abs_le]
    constructor <;> linarith
  -- the distance is an integer
  have hscaled : (|10000 * centsShown (formatPrice price) - price| - 5000) * 2 ^ 53 ≤ |price| := by
    have hcast : ((|10000 * centsShown (formatPrice price) - price| : ℤ) : ℚ) - 5000 ≤
        ((|price| : ℤ) : ℚ) / 2 ^ 53 := by
      push_cast
      linarith
    rw [le_div_iff₀ (by norm_num)] at hcast
    exact_mod_cast hcast
  have hdiv := (Int.le_ediv_iff_mul_le (by norm_num)).mpr hscaled
  linarith

/-- **A printed price is the nearest cent.**  The text of every price shows, with its sign and two
decimals, a number of cents that is at most half a cent away from the price, beyond one unit for
each `2 ^ 53` units of the price.  So prices below `2 ^ 53` are printed as a nearest cent, whole
numbers of cents exactly, and a higher price is never printed as a lower one. -/
theorem formatPrice_nearest_cent (price : ℤ) :
    |10000 * centsShown (formatPrice price) - price| ≤ 5000 + |price| / 2 ^ 53 ∧
    (∀ cents, price = 10000 * cents → |price| < 2 ^ 53 →
      centsShown (formatPrice price) = cents) ∧
    ∀ higher, price ≤ higher → |price| < 2 ^ 53 → |higher| < 2 ^ 53 →
      centsShown (formatPrice price) ≤ centsShown (formatPrice higher) := by
  have hhalf : ∀ p : ℤ, |p| < 2 ^ 53 → |10000 * centsShown (formatPrice p) - p| ≤ 5000 := by
    intro p hp
    have hnear := abs_centsShown_sub_le p
    rwa [Int.ediv_eq_zero_of_lt (abs_nonneg p) hp, add_zero] at hnear
  refine ⟨abs_centsShown_sub_le price, fun cents hcents hprice => ?_,
    fun higher hle hprice hhigher => ?_⟩
  · have hnear := abs_le.mp (hhalf price hprice)
    omega
  · rcases hle.eq_or_lt with rfl | hlt
    · exact le_rfl
    · have hnear := abs_le.mp (hhalf price hprice)
      have hnear' := abs_le.mp (hhalf higher hhigher)
      omega

/-- Half a cent is printed as the even cent if the division is exact, else as the double has it. -/
example : formatPrice 125000 = "0.12".toList ∧ formatPrice (-5000) = "-0.01".toList := by
  decide +kernel

end Tools

end ToyExchange
