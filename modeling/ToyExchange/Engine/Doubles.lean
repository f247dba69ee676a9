import ToyExchange.Engine.Accounting
import ToyExchange.Foundations.Rounding

/-!
# The accounts in doubles

`User` takes amounts of money as rational numbers.  In the source they are doubles: each operation
is followed by a rounding, and so is each conversion of an integer.  Here is the same update with
these roundings.

Positions are integers and the branches depend on positions only, so both updates go the same way.
`Follows` compares the holdings: after `n` fills the average cost and the realized profit are those
of the exact update up to `3 * n + 1` roundings, the average cost relative to itself and the
realized profit relative to the money that has changed hands for what was closed.  Every operation
of a fill pays one rounding, and no branch has more than three in a row.

Prices and volumes below `2 ^ 53` are converted exactly.  All results are far from overflow then.
Prices have to be positive: only then is the average, the only quotient that is not a price, far
from underflow and its error small besides it, since nothing cancels.
-/

namespace ToyExchange

open Rounding

/-- The double nearest to a number. -/
def double (x : ℚ) : ℚ := binary64.round x

namespace Doubles

/-! ## The code in doubles -/

/-- `ToUsd`. -/
def toUsd (price : ℤ) : ℚ := double (double price / double priceMultiplier)

/-- `ToPrice`. -/
def toPrice (usd : ℚ) : ℤ := nearestAway (double (usd * double priceMultiplier))

/-- The average cost after a fill that opens or extends the position. -/
def rolledCost (h : Holding) (signedDelta : ℤ) (execUsd : ℚ) : ℚ :=
  let oldAbs := double h.volume.natAbs
  let addAbs := double signedDelta.natAbs
  double (double (double (h.avgCost * oldAbs) + double (execUsd * addAbs)) /
    double (oldAbs + addAbs))

/-- The profit realized by a fill on the part of the position that it closes. -/
def closedPnl (h : Holding) (signedDelta : ℤ) (execUsd : ℚ) : ℚ :=
  let closedAmount : ℕ := min h.volume.natAbs signedDelta.natAbs
  let pnlPerUnit := double (if h.volume > 0 then execUsd - h.avgCost else h.avgCost - execUsd)
  double (pnlPerUnit * double closedAmount)

/-- The update of a holding by a fill. -/
def applyFill (h : Holding) (side : Side) (execPrice tradeVolume : ℤ) : Holding :=
  let signedDelta := side.signedDelta tradeVolume
  let execUsd := toUsd execPrice
  let h' := if Holding.SameDirection h.volume signedDelta
    then { h with avgCost := rolledCost h signedDelta execUsd }
    else { h with realizedPnl := double (h.realizedPnl + closedPnl h signedDelta execUsd) }
  let newVolume := h.volume + signedDelta
  if ¬ Holding.SameDirection h.volume signedDelta ∧ Holding.FlippedSign h.volume newVolume then
    { h' with avgCost := execUsd, volume := newVolume }
  else if newVolume = 0 then { h' with avgCost := 0, volume := newVolume }
  else { h' with volume := newVolume }

/-- Mark the open position to market. -/
def refreshUnrealizedPnl (h : Holding) (midPrice : ℤ) : Holding :=
  { h with unrealizedPnl := double (double h.volume * double (toUsd midPrice - h.avgCost)) }

/-- The holding of a ticker after the fills on it. -/
def holdingAfter (fills : List Execution) : Holding :=
  fills.foldl (fun h x => applyFill h x.side x.execPrice x.tradeVolume) {}

end Doubles

/-! ## Single roundings -/

section Double

variable {x : ℚ}

/-- The relative error of a double. -/
def doubleError : ℚ := binary64.unit

lemma doubleError_eq : doubleError = 1 / 2 ^ 53 := by
  unfold doubleError Format.unit binary64
  norm_num

lemma doubleError_nonneg : 0 ≤ doubleError := Format.unit_pos.le

lemma double_intCast {n : ℤ} (h : |n| < 2 ^ 53) : double n = n :=
  Format.round_intCast (f := binary64) (by decide) h

lemma double_natCast {n : ℕ} (h : n < 2 ^ 53) : double n = n := by
  have hint := double_intCast (n := n) (by rw [Nat.abs_cast]; exact_mod_cast h)
  exact_mod_cast hint

/-- Numbers above this bound are normal. -/
lemma normal_of_le (h : 1 / 2 ^ 100 ≤ |x|) : binary64.Normal x := by
  refine .inr (le_trans ?_ h)
  have hpow : (2 : ℚ) ^ (-1022 : ℤ) ≤ 2 ^ (-100 : ℤ) :=
    zpow_le_zpow_right₀ one_le_two (by decide)
  refine le_trans hpow (le_of_eq ?_)
  norm_num

lemma abs_double_sub_le (h : binary64.OnGrid x ∨ 1 / 2 ^ 100 ≤ |x|) :
    |double x - x| ≤ doubleError * |x| := by
  rcases h with h | h
  · exact Format.abs_round_sub_le_of_onGrid h
  · exact Format.abs_round_sub_le_of_normal (normal_of_le h)

lemma onGrid_double (x : ℚ) : binary64.OnGrid (double x) := Format.onGrid_round x

/-- Rounding does not lose half of a number. -/
lemma half_le_double (h : binary64.OnGrid x ∨ 1 / 2 ^ 100 ≤ |x|) (hx : 0 ≤ x) :
    x / 2 ≤ double x := by
  have herror := (abs_le.mp (abs_double_sub_le h)).1
  rw [doubleError_eq, abs_of_nonneg hx] at herror
  linarith

lemma double_nonneg (h : 0 ≤ x) : 0 ≤ double x := Format.round_nonneg h

section Within

variable {k : ℕ} {m m' x x' y y' : ℚ}

/-- A product with a volume, in doubles. -/
lemma within_double_mul (h : Within doubleError k m x y) (hx : binary64.OnGrid x) {c : ℕ}
    (hc : c < 2 ^ 53) : Within doubleError (k + 1) (m * c) (double (x * double c)) (y * c) := by
  have hgrid : binary64.OnGrid (x * c) := by exact_mod_cast hx.mul_intCast (c : ℤ)
  have hproduct := (h.mul_exact c).round doubleError_nonneg (abs_double_sub_le (.inl hgrid))
  rw [Nat.abs_cast] at hproduct
  rwa [double_natCast hc]

/-- A sum of two doubles. -/
lemma within_double_add (h : Within doubleError k m x y) (hx : binary64.OnGrid x)
    (h' : Within doubleError k m' x' y') (hx' : binary64.OnGrid x') :
    Within doubleError (k + 1) (m + m') (double (x + x')) (y + y') :=
  (h.add h').round doubleError_nonneg (abs_double_sub_le (.inl (hx.add hx')))

/-- A difference of two doubles. -/
lemma within_double_sub (h : Within doubleError k m x y) (hx : binary64.OnGrid x)
    (h' : Within doubleError k m' x' y') (hx' : binary64.OnGrid x') :
    Within doubleError (k + 1) (m + m') (double (x - x')) (y - y') :=
  (h.sub h').round doubleError_nonneg (abs_double_sub_le (.inl (hx.sub hx')))

end Within

end Double

namespace Doubles

/-! ## Prices -/

/-- A positive price that counts as a double exactly, in the smallest unit. -/
def ValidPrice (price : ℤ) : Prop := 0 < price ∧ price < 2 ^ 53

instance : DecidablePred ValidPrice := fun price =>
  inferInstanceAs (Decidable (0 < price ∧ price < 2 ^ 53))

lemma double_priceMultiplier : double priceMultiplier = priceMultiplier :=
  double_intCast (by decide)

lemma toUsd_eq {price : ℤ} (h : |price| < 2 ^ 53) :
    toUsd price = double (ToyExchange.toUsd price) := by
  unfold toUsd
  rw [double_intCast h, double_priceMultiplier]
  rfl

lemma le_abs_toUsd {price : ℤ} (h : price ≠ 0) : 1 / 2 ^ 20 ≤ |ToyExchange.toUsd price| := by
  have hone : (1 : ℚ) ≤ |(price : ℚ)| := by exact_mod_cast Int.one_le_abs h
  unfold ToyExchange.toUsd priceMultiplier
  rw [abs_div]
  norm_num
  rw [le_div_iff₀ (by norm_num)]
  linarith

/-- The quotient of a price is not changed by more than its relative error. -/
lemma abs_double_toUsd_sub_le (price : ℤ) :
    |double (ToyExchange.toUsd price) - ToyExchange.toUsd price| ≤
      doubleError * |ToyExchange.toUsd price| := by
  rcases eq_or_ne price 0 with rfl | hne
  · refine abs_double_sub_le (.inl ?_)
    unfold ToyExchange.toUsd
    rw [Int.cast_zero, zero_div]
    exact Format.onGrid_zero
  · refine abs_double_sub_le (.inr (le_trans ?_ (le_abs_toUsd hne)))
    norm_num

/-- Converting a price rounds once. -/
lemma abs_toUsd_sub_le {price : ℤ} (h : |price| < 2 ^ 53) :
    |toUsd price - ToyExchange.toUsd price| ≤ doubleError * |ToyExchange.toUsd price| := by
  rw [toUsd_eq h]
  exact abs_double_toUsd_sub_le price

lemma onGrid_toUsd (price : ℤ) : binary64.OnGrid (toUsd price) := onGrid_double _

/-- The double of a price is the price up to one rounding. -/
lemma within_toUsd {price : ℤ} (h : |price| < 2 ^ 53) :
    Within doubleError 1 |ToyExchange.toUsd price| (toUsd price) (ToyExchange.toUsd price) := by
  have hexact : Within doubleError 0 |ToyExchange.toUsd price| (ToyExchange.toUsd price)
      (ToyExchange.toUsd price) := .of_exact doubleError_nonneg le_rfl
  exact hexact.round doubleError_nonneg (abs_toUsd_sub_le h)

/-- **Prices survive the conversion to USD and back.**  For every price up to `2 ^ 50` in absolute
value, `ToPrice` takes the double that `ToUsd` computes back to the price. -/
theorem toPrice_toUsd {price : ℤ} (h : |price| ≤ 2 ^ 50) : toPrice (toUsd price) = price := by
  have hprice : |price| < 2 ^ 53 := lt_of_le_of_lt h (by norm_num)
  have hscale : ToyExchange.toUsd price * priceMultiplier = price := by
    unfold ToyExchange.toUsd priceMultiplier
    norm_num
  have hscaled := (within_toUsd hprice).mul_exact priceMultiplier
  rw [← abs_mul, hscale] at hscaled
  have hgrid := (onGrid_toUsd price).mul_intCast priceMultiplier
  have hrounded := hscaled.round doubleError_nonneg (abs_double_sub_le (.inl hgrid))
  unfold toPrice
  rw [double_priceMultiplier]
  refine (nearest_nearestAway _).eq_of_abs_lt ?_
  rw [abs_sub_comm]
  refine lt_of_le_of_lt hrounded.error ?_
  have hle : |(price : ℚ)| ≤ 2 ^ 50 := by exact_mod_cast h
  rw [doubleError_eq]
  linarith

/-- A dollar and a tenth of a cent. -/
theorem toPrice_toUsd_dollar : |(1001000 : ℤ)| ≤ 2 ^ 50 ∧ toPrice (toUsd 1001000) = 1001000 :=
  ⟨by norm_num, toPrice_toUsd (by norm_num)⟩

/-! ## One fill -/

/-- The holding in doubles and the exact one after `n` fills, in which this much money has changed
hands. -/
structure Follows (n : ℕ) (turnover : ℚ) (d h : Holding) : Prop where
  volume : d.volume = h.volume
  avgCost : Within doubleError (3 * n + 1) h.avgCost d.avgCost h.avgCost
  avgCost_nonneg : 0 ≤ d.avgCost
  avgCost_onGrid : binary64.OnGrid d.avgCost
  realizedPnl_onGrid : binary64.OnGrid d.realizedPnl
  /-- Money that was paid for the open position has not been realized. -/
  realizedPnl : Within doubleError (3 * n + 1) (turnover - h.volume.natAbs * h.avgCost)
    d.realizedPnl h.realizedPnl
  flat : h.volume = 0 → d.avgCost = 0

lemma follows_empty : Follows 0 0 {} {} where
  volume := rfl
  avgCost := .of_exact doubleError_nonneg (by simp)
  avgCost_nonneg := le_rfl
  avgCost_onGrid := Format.onGrid_zero
  realizedPnl_onGrid := Format.onGrid_zero
  realizedPnl := .of_exact doubleError_nonneg (by simp)
  flat _ := rfl

section Fill

variable {n : ℕ} {turnover : ℚ} {d h : Holding} {price delta : ℤ}

lemma toUsd_pos (hprice : ValidPrice price) : 0 < ToyExchange.toUsd price := by
  unfold ToyExchange.toUsd priceMultiplier
  have hpos : (0 : ℚ) < price := Int.cast_pos.mpr hprice.1
  positivity

lemma ValidPrice.within (hprice : ValidPrice price) :
    Within doubleError 1 (ToyExchange.toUsd price) (toUsd price) (ToyExchange.toUsd price) := by
  have habs : |price| < 2 ^ 53 := by
    rw [abs_of_pos hprice.1]
    exact hprice.2
  have hwithin := within_toUsd habs
  rwa [abs_of_pos (toUsd_pos hprice)] at hwithin

/-- A price in doubles is not much smaller. -/
lemma le_toUsd (hprice : ValidPrice price) : 1 / 2 ^ 21 ≤ toUsd price := by
  have hbound := le_abs_toUsd hprice.1.ne'
  rw [abs_of_pos (toUsd_pos hprice)] at hbound
  have herror := (abs_le.mp hprice.within.error).1
  rw [doubleError_eq] at herror
  linarith

/-- What the two products of a rolled cost add up to is not tiny. -/
lemma le_rolledSum (hcost : 0 ≤ d.avgCost) (hprice : ValidPrice price) {a b : ℕ} (hb : 1 ≤ b)
    (hb' : b < 2 ^ 53) :
    1 / 2 ^ 23 ≤ double (double (d.avgCost * double a) + double (toUsd price * double b)) := by
  have hfirst : 0 ≤ double (d.avgCost * double a) :=
    double_nonneg (mul_nonneg hcost (double_nonneg (Nat.cast_nonneg a)))
  have hone : (1 : ℚ) ≤ b := by exact_mod_cast hb
  have hle : 1 / 2 ^ 21 ≤ toUsd price * double b := by
    rw [double_natCast hb']
    have husd := le_toUsd hprice
    exact husd.trans (le_mul_of_one_le_right (le_trans (by norm_num) husd) hone)
  have hsecond := half_le_double (.inr (le_trans (by norm_num) (hle.trans (le_abs_self _))))
    (le_trans (by norm_num) hle)
  have hsum : 1 / 2 ^ 22 ≤ double (d.avgCost * double a) + double (toUsd price * double b) := by
    linarith
  have hrounded := half_le_double (.inr (le_trans (by norm_num) (hsum.trans (le_abs_self _))))
    (le_trans (by norm_num) hsum)
  linarith

/-- The average cost rolled forward in doubles. -/
lemma within_rolledCost (hf : Follows n turnover d h) (hprice : ValidPrice price)
    (hdelta : delta ≠ 0) (hroom : h.volume.natAbs + delta.natAbs < 2 ^ 53) :
    Within doubleError (3 * (n + 1) + 1) (h.rolledCost delta (ToyExchange.toUsd price))
        (rolledCost d delta (toUsd price)) (h.rolledCost delta (ToyExchange.toUsd price)) ∧
      0 ≤ rolledCost d delta (toUsd price) := by
  have hu := doubleError_nonneg
  unfold rolledCost Holding.rolledCost
  rw [hf.volume]
  dsimp only
  generalize h.volume.natAbs = a at hroom ⊢
  have hb : 1 ≤ delta.natAbs := Int.natAbs_pos.mpr hdelta
  generalize delta.natAbs = b at hroom hb ⊢
  have hdouble : double (double a + double b) = (a + b : ℕ) := by
    rw [double_natCast (by omega : a < 2 ^ 53), double_natCast (by omega : b < 2 ^ 53),
      ← Nat.cast_add, double_natCast hroom]
  -- the two products, their sum, and the quotient
  have hcost := within_double_mul hf.avgCost hf.avgCost_onGrid (by omega : a < 2 ^ 53)
  have hexec := (within_double_mul hprice.within (onGrid_toUsd price)
    (by omega : b < 2 ^ 53)).mono hu (by omega : 1 + 1 ≤ 3 * n + 1 + 1) le_rfl
  have hsum := within_double_add hcost (onGrid_double _) hexec (onGrid_double _)
  have hquotient := hsum.div_exact ((a + b : ℕ) : ℚ)
  have hpos : (0 : ℚ) < (a + b : ℕ) := Nat.cast_pos.mpr (by omega)
  have hbound : ((a + b : ℕ) : ℚ) ≤ 2 ^ 53 := by exact_mod_cast hroom.le
  have hlow := le_rolledSum hf.avgCost_nonneg hprice (a := a) hb (by omega)
  have hlarge : 1 / 2 ^ 100 ≤ double (double (d.avgCost * double a) +
      double (toUsd price * double b)) / ((a + b : ℕ) : ℚ) := by
    rw [le_div_iff₀ hpos]
    linarith
  have hrounded := hquotient.round hu
    (abs_double_sub_le (.inr (hlarge.trans (le_abs_self _))))
  rw [Nat.abs_cast] at hrounded
  rw [hdouble]
  refine ⟨?_, double_nonneg (le_trans (by norm_num) hlarge)⟩
  rw [← Nat.cast_add]
  exact hrounded

/-- The profit of the closed part in doubles. -/
lemma within_closedPnl (hf : Follows n turnover d h) (hprice : ValidPrice price) (delta : ℤ)
    (hroom : h.volume.natAbs + delta.natAbs < 2 ^ 53) :
    Within doubleError (3 * n + 3)
      ((ToyExchange.toUsd price + h.avgCost) * (min h.volume.natAbs delta.natAbs : ℕ))
      (closedPnl d delta (toUsd price)) (h.closedPnl delta (ToyExchange.toUsd price)) := by
  have hexec := hprice.within.mono doubleError_nonneg (by omega : 1 ≤ 3 * n + 1) le_rfl
  have hunit : Within doubleError (3 * n + 1 + 1) (ToyExchange.toUsd price + h.avgCost)
      (double (if h.volume > 0 then toUsd price - d.avgCost else d.avgCost - toUsd price))
      (if h.volume > 0 then ToyExchange.toUsd price - h.avgCost
        else h.avgCost - ToyExchange.toUsd price) := by
    split_ifs
    · exact within_double_sub hexec (onGrid_toUsd price) hf.avgCost hf.avgCost_onGrid
    · rw [add_comm (ToyExchange.toUsd price)]
      exact within_double_sub hf.avgCost hf.avgCost_onGrid hexec (onGrid_toUsd price)
  unfold closedPnl Holding.closedPnl
  rw [hf.volume]
  exact within_double_mul hunit (onGrid_double _)
    (by omega : min h.volume.natAbs delta.natAbs < 2 ^ 53)

/-! ## The branches -/

/-- A fill that opens or extends a position. -/
lemma applyFill_of_sameDirection {side : Side} {volume : ℤ} (hpos : 0 < volume)
    (hsame : Holding.SameDirection d.volume (side.signedDelta volume)) :
    applyFill d side price volume =
      { d with
        volume := d.volume + side.signedDelta volume
        avgCost := rolledCost d (side.signedDelta volume) (toUsd price) } := by
  have hdelta := side.signedDelta_ne_zero hpos
  have hopen : d.volume + side.signedDelta volume ≠ 0 := by
    unfold Holding.SameDirection at hsame
    omega
  unfold applyFill
  dsimp only
  rw [if_neg fun hflip => hflip.1 hsame, if_neg hopen, if_pos hsame]

/-- The average cost after a fill against the position. -/
def costAfter (oldVolume newVolume : ℤ) (execUsd avgCost : ℚ) : ℚ :=
  if Holding.FlippedSign oldVolume newVolume then execUsd
  else if newVolume = 0 then 0 else avgCost

/-- A fill against the position. -/
lemma applyFill_of_opposite {side : Side} {volume : ℤ}
    (hopposite : ¬ Holding.SameDirection d.volume (side.signedDelta volume)) :
    applyFill d side price volume =
      { d with
        volume := d.volume + side.signedDelta volume
        avgCost := costAfter d.volume (d.volume + side.signedDelta volume) (toUsd price) d.avgCost
        realizedPnl := double (d.realizedPnl +
          closedPnl d (side.signedDelta volume) (toUsd price)) } := by
  unfold applyFill costAfter
  dsimp only
  rw [if_neg hopposite]
  simp only [hopposite, not_false_eq_true, true_and]
  split_ifs <;> rfl

/-- An exact fill against the position. -/
lemma exact_of_opposite {side : Side} {volume : ℤ}
    (hopposite : ¬ Holding.SameDirection h.volume (side.signedDelta volume)) :
    h.applyFill side price volume =
      { h with
        volume := h.volume + side.signedDelta volume
        avgCost := costAfter h.volume (h.volume + side.signedDelta volume)
          (ToyExchange.toUsd price) h.avgCost
        realizedPnl := h.realizedPnl +
          h.closedPnl (side.signedDelta volume) (ToyExchange.toUsd price) } := by
  unfold Holding.applyFill costAfter
  dsimp only
  rw [if_neg hopposite]
  simp only [hopposite, not_false_eq_true, true_and]
  split_ifs <;> rfl

/-- The money paid for the open position before and in a fill that extends it. -/
lemma rolledCost_money (hdelta : delta ≠ 0) (hsame : Holding.SameDirection h.volume delta)
    (e : ℚ) :
    ((h.volume + delta).natAbs : ℚ) * h.rolledCost delta e =
      h.volume.natAbs * h.avgCost + e * delta.natAbs := by
  have habs : (h.volume + delta).natAbs = h.volume.natAbs + delta.natAbs := by
    unfold Holding.SameDirection at hsame
    omega
  have hpos : (0 : ℚ) < h.volume.natAbs + delta.natAbs := by
    exact_mod_cast Nat.add_pos_right _ (Int.natAbs_pos.mpr hdelta)
  unfold Holding.rolledCost
  rw [habs, Nat.cast_add]
  field_simp

/-- The money paid for the open position before, and in a fill against it: what is left is the
cost of the new position, and the rest is that of the closed part on both sides. -/
lemma costAfter_money (hopposite : ¬ Holding.SameDirection h.volume delta) (e : ℚ) :
    ((h.volume + delta).natAbs : ℚ) * costAfter h.volume (h.volume + delta) e h.avgCost +
        (e + h.avgCost) * (min h.volume.natAbs delta.natAbs : ℕ) =
      h.volume.natAbs * h.avgCost + e * delta.natAbs := by
  unfold Holding.SameDirection at hopposite
  unfold costAfter
  split_ifs with hflip hzero
  · unfold Holding.FlippedSign at hflip
    have hmin : min h.volume.natAbs delta.natAbs = h.volume.natAbs := by omega
    have habs : delta.natAbs = (h.volume + delta).natAbs + h.volume.natAbs := by omega
    rw [hmin, habs]
    push_cast
    ring
  · have hmin : min h.volume.natAbs delta.natAbs = h.volume.natAbs := by omega
    have habs : delta.natAbs = h.volume.natAbs := by omega
    rw [hmin, habs]
    ring
  · unfold Holding.FlippedSign at hflip
    have hmin : min h.volume.natAbs delta.natAbs = delta.natAbs := by omega
    have habs : h.volume.natAbs = (h.volume + delta).natAbs + delta.natAbs := by omega
    rw [hmin, habs]
    push_cast
    ring

lemma natAbs_signedDelta (side : Side) {volume : ℤ} (hpos : 0 < volume) :
    ((side.signedDelta volume).natAbs : ℚ) = volume := by
  have habs : (side.signedDelta volume).natAbs = volume.natAbs := by
    cases side <;> simp [Side.signedDelta]
  rw [habs, cast_natAbs_of_nonneg hpos.le]

/-- **One fill.**  A fill keeps the two holdings together at the price of three roundings. -/
theorem Follows.applyFill (hf : Follows n turnover d h) (hprice : ValidPrice price) {volume : ℤ}
    (hpos : 0 < volume) (side : Side)
    (hroom : h.volume.natAbs + (side.signedDelta volume).natAbs < 2 ^ 53) :
    Follows (n + 1) (turnover + ToyExchange.toUsd price * volume)
      (applyFill d side price volume) (h.applyFill side price volume) := by
  have hu := doubleError_nonneg
  have hdelta := side.signedDelta_ne_zero hpos
  have hmoney := natAbs_signedDelta side hpos
  have hsteps : 3 * n + 1 ≤ 3 * (n + 1) + 1 := by omega
  by_cases hsame : Holding.SameDirection h.volume (side.signedDelta volume)
  · obtain ⟨hcost, hnonneg⟩ := within_rolledCost hf hprice hdelta hroom
    have hopen : h.volume + side.signedDelta volume ≠ 0 := by
      unfold Holding.SameDirection at hsame
      omega
    rw [Holding.applyFill_of_sameDirection hpos hsame,
      applyFill_of_sameDirection hpos (hf.volume ▸ hsame)]
    refine ⟨by rw [hf.volume], hcost, hnonneg, onGrid_double _, hf.realizedPnl_onGrid, ?_,
      fun hflat => absurd hflat hopen⟩
    dsimp only
    rw [rolledCost_money hdelta hsame, hmoney]
    exact hf.realizedPnl.mono hu hsteps (le_of_eq (by ring))
  · have hpnl := within_closedPnl hf hprice _ hroom
    have hsum := within_double_add (hf.realizedPnl.mono hu (by omega : _ ≤ 3 * n + 3) le_rfl)
      hf.realizedPnl_onGrid hpnl (onGrid_double _)
    have hspent := costAfter_money hsame (ToyExchange.toUsd price)
    rw [hmoney] at hspent
    rw [exact_of_opposite hsame, applyFill_of_opposite (hf.volume ▸ hsame), hf.volume]
    refine ⟨rfl, ?_, ?_, ?_, onGrid_double _, ?_, ?_⟩
    · dsimp only
      unfold costAfter
      split_ifs
      · exact hprice.within.mono hu (by omega) le_rfl
      · exact .of_exact hu (by simp)
      · exact hf.avgCost.mono hu hsteps le_rfl
    · dsimp only
      unfold costAfter
      split_ifs
      · exact le_trans (by norm_num) (le_toUsd hprice)
      · exact le_rfl
      · exact hf.avgCost_nonneg
    · dsimp only
      unfold costAfter
      split_ifs
      · exact onGrid_toUsd price
      · exact Format.onGrid_zero
      · exact hf.avgCost_onGrid
    · dsimp only
      exact hsum.mono hu (by omega) (by linarith)
    · intro hflat
      have hkept : ¬ Holding.FlippedSign h.volume (h.volume + side.signedDelta volume) := by
        unfold Holding.FlippedSign
        dsimp only at hflat
        omega
      dsimp only
      rw [costAfter, if_neg hkept, if_pos hflat]

end Fill

/-! ## Histories -/

/-- The money that changes hands in the fills. -/
def turnover (fills : List Execution) : ℚ :=
  (fills.map fun x => x.execUsd * (x.tradeVolume : ℚ)).sum

/-- Fills at valid prices, of volumes that are counted exactly even when taken together. -/
structure ValidFills (fills : List Execution) : Prop where
  price : ∀ x ∈ fills, ValidPrice x.execPrice
  volume : ∀ x ∈ fills, 0 < x.tradeVolume
  total : (fills.map Execution.tradeVolume).sum ≤ 2 ^ 50

lemma ValidFills.of_append {fills later : List Execution} (h : ValidFills (fills ++ later)) :
    ValidFills fills where
  price x hx := h.price x (List.mem_append_left _ hx)
  volume x hx := h.volume x (List.mem_append_left _ hx)
  total := by
    have htotal := h.total
    have hlater : 0 ≤ (later.map Execution.tradeVolume).sum := List.sum_nonneg fun v hv => by
      obtain ⟨x, hx, rfl⟩ := List.mem_map.mp hv
      exact (h.volume x (List.mem_append_right _ hx)).le
    rw [List.map_append, List.sum_append] at htotal
    omega

/-- No position is larger than all that was traded. -/
lemma natAbs_volume_le {fills : List Execution} (h : ∀ x ∈ fills, 0 < x.tradeVolume) :
    ((ToyExchange.holdingAfter fills).volume.natAbs : ℤ) ≤
      (fills.map Execution.tradeVolume).sum := by
  induction fills using List.reverseRecOn with
  | nil => rfl
  | append_singleton fills x ih =>
    have hx := h x (List.mem_append_right _ (List.mem_singleton_self x))
    have hbefore := ih fun y hy => h y (List.mem_append_left _ hy)
    have habs : (x.side.signedDelta x.tradeVolume).natAbs = x.tradeVolume.natAbs := by
      cases x.side <;> simp [Side.signedDelta]
    have hstep : (ToyExchange.holdingAfter (fills ++ [x])).volume =
        (ToyExchange.holdingAfter fills).volume + x.side.signedDelta x.tradeVolume := by
      unfold ToyExchange.holdingAfter
      rw [Holding.applyFills_append]
      exact Holding.applyFill_volume ..
    rw [hstep, List.map_append, List.sum_append, List.map_singleton, List.sum_singleton]
    omega

/-- The two holdings stay together over every valid history. -/
theorem follows_holdingAfter {fills : List Execution} (h : ValidFills fills) :
    Follows fills.length (turnover fills) (holdingAfter fills)
      (ToyExchange.holdingAfter fills) := by
  induction fills using List.reverseRecOn with
  | nil => exact follows_empty
  | append_singleton fills x ih =>
    have hmem : x ∈ fills ++ [x] := List.mem_append_right _ (List.mem_singleton_self x)
    have hbefore := natAbs_volume_le h.of_append.volume
    have hpos := h.volume x hmem
    have htotal := h.total
    rw [List.map_append, List.sum_append, List.map_singleton, List.sum_singleton] at htotal
    have habs : (x.side.signedDelta x.tradeVolume).natAbs = x.tradeVolume.natAbs := by
      cases x.side <;> simp [Side.signedDelta]
    have hstep := (ih h.of_append).applyFill (h.price x hmem) hpos x.side (by omega)
    have hturnover : turnover (fills ++ [x]) =
        turnover fills + ToyExchange.toUsd x.execPrice * x.tradeVolume := by
      unfold turnover
      rw [List.map_append, List.sum_append, List.map_singleton, List.sum_singleton]
      rfl
    have hexact : ToyExchange.holdingAfter (fills ++ [x]) =
        (ToyExchange.holdingAfter fills).applyFill x.side x.execPrice x.tradeVolume :=
      Holding.applyFills_append _ fills [x]
    have hdouble : holdingAfter (fills ++ [x]) =
        applyFill (holdingAfter fills) x.side x.execPrice x.tradeVolume := by
      unfold holdingAfter
      rw [List.foldl_append]
      rfl
    rw [List.length_append, List.length_singleton, hturnover, hexact, hdouble]
    exact hstep

/-- There are not more fills than shares traded. -/
lemma length_le {fills : List Execution} (h : ∀ x ∈ fills, 0 < x.tradeVolume) :
    (fills.length : ℤ) ≤ (fills.map Execution.tradeVolume).sum := by
  induction fills with
  | nil => rfl
  | cons x fills ih =>
    obtain ⟨hx, hfills⟩ := List.forall_mem_cons.mp h
    have hrest := ih hfills
    rw [List.length_cons, List.map_cons, List.sum_cons]
    push_cast
    omega

/-- The error of a few roundings more than three for each fill. -/
lemma error_le {fills : List Execution} (h : ValidFills fills) {k : ℕ} (hk : k ≤ 3) :
    (1 + doubleError) ^ (3 * fills.length + k) - 1 ≤ (3 * fills.length + k) / 2 ^ 52 := by
  have hlength : (fills.length : ℤ) ≤ 2 ^ 50 := (length_le h.volume).trans h.total
  have hsmall : ((3 * fills.length + k : ℕ) : ℚ) ≤ 2 ^ 52 := by
    have hnat : 3 * fills.length + k ≤ 2 ^ 52 := by omega
    exact_mod_cast hnat
  have hpow := pow_sub_one_le doubleError_nonneg (k := 3 * fills.length + k) (by
    rw [doubleError_eq]
    linarith)
  rw [doubleError_eq] at hpow ⊢
  push_cast at hpow
  linarith

/-- **The accounts in doubles.**  For fills at positive prices below `2 ^ 53` units, of together at
most `2 ^ 50` shares, `ApplyFill` computed in doubles arrives at the position of the exact
average-cost method, and at a cost of exactly zero if that is flat.  After `n` fills its average
cost has a relative error of at most `(3 * n + 1) / 2 ^ 52`, and its realized profit has an error of
at most that part of the money that has changed hands; marking to market at such a price adds two
roundings. -/
theorem accounts_in_doubles {fills : List Execution} (h : ValidFills fills) :
    (holdingAfter fills).volume = (ToyExchange.holdingAfter fills).volume ∧
    ((ToyExchange.holdingAfter fills).volume = 0 → (holdingAfter fills).avgCost = 0) ∧
    |(holdingAfter fills).avgCost - (ToyExchange.holdingAfter fills).avgCost| ≤
      (3 * fills.length + 1) / 2 ^ 52 * (ToyExchange.holdingAfter fills).avgCost ∧
    |(holdingAfter fills).realizedPnl - (ToyExchange.holdingAfter fills).realizedPnl| ≤
      (3 * fills.length + 1) / 2 ^ 52 * turnover fills ∧
    ∀ mid, ValidPrice mid →
      |(refreshUnrealizedPnl (holdingAfter fills) mid).unrealizedPnl -
          ((ToyExchange.holdingAfter fills).refreshUnrealizedPnl mid).unrealizedPnl| ≤
        (3 * fills.length + 3) / 2 ^ 52 *
          ((ToyExchange.toUsd mid + (ToyExchange.holdingAfter fills).avgCost) *
            (ToyExchange.holdingAfter fills).volume.natAbs) := by
  have hf := follows_holdingAfter h
  have hu := doubleError_nonneg
  have hcost : 0 ≤ (ToyExchange.holdingAfter fills).avgCost :=
    (abs_nonneg _).trans hf.avgCost.magnitude
  have herror := error_le h (k := 1) (by omega)
  push_cast at herror
  refine ⟨hf.volume, hf.flat, ?_, ?_, fun mid hmid => ?_⟩
  · exact hf.avgCost.error.trans (mul_le_mul_of_nonneg_right herror hcost)
  · have hopen : (0 : ℚ) ≤ (ToyExchange.holdingAfter fills).volume.natAbs *
        (ToyExchange.holdingAfter fills).avgCost := mul_nonneg (Nat.cast_nonneg _) hcost
    have hwhole := hf.realizedPnl.mono hu le_rfl (sub_le_self _ hopen)
    have hturnover : 0 ≤ turnover fills := (abs_nonneg _).trans hwhole.magnitude
    exact hwhole.error.trans (mul_le_mul_of_nonneg_right herror hturnover)
  · -- the difference and the product are rounded
    have hbound := natAbs_volume_le h.volume
    have htotal := h.total
    have hmidwithin := hmid.within.mono hu (by omega : 1 ≤ 3 * fills.length + 1) le_rfl
    have hunit := within_double_sub hmidwithin (onGrid_toUsd mid) hf.avgCost hf.avgCost_onGrid
    have hvolume : double (ToyExchange.holdingAfter fills).volume =
        (ToyExchange.holdingAfter fills).volume := double_intCast (by
      rw [← Int.natCast_natAbs]
      omega)
    have hproduct := (hunit.mul_exact ((ToyExchange.holdingAfter fills).volume : ℚ)).round hu
      (abs_double_sub_le (.inl ((onGrid_double _).mul_intCast _)))
    have herror' := error_le h (k := 3) le_rfl
    push_cast at herror'
    unfold refreshUnrealizedPnl Holding.refreshUnrealizedPnl
    dsimp only
    rw [hf.volume, hvolume, mul_comm ((ToyExchange.holdingAfter fills).volume : ℚ),
      mul_comm ((ToyExchange.holdingAfter fills).volume : ℚ), Nat.cast_natAbs]
    push_cast
    refine hproduct.error.trans (mul_le_mul_of_nonneg_right herror' ?_)
    exact (abs_nonneg _).trans hproduct.magnitude

/-- Three shares bought at two prices and sold at a third. -/
theorem accounts_in_doubles_round_trip :
    let fills : List Execution :=
      [⟨.buy, 100000000, 1⟩, ⟨.buy, 100000001, 2⟩, ⟨.sell, 100000003, 3⟩]
    ValidFills fills ∧ (holdingAfter fills).avgCost = 0 := by
  intro fills
  have hvalid : ValidFills fills := by
    constructor
    · intro x hx
      simp only [fills, List.mem_cons, List.not_mem_nil, or_false] at hx
      rcases hx with rfl | rfl | rfl <;> exact ⟨by decide, by decide⟩
    · decide
    · decide
  exact ⟨hvalid, (accounts_in_doubles hvalid).2.1 (by decide +kernel)⟩

end Doubles

end ToyExchange
