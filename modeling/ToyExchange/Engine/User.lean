import ToyExchange.Core.Types
import Mathlib.Algebra.BigOperators.Fin
import Mathlib.Algebra.Order.Field.Basic
import Mathlib.Data.Rat.Cast.Order
import Mathlib.Tactic.FieldSimp
import Mathlib.Tactic.Ring

/-!
# Users and their holdings

A user's exposure to a ticker is a `Holding`: position, average cost of the open position, and
realized and unrealized profit.  `Holding.applyFill` is the average-cost update of `ApplyFill`;
its four ways to go (extend, reduce, close, reverse) are the lemmas `applyFill_of_sameDirection`,
`applyFill_of_reduce`, `applyFill_of_close` and `applyFill_of_flip`.

What a holding is worth at a mark price is the realized profit and the open position at that
price.  `worth_applyFill` says that a fill changes it by the signed volume times the distance
from the mark to the fill price, whichever way the update goes; that is why a trade creates no
money.
-/

namespace ToyExchange

/-- A user's exposure to one ticker, by the average-cost method.  A positive volume is a long
position, a negative one a short position. -/
@[ext] structure Holding where
  volume : ℤ := 0
  avgCost : ℚ := 0
  realizedPnl : ℚ := 0
  /-- Stale until it is refreshed. -/
  unrealizedPnl : ℚ := 0
deriving DecidableEq

/-- The change of position of a fill. -/
def Side.signedDelta (side : Side) (tradeVolume : ℤ) : ℤ :=
  match side with
  | .buy => tradeVolume
  | .sell => -tradeVolume

@[simp] lemma Side.signedDelta_opposite (side : Side) (tradeVolume : ℤ) :
    side.opposite.signedDelta tradeVolume = -side.signedDelta tradeVolume := by
  cases side with
  | buy => rfl
  | sell => exact (neg_neg _).symm

lemma Side.signedDelta_ne_zero (side : Side) {tradeVolume : ℤ} (h : 0 < tradeVolume) :
    side.signedDelta tradeVolume ≠ 0 := by
  cases side <;> simp [signedDelta] <;> omega

lemma cast_natAbs_of_nonneg {n : ℤ} (h : 0 ≤ n) : (n.natAbs : ℚ) = n := by
  rw [Nat.cast_natAbs, abs_of_nonneg h]

lemma cast_natAbs_of_nonpos {n : ℤ} (h : n ≤ 0) : (n.natAbs : ℚ) = -n := by
  rw [Nat.cast_natAbs, abs_of_nonpos h, Int.cast_neg]

namespace Holding

/-- The fill extends the position, or opens one. -/
def SameDirection (oldVolume signedDelta : ℤ) : Prop :=
  oldVolume = 0 ∨ (oldVolume > 0 ↔ signedDelta > 0)

/-- The position changes its sign. -/
def FlippedSign (oldVolume newVolume : ℤ) : Prop :=
  (oldVolume > 0 ∧ newVolume < 0) ∨ (oldVolume < 0 ∧ newVolume > 0)

instance (oldVolume signedDelta : ℤ) : Decidable (SameDirection oldVolume signedDelta) :=
  inferInstanceAs (Decidable (oldVolume = 0 ∨ (oldVolume > 0 ↔ signedDelta > 0)))

instance (oldVolume newVolume : ℤ) : Decidable (FlippedSign oldVolume newVolume) :=
  inferInstanceAs (Decidable ((oldVolume > 0 ∧ newVolume < 0) ∨ (oldVolume < 0 ∧ newVolume > 0)))

/-- The average cost after a fill that opens or extends the position. -/
def rolledCost (h : Holding) (signedDelta : ℤ) (execUsd : ℚ) : ℚ :=
  (h.avgCost * h.volume.natAbs + execUsd * signedDelta.natAbs) /
    ((h.volume.natAbs : ℚ) + signedDelta.natAbs)

/-- The profit realized by a fill on the part of the position that it closes. -/
def closedPnl (h : Holding) (signedDelta : ℤ) (execUsd : ℚ) : ℚ :=
  (if h.volume > 0 then execUsd - h.avgCost else h.avgCost - execUsd) *
    (min h.volume.natAbs signedDelta.natAbs : ℕ)

/-- The update of a holding by a fill. -/
def applyFill (h : Holding) (side : Side) (execPrice tradeVolume : ℤ) : Holding :=
  let signedDelta := side.signedDelta tradeVolume
  let execUsd := toUsd execPrice
  let h' := if SameDirection h.volume signedDelta
    then { h with avgCost := h.rolledCost signedDelta execUsd }
    else { h with realizedPnl := h.realizedPnl + h.closedPnl signedDelta execUsd }
  let newVolume := h.volume + signedDelta
  if ¬ SameDirection h.volume signedDelta ∧ FlippedSign h.volume newVolume then
    -- the excess opens a fresh position at the fill price
    { h' with avgCost := execUsd, volume := newVolume }
  else if newVolume = 0 then { h' with avgCost := 0, volume := newVolume }
  else { h' with volume := newVolume }

/-- Mark the open position to market. -/
def refreshUnrealizedPnl (h : Holding) (midPrice : ℤ) : Holding :=
  { h with unrealizedPnl := (h.volume : ℚ) * (toUsd midPrice - h.avgCost) }

/-- Realized profit and the open position at the mark price `m`. -/
def worth (h : Holding) (m : ℚ) : ℚ := h.realizedPnl + (h.volume : ℚ) * (m - h.avgCost)

section Fill

variable {h : Holding} {side : Side} {execPrice tradeVolume : ℤ}

@[simp] lemma applyFill_volume (h : Holding) (side : Side) (execPrice tradeVolume : ℤ) :
    (h.applyFill side execPrice tradeVolume).volume = h.volume + side.signedDelta tradeVolume := by
  unfold applyFill
  dsimp only
  split_ifs <;> rfl

/-- A fill that opens or extends a position rolls the average cost forward. -/
lemma applyFill_of_sameDirection (hpos : 0 < tradeVolume)
    (hsame : SameDirection h.volume (side.signedDelta tradeVolume)) :
    h.applyFill side execPrice tradeVolume =
      { h with
        volume := h.volume + side.signedDelta tradeVolume
        avgCost := h.rolledCost (side.signedDelta tradeVolume) (toUsd execPrice) } := by
  have hdelta := side.signedDelta_ne_zero hpos
  have hopen : h.volume + side.signedDelta tradeVolume ≠ 0 := by
    unfold SameDirection at hsame
    omega
  unfold applyFill
  dsimp only
  rw [if_neg fun hflip => hflip.1 hsame, if_neg hopen, if_pos hsame]

/-- A fill that reduces a position realizes profit and keeps the average cost. -/
lemma applyFill_of_reduce (hopposite : ¬ SameDirection h.volume (side.signedDelta tradeVolume))
    (hlt : (side.signedDelta tradeVolume).natAbs < h.volume.natAbs) :
    h.applyFill side execPrice tradeVolume =
      { h with
        volume := h.volume + side.signedDelta tradeVolume
        realizedPnl := h.realizedPnl +
          h.closedPnl (side.signedDelta tradeVolume) (toUsd execPrice) } := by
  have hkept : ¬ FlippedSign h.volume (h.volume + side.signedDelta tradeVolume) := by
    unfold FlippedSign
    omega
  have hopen : h.volume + side.signedDelta tradeVolume ≠ 0 := by omega
  unfold applyFill
  dsimp only
  rw [if_neg fun hflip => hkept hflip.2, if_neg hopen, if_neg hopposite]

/-- A fill that closes a position realizes profit and clears the average cost. -/
lemma applyFill_of_close (hopposite : ¬ SameDirection h.volume (side.signedDelta tradeVolume))
    (heq : (side.signedDelta tradeVolume).natAbs = h.volume.natAbs) :
    h.applyFill side execPrice tradeVolume =
      { h with
        volume := 0
        avgCost := 0
        realizedPnl := h.realizedPnl +
          h.closedPnl (side.signedDelta tradeVolume) (toUsd execPrice) } := by
  have hclosed : h.volume + side.signedDelta tradeVolume = 0 := by
    unfold SameDirection at hopposite
    omega
  have hkept : ¬ FlippedSign h.volume (h.volume + side.signedDelta tradeVolume) := by
    unfold FlippedSign
    omega
  unfold applyFill
  dsimp only
  rw [if_neg fun hflip => hkept hflip.2, if_pos hclosed, if_neg hopposite, hclosed]

/-- A fill that reverses a position realizes profit and opens a position at its own price. -/
lemma applyFill_of_flip (hopposite : ¬ SameDirection h.volume (side.signedDelta tradeVolume))
    (hlt : h.volume.natAbs < (side.signedDelta tradeVolume).natAbs) :
    h.applyFill side execPrice tradeVolume =
      { h with
        volume := h.volume + side.signedDelta tradeVolume
        avgCost := toUsd execPrice
        realizedPnl := h.realizedPnl +
          h.closedPnl (side.signedDelta tradeVolume) (toUsd execPrice) } := by
  have hflip : FlippedSign h.volume (h.volume + side.signedDelta tradeVolume) := by
    unfold SameDirection at hopposite
    unfold FlippedSign
    omega
  unfold applyFill
  dsimp only
  rw [if_pos ⟨hopposite, hflip⟩, if_neg hopposite]

/-- The average cost rolled forward, over the position it opens or extends. -/
lemma rolledCost_mul {d : ℤ} (hd : d ≠ 0) (hsame : SameDirection h.volume d) (e : ℚ) :
    ((h.volume + d : ℤ) : ℚ) * h.rolledCost d e = h.avgCost * h.volume + e * d := by
  unfold SameDirection at hsame
  have hne : (h.volume : ℚ) + d ≠ 0 := by
    rw [← Int.cast_add, Int.cast_ne_zero]
    omega
  unfold rolledCost
  rw [Int.cast_add]
  rcases lt_or_gt_of_ne hd with hneg | hpos
  · -- a short position is extended: both absolute values change the sign
    have hold : h.volume ≤ 0 := by omega
    rw [cast_natAbs_of_nonpos hold, cast_natAbs_of_nonpos hneg.le]
    have hne' : -(h.volume : ℚ) + -d ≠ 0 := by
      rw [← neg_add]
      exact neg_ne_zero.mpr hne
    field_simp
    ring
  · have hold : 0 ≤ h.volume := by omega
    rw [cast_natAbs_of_nonneg hold, cast_natAbs_of_nonneg hpos.le]
    field_simp

/-- The profit realized by a fill is what the part it closes gains at the fill price. -/
lemma closedPnl_eq {d : ℤ} (hopposite : ¬ SameDirection h.volume d) (e : ℚ) :
    h.closedPnl d e =
      if d.natAbs ≤ h.volume.natAbs then -d * (e - h.avgCost) else h.volume * (e - h.avgCost) := by
  unfold SameDirection at hopposite
  unfold closedPnl
  by_cases hlong : h.volume > 0
  · have hd : d ≤ 0 := by omega
    rw [if_pos hlong]
    split_ifs with hle
    · rw [min_eq_right hle, cast_natAbs_of_nonpos hd]
      ring
    · rw [min_eq_left (not_le.mp hle).le, cast_natAbs_of_nonneg hlong.le]
      ring
  · have hd : 0 ≤ d := by omega
    have hshort : h.volume ≤ 0 := by omega
    rw [if_neg hlong]
    split_ifs with hle
    · rw [min_eq_right hle, cast_natAbs_of_nonneg hd]
      ring
    · rw [min_eq_left (not_le.mp hle).le, cast_natAbs_of_nonpos hshort]
      ring

/-- **What a fill is worth.**  Whichever way the update goes, a fill changes the worth of a
holding at any mark price by its signed volume times the distance from the fill price to the
mark. -/
theorem worth_applyFill (hpos : 0 < tradeVolume) (m : ℚ) :
    (h.applyFill side execPrice tradeVolume).worth m =
      h.worth m + side.signedDelta tradeVolume * (m - toUsd execPrice) := by
  have hdelta := side.signedDelta_ne_zero hpos
  unfold worth
  by_cases hsame : SameDirection h.volume (side.signedDelta tradeVolume)
  · have hroll := rolledCost_mul (h := h) hdelta hsame (toUsd execPrice)
    rw [applyFill_of_sameDirection hpos hsame]
    dsimp only
    rw [mul_sub, hroll, Int.cast_add]
    ring
  · have hpnl := closedPnl_eq hsame (toUsd execPrice)
    rcases lt_trichotomy (side.signedDelta tradeVolume).natAbs h.volume.natAbs with hlt | heq | hlt
    · rw [applyFill_of_reduce hsame hlt]
      dsimp only
      rw [hpnl, if_pos hlt.le, Int.cast_add]
      ring
    · have hclosed : side.signedDelta tradeVolume = -h.volume := by
        unfold SameDirection at hsame
        omega
      rw [applyFill_of_close hsame heq]
      dsimp only
      rw [hpnl, if_pos heq.le, hclosed, Int.cast_neg]
      simp only [Int.cast_zero]
      ring
    · rw [applyFill_of_flip hsame hlt]
      dsimp only
      rw [hpnl, if_neg (not_le.mpr hlt), Int.cast_add]
      ring

/-- A fill that leaves no position leaves no cost. -/
lemma applyFill_avgCost_of_flat (hflat : (h.applyFill side execPrice tradeVolume).volume = 0) :
    (h.applyFill side execPrice tradeVolume).avgCost = 0 := by
  rw [applyFill_volume] at hflat
  have hkept : ¬ FlippedSign h.volume (h.volume + side.signedDelta tradeVolume) := by
    unfold FlippedSign
    omega
  unfold applyFill
  dsimp only
  rw [if_neg fun hflip => hkept hflip.2, if_pos hflat]

end Fill

end Holding

/-! ## Users -/

/-- A market participant: an id and a holding for each ticker ever traded. -/
structure User where
  id : ℤ
  inventory : Ticker → Option Holding

namespace User

/-- The holding of a ticker, as the subscript of the inventory finds or creates it. -/
def holding (u : User) (ticker : Ticker) : Holding := (u.inventory ticker).getD {}

/-- The current position, zero if the ticker was never traded. -/
def position (u : User) (ticker : Ticker) : ℤ :=
  match u.inventory ticker with
  | none => 0
  | some h => h.volume

/-- Apply a fill to the holding of its ticker. -/
def applyFill (u : User) (ticker : Ticker) (side : Side) (execPrice tradeVolume : ℤ) : User :=
  { u with
    inventory := Function.update u.inventory ticker
      (some ((u.holding ticker).applyFill side execPrice tradeVolume)) }

/-- Mark the holding of a ticker to market; nothing if the ticker was never traded. -/
def refreshUnrealizedPnl (u : User) (ticker : Ticker) (midPrice : ℤ) : User :=
  match u.inventory ticker with
  | none => u
  | some h =>
    { u with
      inventory := Function.update u.inventory ticker (some (h.refreshUnrealizedPnl midPrice)) }

lemma position_eq_volume (u : User) (ticker : Ticker) :
    u.position ticker = (u.holding ticker).volume := by
  unfold position holding
  cases u.inventory ticker <;> rfl

/-- A fill changes the holding of its own ticker only. -/
lemma holding_applyFill (u : User) (ticker : Ticker) (side : Side) (execPrice tradeVolume : ℤ)
    (t : Ticker) :
    (u.applyFill ticker side execPrice tradeVolume).holding t =
      if t = ticker then (u.holding t).applyFill side execPrice tradeVolume
      else u.holding t := by
  unfold holding applyFill
  dsimp only
  rw [Function.update_apply]
  split_ifs with ht
  · rw [ht]
    rfl
  · rfl

/-- The change of position of a fill, seen from any ticker. -/
lemma position_applyFill (u : User) (ticker : Ticker) (side : Side) (execPrice volume : ℤ)
    (t : Ticker) :
    (u.applyFill ticker side execPrice volume).position t =
      u.position t + if t = ticker then side.signedDelta volume else 0 := by
  rw [position_eq_volume, position_eq_volume, holding_applyFill]
  split_ifs
  · exact Holding.applyFill_volume _ _ _ _
  · exact (add_zero _).symm

/-- The change of worth of a fill, seen from any ticker. -/
lemma worth_applyFill {volume : ℤ} (hpos : 0 < volume) (u : User) (ticker : Ticker) (side : Side)
    (execPrice : ℤ) (t : Ticker) (m : ℚ) :
    ((u.applyFill ticker side execPrice volume).holding t).worth m = (u.holding t).worth m +
      if t = ticker then (side.signedDelta volume : ℚ) * (m - toUsd execPrice) else 0 := by
  rw [holding_applyFill]
  split_ifs
  · exact Holding.worth_applyFill hpos m
  · exact (add_zero _).symm

/-- Marking to market changes the holding of its own ticker only; an empty holding is marked
already. -/
lemma holding_refreshUnrealizedPnl (u : User) (ticker : Ticker) (midPrice : ℤ) (t : Ticker) :
    (u.refreshUnrealizedPnl ticker midPrice).holding t =
      if t = ticker then (u.holding t).refreshUnrealizedPnl midPrice else u.holding t := by
  unfold refreshUnrealizedPnl
  cases hi : u.inventory ticker with
  | none =>
    split_ifs with ht
    · rw [ht, holding, hi]
      exact Holding.ext rfl rfl rfl (by simp [Holding.refreshUnrealizedPnl])
    · rfl
  | some h =>
    unfold holding
    dsimp only
    rw [Function.update_apply]
    split_ifs with ht
    · rw [ht, hi]
      rfl
    · rfl

@[simp] lemma position_refreshUnrealizedPnl (u : User) (ticker t : Ticker) (midPrice : ℤ) :
    (u.refreshUnrealizedPnl ticker midPrice).position t = u.position t := by
  rw [position_eq_volume, position_eq_volume, holding_refreshUnrealizedPnl]
  split_ifs <;> rfl

@[simp] lemma worth_refreshUnrealizedPnl (u : User) (ticker t : Ticker) (midPrice : ℤ) (m : ℚ) :
    ((u.refreshUnrealizedPnl ticker midPrice).holding t).worth m = (u.holding t).worth m := by
  rw [holding_refreshUnrealizedPnl]
  split_ifs <;> rfl

end User

/-! ## The registry -/

/-- The fixed number of market participants. -/
def marketParticipantCount : ℕ := 100

/-- Every market participant, indexed by user id. -/
structure UserRegistry where
  users : Fin marketParticipantCount → User

namespace UserRegistry

/-- Participants who have not traded yet. -/
def fresh : UserRegistry := ⟨fun i => ⟨(i : ℕ), fun _ => none⟩⟩

/-- `Get`: the place of a user id in the vector, or nothing where `at` throws.  The id is cast to
an unsigned 64-bit index. -/
def get (id : ℤ) : Option (Fin marketParticipantCount) :=
  if h : (id % 2 ^ 64).toNat < marketParticipantCount then some ⟨(id % 2 ^ 64).toNat, h⟩ else none

/-- Update the user at a place. -/
def modify (r : UserRegistry) (i : Fin marketParticipantCount) (f : User → User) : UserRegistry :=
  ⟨Function.update r.users i (f (r.users i))⟩

lemma users_modify (r : UserRegistry) (i j : Fin marketParticipantCount) (f : User → User) :
    (r.modify i f).users j = if j = i then f (r.users j) else r.users j := by
  unfold modify
  dsimp only
  rw [Function.update_apply]
  split_ifs with hj
  · rw [hj]
  · rfl

/-- An update of one user changes a sum over the users by what it changes for that user. -/
lemma sum_modify {G : Type*} [AddCommGroup G] {F : User → G} {f : User → User} {d : G}
    (hf : ∀ u, F (f u) = F u + d) (r : UserRegistry) (i : Fin marketParticipantCount) :
    ∑ j, F ((r.modify i f).users j) = (∑ j, F (r.users j)) + d := by
  have hi : F ((r.modify i f).users i) = F (r.users i) + d := by
    rw [users_modify, if_pos rfl, hf]
  have hrest : ∀ j ∈ Finset.univ.erase i, F ((r.modify i f).users j) = F (r.users j) := by
    intro j hj
    rw [users_modify, if_neg (Finset.ne_of_mem_erase hj)]
  rw [← Finset.add_sum_erase _ _ (Finset.mem_univ i), hi, Finset.sum_congr rfl hrest,
    ← Finset.add_sum_erase _ (fun j => F (r.users j)) (Finset.mem_univ i), add_right_comm]

end UserRegistry

end ToyExchange
