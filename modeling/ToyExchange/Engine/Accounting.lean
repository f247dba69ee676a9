import ToyExchange.Engine.User

/-!
# The accounts of a user over a whole history

A user's account of a ticker is the fold of the fills on that ticker, whatever fills on other
tickers come in between (`holding_applyFills_new`).

The worth of a holding at a mark price moves by the same amount whichever way `ApplyFill` goes, so
over a history it is the sum of these amounts (`worth_applyFills`).  Read at the mark price zero,
this is the realized profit of the average-cost method; read at the mid price, it is the realized
and the unrealized profit together (`accounting_identity`).

The worth also settles when two histories end in the same account: it is enough to compare
positions, worth, and one of cost and realized profit (`eq_of_worth`).  This is how
`applyFill_add` shows that a fill may be split at any point, also where the parts take other
branches of the code than the whole.
-/

namespace ToyExchange

/-- What a fill brings to a holding: the arguments of `ApplyFill` but the ticker. -/
structure Execution where
  side : Side
  execPrice : ℤ
  tradeVolume : ℤ
deriving DecidableEq

namespace Execution

/-- The signed volume of a fill. -/
def signedDelta (x : Execution) : ℤ := x.side.signedDelta x.tradeVolume

/-- The price of a fill in USD. -/
def execUsd (x : Execution) : ℚ := toUsd x.execPrice

end Execution

namespace Holding

/-- Fills applied one after the other. -/
def applyFills (h : Holding) (fills : List Execution) : Holding :=
  fills.foldl (fun h x => h.applyFill x.side x.execPrice x.tradeVolume) h

@[simp] lemma applyFills_nil (h : Holding) : h.applyFills [] = h := rfl

@[simp] lemma applyFills_cons (h : Holding) (x : Execution) (fills : List Execution) :
    h.applyFills (x :: fills) =
      (h.applyFill x.side x.execPrice x.tradeVolume).applyFills fills := rfl

lemma applyFills_append (h : Holding) (fills later : List Execution) :
    h.applyFills (fills ++ later) = (h.applyFills fills).applyFills later :=
  List.foldl_append

/-- The position is the sum of the signed volumes. -/
lemma volume_applyFills (h : Holding) (fills : List Execution) :
    (h.applyFills fills).volume = h.volume + (fills.map Execution.signedDelta).sum := by
  induction fills generalizing h with
  | nil => simp
  | cons x fills ih =>
    rw [applyFills_cons, ih, applyFill_volume, List.map_cons, List.sum_cons, add_assoc]
    rfl

/-- The worth at any mark price is the sum of what the fills are worth. -/
lemma worth_applyFills (h : Holding) {fills : List Execution}
    (hpos : ∀ x ∈ fills, 0 < x.tradeVolume) (m : ℚ) :
    (h.applyFills fills).worth m =
      h.worth m + (fills.map fun x => (x.signedDelta : ℚ) * (m - x.execUsd)).sum := by
  induction fills generalizing h with
  | nil => simp
  | cons x fills ih =>
    obtain ⟨hx, hfills⟩ := List.forall_mem_cons.mp hpos
    rw [applyFills_cons, ih _ hfills, worth_applyFill hx, List.map_cons, List.sum_cons, add_assoc]
    rfl

/-- Realized and refreshed unrealized profit are the worth at the mid price. -/
lemma realizedPnl_add_unrealizedPnl (h : Holding) (midPrice : ℤ) :
    (h.refreshUnrealizedPnl midPrice).realizedPnl +
      (h.refreshUnrealizedPnl midPrice).unrealizedPnl = h.worth (toUsd midPrice) := rfl

/-- The realized profit, from the worth at the mark price zero. -/
lemma realizedPnl_eq (h : Holding) : h.realizedPnl = h.volume * h.avgCost + h.worth 0 := by
  unfold worth
  ring

end Holding

/-- The holding of a ticker after the fills on it. -/
def holdingAfter (fills : List Execution) : Holding := ({} : Holding).applyFills fills

/-! ## Fills of one ticker among the others -/

/-- The fills on a ticker, out of the calls of `ApplyFill` on one user. -/
def fillsOn (ticker : Ticker) (calls : List (Ticker × Execution)) : List Execution :=
  (calls.filter fun call => call.1 = ticker).map Prod.snd

lemma mem_fillsOn {ticker : Ticker} {calls : List (Ticker × Execution)} {x : Execution}
    (hx : x ∈ fillsOn ticker calls) : (ticker, x) ∈ calls := by
  obtain ⟨⟨t, x'⟩, hmem, rfl⟩ := List.mem_map.mp hx
  obtain ⟨hcall, ht⟩ := List.mem_filter.mp hmem
  rw [← of_decide_eq_true ht]
  exact hcall

namespace User

/-- A user as the exchange creates it: nothing was traded yet. -/
def new (id : ℤ) : User := ⟨id, fun _ => none⟩

/-- Calls of `ApplyFill` on a user, one after the other. -/
def applyFills (u : User) (calls : List (Ticker × Execution)) : User :=
  calls.foldl (fun u call =>
    u.applyFill call.1 call.2.side call.2.execPrice call.2.tradeVolume) u

/-- The holding of a ticker sees the fills on that ticker, in their order, and no others. -/
lemma holding_applyFills (u : User) (calls : List (Ticker × Execution)) (ticker : Ticker) :
    (u.applyFills calls).holding ticker =
      (u.holding ticker).applyFills (fillsOn ticker calls) := by
  induction calls generalizing u with
  | nil => rfl
  | cons call calls ih =>
    refine (ih _).trans ?_
    rw [holding_applyFill, fillsOn, fillsOn]
    by_cases ht : ticker = call.1
    · rw [if_pos ht, List.filter_cons_of_pos (by simpa using ht.symm)]
      rfl
    · rw [if_neg ht, List.filter_cons_of_neg (by simpa using fun h => ht h.symm)]

/-- A user's account of a ticker. -/
lemma holding_applyFills_new (id : ℤ) (calls : List (Ticker × Execution)) (ticker : Ticker) :
    ((new id).applyFills calls).holding ticker = holdingAfter (fillsOn ticker calls) :=
  holding_applyFills (new id) calls ticker

/-- **The accounting identity.**  After any calls of `ApplyFill` with positive volumes, on any
tickers, a user's position in a ticker is the sum of the signed volumes of the fills on it, and
the realized profit is the cost of the open position less what was paid for the fills.  Together
with the unrealized profit that a refresh at a mid price computes, it is what the fills gained up
to that price. -/
theorem accounting_identity (id : ℤ) {calls : List (Ticker × Execution)}
    (hpos : ∀ call ∈ calls, 0 < call.2.tradeVolume) (ticker : Ticker) :
    let u := (new id).applyFills calls
    let fills := fillsOn ticker calls
    u.position ticker = (fills.map Execution.signedDelta).sum ∧
      (u.holding ticker).realizedPnl =
        (u.holding ticker).volume * (u.holding ticker).avgCost -
          (fills.map fun x => (x.signedDelta : ℚ) * x.execUsd).sum ∧
      ∀ midPrice : ℤ,
        ((u.refreshUnrealizedPnl ticker midPrice).holding ticker).realizedPnl +
            ((u.refreshUnrealizedPnl ticker midPrice).holding ticker).unrealizedPnl =
          (fills.map fun x => (x.signedDelta : ℚ) * (toUsd midPrice - x.execUsd)).sum := by
  intro u fills
  have hfills : ∀ x ∈ fills, 0 < x.tradeVolume := fun x hx => hpos _ (mem_fillsOn hx)
  have hholding : u.holding ticker = holdingAfter fills := holding_applyFills_new id calls ticker
  have hworth : ∀ m : ℚ, (u.holding ticker).worth m =
      (fills.map fun x => (x.signedDelta : ℚ) * (m - x.execUsd)).sum := by
    intro m
    rw [hholding, holdingAfter, Holding.worth_applyFills _ hfills]
    simp [Holding.worth]
  refine ⟨?_, ?_, ?_⟩
  · rw [position_eq_volume, hholding, holdingAfter, Holding.volume_applyFills]
    simp
  · have hpaid : (fills.map fun x => (x.signedDelta : ℚ) * (0 - x.execUsd)).sum =
        -(fills.map fun x => (x.signedDelta : ℚ) * x.execUsd).sum := by
      rw [List.sum_neg, List.map_map]
      simp [Function.comp_def]
    rw [Holding.realizedPnl_eq, hworth, hpaid, sub_eq_add_neg]
  · intro midPrice
    rw [holding_refreshUnrealizedPnl, if_pos rfl, Holding.realizedPnl_add_unrealizedPnl, hworth]

/-- The identity at a history that opens, extends, reduces and reverses a position, with a fill on
another ticker in between. -/
theorem accounting_identity_reversal :
    let calls : List (Ticker × Execution) :=
      [(.aapl, ⟨.buy, 100, 10⟩), (.msft, ⟨.sell, 7, 3⟩), (.aapl, ⟨.buy, 130, 5⟩),
        (.aapl, ⟨.sell, 120, 6⟩), (.aapl, ⟨.sell, 90, 20⟩)]
    ((new 1).applyFills calls).position .aapl = -11 ∧
      ∀ midPrice : ℤ,
        let h := (((new 1).applyFills calls).refreshUnrealizedPnl .aapl midPrice).holding .aapl
        h.realizedPnl + h.unrealizedPnl =
          ((fillsOn .aapl calls).map fun x =>
            (x.signedDelta : ℚ) * (toUsd midPrice - x.execUsd)).sum := by
  intro calls
  have hpos : ∀ call ∈ calls, 0 < call.2.tradeVolume := by decide
  have h := accounting_identity 1 hpos .aapl
  exact ⟨h.1.trans (by decide), h.2.2⟩

end User

/-! ## Splitting a fill -/

/-- The parts of a fill move the position the same way. -/
lemma Side.signedDelta_parts (side : Side) {a b : ℤ} (ha : 0 < a) (hb : 0 < b) :
    0 < side.signedDelta a ∧ 0 < side.signedDelta b ∨
      side.signedDelta a < 0 ∧ side.signedDelta b < 0 := by
  cases side with
  | buy => exact Or.inl ⟨ha, hb⟩
  | sell => exact Or.inr ⟨neg_neg_of_pos ha, neg_neg_of_pos hb⟩

lemma Side.signedDelta_add (side : Side) (a b : ℤ) :
    side.signedDelta (a + b) = side.signedDelta a + side.signedDelta b := by
  cases side with
  | buy => rfl
  | sell => exact neg_add a b

namespace Holding

/-- Two holdings of one open or closed position agree if they are worth the same at every mark
price and have one of cost and realized profit in common; a closed position has no cost. -/
lemma eq_of_worth {h h' : Holding} (hvolume : h.volume = h'.volume)
    (hworth : ∀ m, h.worth m = h'.worth m) (hstale : h.unrealizedPnl = h'.unrealizedPnl)
    (hcommon : h.avgCost = h'.avgCost ∨ h.volume ≠ 0 ∧ h.realizedPnl = h'.realizedPnl) :
    h = h' := by
  have hzero := hworth 0
  unfold worth at hzero
  rw [hvolume] at hzero
  have hcost : h.avgCost = h'.avgCost := by
    rcases hcommon with hcost | ⟨hopen, hpnl⟩
    · exact hcost
    · have hopen' : (h'.volume : ℚ) ≠ 0 := by
        rw [Int.cast_ne_zero, ← hvolume]
        exact hopen
      rw [hpnl, add_right_inj] at hzero
      exact sub_right_injective (mul_left_cancel₀ hopen' hzero)
  rw [hcost, add_left_inj] at hzero
  exact Holding.ext hvolume hcost hzero hstale

section Split

variable {h : Holding} {side : Side} {execPrice tradeVolume : ℤ}

@[simp] lemma applyFill_unrealizedPnl (h : Holding) (side : Side) (execPrice tradeVolume : ℤ) :
    (h.applyFill side execPrice tradeVolume).unrealizedPnl = h.unrealizedPnl := by
  unfold applyFill
  dsimp only
  split_ifs <;> rfl

/-- A fill that opens or extends a position realizes nothing. -/
lemma applyFill_realizedPnl_of_sameDirection (hpos : 0 < tradeVolume)
    (hsame : SameDirection h.volume (side.signedDelta tradeVolume)) :
    (h.applyFill side execPrice tradeVolume).realizedPnl = h.realizedPnl := by
  rw [applyFill_of_sameDirection hpos hsame]

/-- A fill that reduces a position keeps its cost. -/
lemma applyFill_avgCost_of_reduce
    (hopposite : ¬ SameDirection h.volume (side.signedDelta tradeVolume))
    (hlt : (side.signedDelta tradeVolume).natAbs < h.volume.natAbs) :
    (h.applyFill side execPrice tradeVolume).avgCost = h.avgCost := by
  rw [applyFill_of_reduce hopposite hlt]

/-- A fill that opens a position, from flat or through zero, sets the cost to its own price. -/
lemma applyFill_avgCost_of_open (hpos : 0 < tradeVolume)
    (hopen : h.volume = 0 ∨ ¬ SameDirection h.volume (side.signedDelta tradeVolume) ∧
      h.volume.natAbs < (side.signedDelta tradeVolume).natAbs) :
    (h.applyFill side execPrice tradeVolume).avgCost = toUsd execPrice := by
  rcases hopen with hflat | ⟨hopposite, hlt⟩
  · have hdelta : ((side.signedDelta tradeVolume).natAbs : ℚ) ≠ 0 := by
      rw [Nat.cast_ne_zero, Int.natAbs_ne_zero]
      exact side.signedDelta_ne_zero hpos
    rw [applyFill_of_sameDirection hpos (Or.inl hflat)]
    dsimp only
    rw [rolledCost, hflat, Int.natAbs_zero, Nat.cast_zero, mul_zero, zero_add, zero_add,
      mul_div_cancel_right₀ _ hdelta]
  · rw [applyFill_of_flip hopposite hlt]

/-- A fill at the cost of the position that it extends keeps the cost. -/
lemma applyFill_avgCost_of_extend (hpos : 0 < tradeVolume)
    (hsame : SameDirection h.volume (side.signedDelta tradeVolume))
    (hcost : h.avgCost = toUsd execPrice) :
    (h.applyFill side execPrice tradeVolume).avgCost = toUsd execPrice := by
  have hdelta : 0 < (side.signedDelta tradeVolume).natAbs :=
    Int.natAbs_pos.mpr (side.signedDelta_ne_zero hpos)
  have hsum : (h.volume.natAbs : ℚ) + (side.signedDelta tradeVolume).natAbs ≠ 0 := by
    rw [← Nat.cast_add, Nat.cast_ne_zero]
    omega
  rw [applyFill_of_sameDirection hpos hsame]
  dsimp only
  rw [rolledCost, hcost, ← mul_add, mul_div_cancel_right₀ _ hsum]

/-- A fill that extends a position and its parts realize nothing. -/
lemma realizedPnl_applyFill_add {a b : ℤ} (ha : 0 < a) (hb : 0 < b)
    (hsame : SameDirection h.volume (side.signedDelta (a + b))) :
    (h.applyFill side execPrice (a + b)).realizedPnl =
      ((h.applyFill side execPrice a).applyFill side execPrice b).realizedPnl := by
  have hparts := side.signedDelta_parts ha hb
  have hadd := side.signedDelta_add a b
  have hfirst : SameDirection h.volume (side.signedDelta a) := by
    unfold SameDirection at hsame ⊢
    omega
  have hsecond : SameDirection (h.applyFill side execPrice a).volume (side.signedDelta b) := by
    rw [applyFill_volume]
    unfold SameDirection at hsame ⊢
    omega
  rw [applyFill_realizedPnl_of_sameDirection (add_pos ha hb) hsame,
    applyFill_realizedPnl_of_sameDirection hb hsecond,
    applyFill_realizedPnl_of_sameDirection ha hfirst]

/-- A fill against a position that does not close it exactly leaves the same cost as its parts. -/
lemma avgCost_applyFill_add {a b : ℤ} (ha : 0 < a) (hb : 0 < b)
    (hopposite : ¬ SameDirection h.volume (side.signedDelta (a + b)))
    (hopen : h.volume + side.signedDelta (a + b) ≠ 0) :
    (h.applyFill side execPrice (a + b)).avgCost =
      ((h.applyFill side execPrice a).applyFill side execPrice b).avgCost := by
  have hparts := side.signedDelta_parts ha hb
  have hadd := side.signedDelta_add a b
  have hfirst : ¬ SameDirection h.volume (side.signedDelta a) := by
    unfold SameDirection at hopposite ⊢
    omega
  rcases lt_or_ge (side.signedDelta (a + b)).natAbs h.volume.natAbs with hlt | hge
  · -- the whole and the parts reduce: the cost is kept
    have hsecond : ¬ SameDirection (h.applyFill side execPrice a).volume (side.signedDelta b) := by
      rw [applyFill_volume]
      unfold SameDirection at hopposite ⊢
      omega
    rw [applyFill_avgCost_of_reduce hopposite hlt, applyFill_avgCost_of_reduce hsecond,
      applyFill_avgCost_of_reduce hfirst]
    · omega
    · rw [applyFill_volume]
      omega
  · have hwhole : h.volume.natAbs < (side.signedDelta (a + b)).natAbs := by
      unfold SameDirection at hopposite
      omega
    rw [applyFill_avgCost_of_open (add_pos ha hb) (Or.inr ⟨hopposite, hwhole⟩)]
    symm
    rcases lt_or_ge h.volume.natAbs (side.signedDelta a).natAbs with hlt | hle
    · -- the first part reverses the position, the second one extends it at the same price
      apply applyFill_avgCost_of_extend hb
      · rw [applyFill_volume]
        unfold SameDirection at hopposite ⊢
        omega
      · exact applyFill_avgCost_of_open ha (Or.inr ⟨hfirst, hlt⟩)
    · -- the second part opens the position, from flat or through zero
      apply applyFill_avgCost_of_open hb
      rw [applyFill_volume]
      unfold SameDirection at hopposite ⊢
      omega

end Split

/-- **A fill may be split.**  A fill of volume `a + b` leaves the same holding as a fill of volume
`a` followed by one of volume `b`, wherever the split falls: before the position crosses zero, on
zero or after it. -/
theorem applyFill_add (h : Holding) (side : Side) (execPrice : ℤ) {a b : ℤ} (ha : 0 < a)
    (hb : 0 < b) :
    h.applyFill side execPrice (a + b) =
      (h.applyFill side execPrice a).applyFill side execPrice b := by
  have hab : 0 < a + b := add_pos ha hb
  have hadd := side.signedDelta_add a b
  have hworth : ∀ m, (h.applyFill side execPrice (a + b)).worth m =
      ((h.applyFill side execPrice a).applyFill side execPrice b).worth m := by
    intro m
    rw [worth_applyFill hab, worth_applyFill hb, worth_applyFill ha, hadd, Int.cast_add]
    ring
  have hvolume : (h.applyFill side execPrice (a + b)).volume =
      ((h.applyFill side execPrice a).applyFill side execPrice b).volume := by
    rw [applyFill_volume, applyFill_volume, applyFill_volume, hadd, add_assoc]
  refine eq_of_worth hvolume hworth (by simp only [applyFill_unrealizedPnl]) ?_
  by_cases hflat : (h.applyFill side execPrice (a + b)).volume = 0
  · left
    rw [applyFill_avgCost_of_flat hflat, applyFill_avgCost_of_flat (hvolume ▸ hflat)]
  rw [applyFill_volume] at hflat
  by_cases hsame : SameDirection h.volume (side.signedDelta (a + b))
  · right
    exact ⟨by rwa [applyFill_volume], realizedPnl_applyFill_add ha hb hsame⟩
  · left
    exact avgCost_applyFill_add ha hb hsame hflat

/-- A short position of five is bought back and reversed by eight: in one fill, or by three and
five. -/
theorem applyFill_add_reversal :
    ({ volume := -5, avgCost := 3 } : Holding).applyFill .buy 2000000 (3 + 5) =
      (({ volume := -5, avgCost := 3 } : Holding).applyFill .buy 2000000 3).applyFill
        .buy 2000000 5 :=
  applyFill_add _ _ _ (by decide) (by decide)

end Holding

end ToyExchange
