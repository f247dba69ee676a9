import ToyExchange.Engine.Doubles
import ToyExchange.Workers.Snapshot

/-!
# The books of all users in doubles

Settlement creates no money: in exact arithmetic the positions in a ticker add up to zero, and the
realized profits to the cost of the open positions.  In doubles the positions still do, but each
account has its own rounding errors.

The accounts are separate, so each of them follows the exact account of its fills
(`Accounts.keeps_settleAll`, `Follows`), and the errors add up to a small part of the money that has
changed hands (`books_balance_in_doubles`).
-/

namespace ToyExchange

namespace Doubles

/-- The holdings of all users in doubles.  What was never traded is an empty holding. -/
structure Accounts where
  holding : Fin marketParticipantCount → Ticker → Holding

namespace Accounts

/-- Nothing was traded. -/
def fresh : Accounts := ⟨fun _ _ => {}⟩

/-- Replace the holding of a user in a ticker. -/
def set (a : Accounts) (user : Fin marketParticipantCount) (ticker : Ticker) (h : Holding) :
    Accounts where
  holding i t := if user = i ∧ ticker = t then h else a.holding i t

/-- A call of `ApplyFill` on the user it names. -/
def applyFill (a : Accounts) (f : Fill) : Accounts :=
  a.set f.user f.ticker
    (Doubles.applyFill (a.holding f.user f.ticker) f.side f.execPrice f.tradeVolume)

/-- Mark the holding of a user to market. -/
def refresh (mid : ℤ) (a : Accounts) (f : Fill) : Accounts :=
  a.set f.user f.ticker (refreshUnrealizedPnl (a.holding f.user f.ticker) mid)

/-- The body of the inventory thread's loop: the two fills of the trade, and the marks to market of
its two users if there is a mid price. -/
def settle (a : Accounts) (trade : Trade) (mid : Option ℤ) : Accounts :=
  let filled := trade.fills.foldl applyFill a
  match mid with
  | none => filled
  | some mid => trade.fills.foldl (refresh mid) filled

/-- Settle trades in order, each with the mid price read for it. -/
def settleAll (a : Accounts) (trades : List (Trade × Option ℤ)) : Accounts :=
  trades.foldl (fun a x => a.settle x.1 x.2) a

/-! ## The accounts are separate -/

/-- A fill does not look at the unrealized profit. -/
lemma booked_applyFill (h : Holding) (side : Side) (execPrice tradeVolume : ℤ) :
    (Doubles.applyFill h side execPrice tradeVolume).booked =
      Doubles.applyFill h.booked side execPrice tradeVolume := by
  unfold Doubles.applyFill Holding.booked rolledCost closedPnl
  dsimp only
  split_ifs <;> rfl

/-- But for the unrealized profit, the accounts are those after the fills. -/
def Keeps (a : Accounts) (fills : List Fill) : Prop :=
  ∀ i t, (a.holding i t).booked = holdingAfter (fillsAt i t fills)

lemma keeps_fresh : fresh.Keeps [] := fun _ _ => rfl

lemma Keeps.applyFill {a : Accounts} {fills : List Fill} (h : a.Keeps fills) (f : Fill) :
    (a.applyFill f).Keeps (fills ++ [f]) := by
  intro i t
  rw [fillsAt_concat]
  simp only [Accounts.applyFill, set]
  split_ifs with hf
  · obtain ⟨rfl, rfl⟩ := hf
    rw [booked_applyFill, h, holdingAfter, holdingAfter, List.foldl_append]
    rfl
  · rw [List.append_nil]
    exact h i t

lemma Keeps.foldl {a : Accounts} {fills : List Fill} (h : a.Keeps fills) (more : List Fill) :
    (more.foldl Accounts.applyFill a).Keeps (fills ++ more) := by
  induction more generalizing a fills with
  | nil => rwa [List.append_nil]
  | cons f more ih =>
    rw [List.foldl_cons, ← List.singleton_append, ← List.append_assoc]
    exact ih (h.applyFill f)

/-- Marking to market leaves the accounts alone. -/
lemma Keeps.refresh {a : Accounts} {fills : List Fill} (h : a.Keeps fills) (mid : ℤ)
    (marked : List Fill) : (marked.foldl (Accounts.refresh mid) a).Keeps fills := by
  induction marked generalizing a with
  | nil => exact h
  | cons f marked ih =>
    refine ih fun i t => ?_
    simp only [Accounts.refresh, set]
    split_ifs with hf
    · obtain ⟨rfl, rfl⟩ := hf
      exact h f.user f.ticker
    · exact h i t

/-- After settlements the accounts are those of the fills made. -/
theorem keeps_settleAll (trades : List (Trade × Option ℤ)) :
    (fresh.settleAll trades).Keeps ((trades.map Prod.fst).flatMap Trade.fills) := by
  induction trades using List.reverseRecOn with
  | nil => exact keeps_fresh
  | append_singleton trades x ih =>
    unfold settleAll at ih ⊢
    rw [List.foldl_append, List.map_append, List.flatMap_append, List.map_singleton,
      List.flatMap_singleton]
    have hfilled := ih.foldl x.1.fills
    rw [List.foldl_cons, List.foldl_nil]
    unfold settle
    rcases x.2 with _ | mid
    · exact hfilled
    · exact hfilled.refresh mid x.1.fills

end Accounts

/-- The exact accounts keep the fills too. -/
lemma booked_holding_of_keeps {r : UserRegistry} {fills : List Fill} (h : r.Keeps fills)
    (i : Fin marketParticipantCount) (t : Ticker) :
    ((r.users i).holding t).booked = ToyExchange.holdingAfter (fillsAt i t fills) := by
  have hkept := h.holding i t
  unfold account at hkept
  unfold User.holding
  split_ifs at hkept with hnil
  · rw [Option.map_eq_none_iff.mp hkept, hnil]
    rfl
  · obtain ⟨holding, hholding, hbooked⟩ := Option.map_eq_some_iff.mp hkept
    rw [hholding]
    exact hbooked

/-! ## All accounts together -/

/-- A sum over the accounts of a ticker is one over its fills. -/
lemma sum_fillsAt (g : Execution → ℚ) (ticker : Ticker) (fills : List Fill) :
    ∑ i, ((fillsAt i ticker fills).map g).sum =
      ((fills.filter fun f => f.ticker = ticker).map fun f => g f.execution).sum := by
  induction fills using List.reverseRecOn with
  | nil => exact Finset.sum_eq_zero fun _ _ => rfl
  | append_singleton fills f ih =>
    have hstep : ∀ i, ((fillsAt i ticker (fills ++ [f])).map g).sum =
        ((fillsAt i ticker fills).map g).sum +
          if f.user = i then if f.ticker = ticker then g f.execution else 0 else 0 := by
      intro i
      rw [fillsAt_concat, List.map_append, List.sum_append]
      congr 1
      by_cases hi : f.user = i <;> by_cases ht : f.ticker = ticker <;> simp [hi, ht]
    rw [Finset.sum_congr rfl fun i _ => hstep i, Finset.sum_add_distrib, ih, Finset.sum_ite_eq,
      if_pos (Finset.mem_univ _), List.filter_append, List.map_append, List.sum_append]
    congr 1
    by_cases ht : f.ticker = ticker <;> simp [ht]

/-- The fills of an account are among all fills. -/
lemma fillsAt_sublist (i : Fin marketParticipantCount) (ticker : Ticker) (fills : List Fill) :
    (fillsAt i ticker fills).Sublist (fills.map Fill.execution) :=
  List.filter_sublist.map _

/-- Fills at valid prices are valid on each account. -/
lemma ValidFills.of_sublist {fills some : List Execution} (h : ValidFills fills)
    (hsub : some.Sublist fills) : ValidFills some where
  price x hx := h.price x (hsub.subset hx)
  volume x hx := h.volume x (hsub.subset hx)
  total := by
    refine le_trans ?_ h.total
    exact (hsub.map _).sum_le_sum fun v hv => by
      obtain ⟨x, hx, rfl⟩ := List.mem_map.mp hv
      exact (h.volume x hx).le

lemma Follows.turnover_nonneg {n : ℕ} {money : ℚ} {d h : Holding} (hf : Follows n money d h) :
    0 ≤ money := by
  have hcost : 0 ≤ h.avgCost := (abs_nonneg _).trans hf.avgCost.magnitude
  have hopen : (0 : ℚ) ≤ h.volume.natAbs * h.avgCost := mul_nonneg (Nat.cast_nonneg _) hcost
  linarith [(abs_nonneg _).trans hf.realizedPnl.magnitude]

/-- What an account is worth at a mark of zero, in doubles and exactly.  The errors of the realized
profit and of the open position are relative to different parts of the money. -/
lemma Follows.abs_worth_sub_le {n : ℕ} {money : ℚ} {d h : Holding} (hf : Follows n money d h) :
    |d.worth 0 - h.worth 0| ≤ ((1 + doubleError) ^ (3 * n + 1) - 1) * money := by
  have hopen : |(h.volume : ℚ) * (d.avgCost - h.avgCost)| ≤
      ((1 + doubleError) ^ (3 * n + 1) - 1) * (h.volume.natAbs * h.avgCost) := by
    rw [abs_mul, Nat.cast_natAbs, Int.cast_abs]
    linarith [mul_le_mul_of_nonneg_left hf.avgCost.error (abs_nonneg (h.volume : ℚ))]
  have hsplit : d.worth 0 - h.worth 0 =
      (d.realizedPnl - h.realizedPnl) - h.volume * (d.avgCost - h.avgCost) := by
    unfold Holding.worth
    rw [hf.volume]
    ring
  rw [hsplit]
  linarith [abs_sub (d.realizedPnl - h.realizedPnl) (h.volume * (d.avgCost - h.avgCost)),
    hf.realizedPnl.error]

/-- The money that changes hands in the trades of a ticker. -/
def moneyTraded (ticker : Ticker) (trades : List Trade) : ℚ :=
  ((trades.filter fun t => t.ticker = ticker).map fun t =>
    ToyExchange.toUsd t.executionPrice * (t.volume : ℚ)).sum

/-- Trades at valid prices, of volumes that are counted exactly even when taken together. -/
structure ValidTrades (trades : List Trade) : Prop where
  price : ∀ t ∈ trades, ValidPrice t.executionPrice
  volume : ∀ t ∈ trades, 0 < t.volume
  total : (trades.map Trade.volume).sum ≤ 2 ^ 49

/-- What is not negative on trades is at most doubled by their fills. -/
lemma sum_fills_le {G : Type*} [AddCommMonoid G] [PartialOrder G] [IsOrderedAddMonoid G]
    {g : Fill → G} {v : Trade → G} {trades : List Trade} (hv : ∀ t ∈ trades, 0 ≤ v t)
    (hg : ∀ t ∈ trades, ∀ f ∈ t.fills, g f = v t) :
    ((trades.flatMap Trade.fills).map g).sum ≤ 2 • (trades.map v).sum := by
  induction trades with
  | nil => simp
  | cons t trades ih =>
    obtain ⟨ht, htrades⟩ := List.forall_mem_cons.mp hv
    obtain ⟨hgt, hgtrades⟩ := List.forall_mem_cons.mp hg
    rw [List.flatMap_cons, List.map_append, List.sum_append, List.map_cons, List.sum_cons,
      nsmul_add]
    refine add_le_add ?_ (ih htrades hgtrades)
    unfold Trade.fills at hgt ⊢
    split
    · case _ maker taker hmaker htaker =>
      rw [hmaker, htaker] at hgt
      simp only [List.mem_cons, List.not_mem_nil, or_false, forall_eq_or_imp, forall_eq] at hgt
      simp [hgt.1, hgt.2, two_nsmul]
    · simpa using nsmul_nonneg ht 2

/-- The fills of a trade have its data. -/
lemma of_mem_fills {t : Trade} {f : Fill} (hf : f ∈ t.fills) :
    f.ticker = t.ticker ∧ f.execPrice = t.executionPrice ∧ f.tradeVolume = t.volume := by
  unfold Trade.fills at hf
  split at hf
  · rcases List.mem_cons.mp hf with rfl | hf
    · exact ⟨rfl, rfl, rfl⟩
    · rw [List.mem_singleton.mp hf]
      exact ⟨rfl, rfl, rfl⟩
  · cases hf

section Trades

variable {trades : List Trade} (h : ValidTrades trades)
include h

lemma ValidTrades.validFills :
    ValidFills ((trades.flatMap Trade.fills).map Fill.execution) := by
  have hdata : ∀ x ∈ (trades.flatMap Trade.fills).map Fill.execution, ∃ t ∈ trades,
      x.execPrice = t.executionPrice ∧ x.tradeVolume = t.volume := by
    intro x hx
    obtain ⟨f, hf, rfl⟩ := List.mem_map.mp hx
    obtain ⟨t, ht, hf⟩ := List.mem_flatMap.mp hf
    exact ⟨t, ht, (of_mem_fills hf).2⟩
  constructor
  · intro x hx
    obtain ⟨t, ht, hprice, -⟩ := hdata x hx
    exact hprice ▸ h.price t ht
  · intro x hx
    obtain ⟨t, ht, -, hvolume⟩ := hdata x hx
    exact hvolume ▸ h.volume t ht
  · have hsum := sum_fills_le (g := Fill.tradeVolume) (v := Trade.volume)
      (fun t ht => (h.volume t ht).le) fun t _ f hf => (of_mem_fills hf).2.2
    have htotal := h.total
    rw [two_nsmul] at hsum
    rw [List.map_map]
    exact hsum.trans (by omega)

omit h in
lemma length_fills_le (trades : List Trade) :
    (trades.flatMap Trade.fills).length ≤ 2 * trades.length := by
  have hsum := sum_fills_le (g := fun _ => 1) (v := fun _ => 1)
    (fun t (_ : t ∈ trades) => Nat.zero_le 1) fun _ _ _ _ => rfl
  simpa using hsum

omit h in
/-- The fills in a ticker are those of the trades in it. -/
lemma filter_fills (ticker : Ticker) (trades : List Trade) :
    ((trades.flatMap Trade.fills).filter fun f => f.ticker = ticker) =
      (trades.filter fun t => t.ticker = ticker).flatMap Trade.fills := by
  induction trades with
  | nil => rfl
  | cons t trades ih =>
    rw [List.flatMap_cons, List.filter_append, ih]
    by_cases ht : t.ticker = ticker
    · rw [List.filter_cons_of_pos (by simpa using ht), List.flatMap_cons,
        List.filter_eq_self.mpr fun f hf => by simpa [(of_mem_fills hf).1] using ht]
    · rw [List.filter_cons_of_neg (by simpa using ht),
        List.filter_eq_nil_iff.mpr fun f hf => by simpa [(of_mem_fills hf).1] using ht,
        List.nil_append]

/-- Each trade moves its money on two accounts. -/
lemma sum_turnover_le (ticker : Ticker) :
    ∑ i, turnover (fillsAt i ticker (trades.flatMap Trade.fills)) ≤
      2 * moneyTraded ticker trades := by
  unfold turnover moneyTraded
  rw [sum_fillsAt, filter_fills, two_mul, ← two_nsmul]
  refine sum_fills_le (v := fun t => ToyExchange.toUsd t.executionPrice * (t.volume : ℚ))
    (fun t ht => ?_) fun t _ f hf => ?_
  · have hmem := (List.mem_filter.mp ht).1
    exact mul_nonneg (toUsd_pos (h.price t hmem)).le (Int.cast_nonneg (h.volume t hmem).le)
  · obtain ⟨-, hprice, hvolume⟩ := of_mem_fills hf
    rw [← hprice, ← hvolume]
    rfl

/-- The books of a ticker in doubles are as far from the exact ones as the rounding of the money
that has changed hands. -/
lemma abs_sum_worth_sub_le (ticker : Ticker) :
    |∑ i, (holdingAfter (fillsAt i ticker (trades.flatMap Trade.fills))).worth 0 -
        ∑ i, (ToyExchange.holdingAfter
          (fillsAt i ticker (trades.flatMap Trade.fills))).worth 0| ≤
      (6 * trades.length + 1) / 2 ^ 52 * (2 * moneyTraded ticker trades) := by
  have hall := h.validFills
  have hmoney := sum_turnover_le h ticker
  have hlength := length_fills_le trades
  generalize trades.flatMap Trade.fills = fills at hall hmoney hlength ⊢
  -- no account has more roundings than all fills together
  have herror : (1 + doubleError) ^ (3 * fills.length + 1) - 1 ≤
      (6 * trades.length + 1) / 2 ^ 52 := by
    have hle := error_le hall (k := 1) (by omega)
    rw [List.length_map] at hle
    have hcast : (fills.length : ℚ) ≤ 2 * trades.length := by exact_mod_cast hlength
    push_cast at hle
    linarith
  have hfollows : ∀ i, Follows (fillsAt i ticker fills).length
      (turnover (fillsAt i ticker fills)) (holdingAfter (fillsAt i ticker fills))
      (ToyExchange.holdingAfter (fillsAt i ticker fills)) := fun i =>
    follows_holdingAfter (hall.of_sublist (fillsAt_sublist i ticker fills))
  have haccount : ∀ i, |(holdingAfter (fillsAt i ticker fills)).worth 0 -
      (ToyExchange.holdingAfter (fillsAt i ticker fills)).worth 0| ≤
        (6 * trades.length + 1) / 2 ^ 52 * turnover (fillsAt i ticker fills) := by
    intro i
    have hfewer : (fillsAt i ticker fills).length ≤ fills.length := by
      simpa using (fillsAt_sublist i ticker fills).length_le
    have hpow : (1 + doubleError) ^ (3 * (fillsAt i ticker fills).length + 1) ≤
        (1 + doubleError) ^ (3 * fills.length + 1) :=
      pow_le_pow_right₀ (by linarith [doubleError_nonneg]) (by omega)
    refine (hfollows i).abs_worth_sub_le.trans ?_
    exact mul_le_mul_of_nonneg_right (by linarith) (hfollows i).turnover_nonneg
  calc |∑ i, (holdingAfter (fillsAt i ticker fills)).worth 0 -
        ∑ i, (ToyExchange.holdingAfter (fillsAt i ticker fills)).worth 0|
      ≤ ∑ i, |(holdingAfter (fillsAt i ticker fills)).worth 0 -
          (ToyExchange.holdingAfter (fillsAt i ticker fills)).worth 0| := by
        rw [← Finset.sum_sub_distrib]
        exact Finset.abs_sum_le_sum_abs _ _
    _ ≤ ∑ i, (6 * trades.length + 1) / 2 ^ 52 * turnover (fillsAt i ticker fills) :=
        Finset.sum_le_sum fun i _ => haccount i
    _ = (6 * trades.length + 1) / 2 ^ 52 * ∑ i, turnover (fillsAt i ticker fills) :=
        (Finset.mul_sum ..).symm
    _ ≤ (6 * trades.length + 1) / 2 ^ 52 * (2 * moneyTraded ticker trades) :=
        mul_le_mul_of_nonneg_left hmoney (by positivity)

end Trades

end Doubles

/-! ## Runs -/

namespace State

/-- **The books balance in doubles.**  At every point of every interleaving, as long as the prices
of the settled trades are positive and below `2 ^ 53` units and their volumes add up to at most
`2 ^ 49` shares, the accounts that the inventory thread computes in doubles have positions that add
up to zero in every ticker, and realized profits that add up to the cost of the open positions, but
for `(6 * n + 1) / 2 ^ 52` of the money on both sides of the `n` trades settled. -/
theorem books_balance_in_doubles [PriceSum] {c : Capacities} (actions : List Action)
    (hprice : ∀ x ∈ (after c actions).settled, Doubles.ValidPrice x.1.executionPrice)
    (htotal : ((after c actions).settled.map fun x => x.1.volume).sum ≤ 2 ^ 49)
    (ticker : Ticker) :
    let accounts := Doubles.Accounts.fresh.settleAll (after c actions).settled
    ∑ i, (accounts.holding i ticker).volume = 0 ∧
    |∑ i, ((accounts.holding i ticker).realizedPnl -
        (accounts.holding i ticker).volume * (accounts.holding i ticker).avgCost)| ≤
      (6 * (after c actions).settled.length + 1) / 2 ^ 52 *
        (2 * Doubles.moneyTraded ticker ((after c actions).settled.map Prod.fst)) := by
  intro accounts
  have hvalid : Doubles.ValidTrades ((after c actions).settled.map Prod.fst) := by
    refine ⟨List.forall_mem_map.mpr hprice,
      List.forall_mem_map.mpr (volume_pos_of_mem_settled actions), ?_⟩
    rw [List.map_map]
    exact htotal
  have hzero := zeroSum_after (c := c) actions
  have hexact := Doubles.booked_holding_of_keeps (accounted_after (c := c) actions).keeps
  have hdouble : ∀ i, (accounts.holding i ticker).booked =
      Doubles.holdingAfter (fillsAt i ticker (after c actions).fillsMade) := fun i =>
    Doubles.Accounts.keeps_settleAll (after c actions).settled i ticker
  have hfills := hvalid.validFills
  constructor
  · rw [← hzero.position ticker]
    refine Finset.sum_congr rfl fun i _ => ?_
    have hfollows := Doubles.follows_holdingAfter
      (hfills.of_sublist (Doubles.fillsAt_sublist i ticker _))
    calc (accounts.holding i ticker).volume
        = (accounts.holding i ticker).booked.volume := rfl
      _ = (Doubles.holdingAfter (fillsAt i ticker (after c actions).fillsMade)).volume :=
          congrArg Holding.volume (hdouble i)
      _ = (holdingAfter (fillsAt i ticker (after c actions).fillsMade)).volume := hfollows.volume
      _ = (((after c actions).registry.users i).holding ticker).booked.volume :=
          congrArg Holding.volume (hexact i ticker).symm
      _ = ((after c actions).registry.users i).position ticker :=
          (User.position_eq_volume _ ticker).symm
  · have hclose := Doubles.abs_sum_worth_sub_le hvalid ticker
    have hbalanced : ∑ i, (holdingAfter
        (fillsAt i ticker (after c actions).fillsMade)).worth 0 = 0 := by
      refine (Finset.sum_congr rfl fun i _ => ?_).trans (hzero.worth ticker 0)
      rw [← hexact i ticker]
      rfl
    rw [List.length_map] at hclose
    unfold fillsMade at hbalanced
    rw [hbalanced, sub_zero] at hclose
    refine le_trans (le_of_eq (congrArg abs (Finset.sum_congr rfl fun i _ => ?_))) hclose
    unfold fillsMade at hdouble
    rw [← hdouble i]
    unfold Holding.worth Holding.booked
    ring

/-- The two users of the one trade balance. -/
theorem books_balance_in_doubles_one_trade :
    let s := @after PriceSum.int64 .exchange (oneTrade [.inventory, .inventory])
    ∑ i, ((Doubles.Accounts.fresh.settleAll s.settled).holding i .aapl).volume = 0 :=
  (@books_balance_in_doubles PriceSum.int64 .exchange (oneTrade [.inventory, .inventory])
    (by decide +kernel) (by decide +kernel) .aapl).1

end State

end ToyExchange
