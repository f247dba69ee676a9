import ToyExchange.Engine.User

/-!
# Settlement of trades

The body of the inventory thread's loop: look up the maker and the taker, apply the two legs of
the trade, and mark both holdings to market if a mid price has been published.  `Get` throws for
an id out of range, and both lookups come before the first update, so a trade that throws changes
nothing (`settle_of_throws`).

`ZeroSum` is the invariant: over all the users, the positions in a ticker and the worth of the
holdings in it, at any mark price, add up to nothing.  The legs of a trade change the sums by
opposite amounts, also when maker and taker are one user.
-/

namespace ToyExchange

namespace UserRegistry

/-- The two legs of a trade. -/
def applyTrade (r : UserRegistry) (maker taker : Fin marketParticipantCount) (trade : Trade) :
    UserRegistry :=
  let r' := r.modify maker fun u =>
    u.applyFill trade.ticker trade.takerSide.opposite trade.executionPrice trade.volume
  r'.modify taker fun u =>
    u.applyFill trade.ticker trade.takerSide trade.executionPrice trade.volume

/-- Mark the holdings of maker and taker to market, if there is a mid price. -/
def markToMarket (r : UserRegistry) (maker taker : Fin marketParticipantCount) (ticker : Ticker) :
    Option ℤ → UserRegistry
  | none => r
  | some mid =>
    let r' := r.modify maker fun u => u.refreshUnrealizedPnl ticker mid
    r'.modify taker fun u => u.refreshUnrealizedPnl ticker mid

/-- What handling a trade leaves behind: the registry, and whether `Get` threw. -/
structure Settled where
  registry : UserRegistry
  threw : Bool

/-- The body of the loop for one trade, given the mid price that the router holds when it is
read. -/
def settle (r : UserRegistry) (trade : Trade) (mid : Option ℤ) : Settled :=
  match get trade.makerId with
  | none => ⟨r, true⟩
  | some maker =>
    match get trade.takerId with
    | none => ⟨r, true⟩
    | some taker =>
      ⟨(r.applyTrade maker taker trade).markToMarket maker taker trade.ticker mid, false⟩

/-- Settle trades in order, each with the mid price read for it, up to the first one that
throws. -/
def settleAll : UserRegistry → List (Trade × Option ℤ) → UserRegistry
  | r, [] => r
  | r, (trade, mid) :: trades =>
    if (r.settle trade mid).threw then (r.settle trade mid).registry
    else settleAll (r.settle trade mid).registry trades

/-- A trade that throws changes nothing: neither leg is applied. -/
lemma settle_of_throws {r : UserRegistry} {trade : Trade} {mid : Option ℤ}
    (h : (r.settle trade mid).threw = true) : (r.settle trade mid).registry = r := by
  unfold settle at h ⊢
  cases hmaker : get trade.makerId with
  | none => rfl
  | some maker =>
    cases htaker : get trade.takerId with
    | none => rfl
    | some taker => simp [hmaker, htaker] at h

/-- A trade that does not throw has both legs applied. -/
lemma settle_of_not_throws {r : UserRegistry} {trade : Trade} {mid : Option ℤ}
    (h : (r.settle trade mid).threw = false) :
    ∃ maker taker, get trade.makerId = some maker ∧ get trade.takerId = some taker ∧
      (r.settle trade mid).registry =
        (r.applyTrade maker taker trade).markToMarket maker taker trade.ticker mid := by
  unfold settle at h ⊢
  cases hmaker : get trade.makerId with
  | none => simp [hmaker] at h
  | some maker =>
    cases htaker : get trade.takerId with
    | none => simp [hmaker, htaker] at h
    | some taker => exact ⟨maker, taker, rfl, rfl, rfl⟩

/-- Whether a trade throws depends on its ids only. -/
lemma threw_settle (r r' : UserRegistry) (trade : Trade) (mid : Option ℤ) :
    (r.settle trade mid).threw = (r'.settle trade mid).threw := by
  unfold settle
  cases get trade.makerId with
  | none => rfl
  | some maker =>
    cases get trade.takerId with
    | none => rfl
    | some taker => rfl

/-- After trades that do not throw, the next one is settled on what they lead to. -/
lemma settleAll_concat {r : UserRegistry} {trades : List (Trade × Option ℤ)}
    (h : ∀ x ∈ trades, ∀ r' : UserRegistry, (r'.settle x.1 x.2).threw = false)
    (x : Trade × Option ℤ) :
    r.settleAll (trades ++ [x]) = ((r.settleAll trades).settle x.1 x.2).registry := by
  induction trades generalizing r with
  | nil =>
    change (if (r.settle x.1 x.2).threw then (r.settle x.1 x.2).registry
      else (r.settle x.1 x.2).registry) = (r.settle x.1 x.2).registry
    rw [ite_self]
  | cons y trades ih =>
    obtain ⟨hhead, htail⟩ := List.forall_mem_cons.mp h
    rw [List.cons_append, settleAll, settleAll, if_neg (by simp [hhead]), if_neg (by simp [hhead])]
    exact ih htail

/-! ## The sums over all users -/

/-- A trade leaves a sum over the users alone if its two legs change it by opposite amounts. -/
lemma sum_applyTrade {G : Type*} [AddCommGroup G] {F : User → G} {trade : Trade} {d : G}
    (hfill : ∀ u, F (u.applyFill trade.ticker trade.takerSide trade.executionPrice trade.volume) =
      F u + d)
    (hfill' : ∀ u, F (u.applyFill trade.ticker trade.takerSide.opposite trade.executionPrice
      trade.volume) = F u + -d)
    (r : UserRegistry) (maker taker : Fin marketParticipantCount) :
    ∑ i, F ((r.applyTrade maker taker trade).users i) = ∑ i, F (r.users i) := by
  unfold applyTrade
  dsimp only
  rw [sum_modify hfill, sum_modify hfill', neg_add_cancel_right]

/-- Marking to market leaves a sum alone that does not see the unrealized profit. -/
lemma sum_markToMarket {G : Type*} [AddCommGroup G] {F : User → G} {ticker : Ticker}
    (hrefresh : ∀ u mid, F (User.refreshUnrealizedPnl u ticker mid) = F u) (r : UserRegistry)
    (maker taker : Fin marketParticipantCount) (mid : Option ℤ) :
    ∑ i, F ((r.markToMarket maker taker ticker mid).users i) = ∑ i, F (r.users i) := by
  cases mid with
  | none => rfl
  | some mid =>
    have hzero : ∀ u, F (User.refreshUnrealizedPnl u ticker mid) = F u + 0 := fun u => by
      rw [hrefresh, add_zero]
    unfold markToMarket
    dsimp only
    rw [sum_modify hzero, sum_modify hzero, add_zero, add_zero]

/-- The positions in every ticker, and the worth of the holdings in it at every mark price, add up
to nothing. -/
structure ZeroSum (r : UserRegistry) : Prop where
  position : ∀ ticker, ∑ i, (r.users i).position ticker = 0
  worth : ∀ ticker m, ∑ i, ((r.users i).holding ticker).worth m = 0

lemma zeroSum_fresh : fresh.ZeroSum where
  position ticker := Finset.sum_eq_zero fun _ _ => rfl
  worth ticker m := by
    refine Finset.sum_eq_zero fun i _ => ?_
    simp [fresh, User.holding, Holding.worth]

/-- Settling a trade keeps the sums, whether it throws or not. -/
theorem zeroSum_settle {r : UserRegistry} (h : r.ZeroSum) {trade : Trade}
    (hpos : 0 < trade.volume) (mid : Option ℤ) : (r.settle trade mid).registry.ZeroSum := by
  cases hthrew : (r.settle trade mid).threw with
  | true =>
    rw [settle_of_throws hthrew]
    exact h
  | false =>
    obtain ⟨maker, taker, -, -, hregistry⟩ := settle_of_not_throws hthrew
    rw [hregistry]
    refine ⟨fun ticker => ?_, fun ticker m => ?_⟩
    · rw [sum_markToMarket (F := fun u => u.position ticker) fun u mid => ?_,
        sum_applyTrade (F := fun u => u.position ticker)
          (d := if ticker = trade.ticker then trade.takerSide.signedDelta trade.volume else 0)]
      · exact h.position ticker
      · exact fun u => User.position_applyFill u _ _ _ _ _
      · intro u
        rw [User.position_applyFill]
        split_ifs <;> simp
      · exact User.position_refreshUnrealizedPnl u _ _ mid
    · rw [sum_markToMarket (F := fun u => (u.holding ticker).worth m) fun u mid => ?_,
        sum_applyTrade (F := fun u => (u.holding ticker).worth m)
          (d := if ticker = trade.ticker then
            (trade.takerSide.signedDelta trade.volume : ℚ) * (m - toUsd trade.executionPrice)
            else 0)]
      · exact h.worth ticker m
      · exact fun u => User.worth_applyFill hpos u _ _ _ _ _
      · intro u
        rw [User.worth_applyFill hpos]
        split_ifs
        · rw [Side.signedDelta_opposite, Int.cast_neg, neg_mul]
        · simp
      · exact User.worth_refreshUnrealizedPnl u _ _ mid m

/-- Settling a sequence of trades keeps the sums. -/
theorem zeroSum_settleAll {r : UserRegistry} (h : r.ZeroSum) {trades : List (Trade × Option ℤ)}
    (hpos : ∀ x ∈ trades, 0 < x.1.volume) : (r.settleAll trades).ZeroSum := by
  induction trades generalizing r with
  | nil => exact h
  | cons x trades ih =>
    obtain ⟨trade, mid⟩ := x
    obtain ⟨hhead, htail⟩ := List.forall_mem_cons.mp hpos
    have hnext := zeroSum_settle h hhead mid
    rw [settleAll]
    split_ifs
    · exact hnext
    · exact ih hnext htail

/-- **Settlement is zero-sum, and all or nothing.**  Settle any trades of positive volume, with any
maker and taker ids and whatever mid prices are read, on a fresh registry up to the first trade
that throws.  The positions of all users in each ticker add up to zero, and so does the worth of
their holdings in it at each mark price.  A further trade that throws changes nothing. -/
theorem settlement_zeroSum (trades : List (Trade × Option ℤ))
    (hpos : ∀ x ∈ trades, 0 < x.1.volume) :
    (∀ ticker, ∑ i, ((fresh.settleAll trades).users i).position ticker = 0) ∧
      (∀ ticker (m : ℚ), ∑ i,
        ((((fresh.settleAll trades).users i).holding ticker).realizedPnl +
          (((fresh.settleAll trades).users i).holding ticker).volume *
            (m - (((fresh.settleAll trades).users i).holding ticker).avgCost)) = 0) ∧
      ∀ trade mid, ((fresh.settleAll trades).settle trade mid).threw = true →
        ((fresh.settleAll trades).settle trade mid).registry = fresh.settleAll trades := by
  have hzero := zeroSum_settleAll zeroSum_fresh hpos
  exact ⟨hzero.position, hzero.worth, fun _ _ => settle_of_throws⟩

/-- A trade of user 1 with user 2, a trade of user 2 with themselves and a trade with an unknown
user, which throws. -/
theorem settlement_zeroSum_three_trades :
    let trades : List (Trade × Option ℤ) :=
      [(⟨1, 2, 10, 11, .aapl, .buy, 100000000, 5⟩, some 100000000),
        (⟨2, 2, 12, 13, .aapl, .sell, 101000000, 7⟩, none),
        (⟨1, 100, 14, 15, .aapl, .sell, 101000000, 7⟩, none)]
    (∀ x ∈ trades, 0 < x.1.volume) ∧
      ((fresh.settleAll trades).users ⟨1, by decide⟩).position .aapl = -5 ∧
      ∑ i, ((fresh.settleAll trades).users i).position .aapl = 0 :=
  ⟨by decide, by decide, (settlement_zeroSum _ (by decide)).1 .aapl⟩

end UserRegistry

end ToyExchange
