import ToyExchange.Engine.WellFormed

/-!
# The volume ledger

Every unit of volume that enters an engine with a positive add is accounted for: it was traded
as taker, traded later as maker, still rests, or was taken out by a cancel.  The account is kept
for each order id, and it balances whatever ids the clients choose.

`restingVolume_onOrderAdd` and `restingVolume_onOrderCancel` say what one command does to the
volume resting in a kind of orders.  `ledger_step` is the account of one command, and `ledger`
that of a whole run.
-/

namespace ToyExchange

/-- The volume of the trades of one kind. -/
def tradedVolume (q : Trade → Bool) (trades : List Trade) : ℤ :=
  ((trades.filter q).map fun t => t.volume).sum

@[simp] lemma tradedVolume_nil (q : Trade → Bool) : tradedVolume q [] = 0 := rfl

lemma tradedVolume_append (q : Trade → Bool) (l₁ l₂ : List Trade) :
    tradedVolume q (l₁ ++ l₂) = tradedVolume q l₁ + tradedVolume q l₂ := by
  simp [tradedVolume]

/-- Trades told apart by their maker: the volume is what was taken from the makers. -/
lemma tradedVolume_eq_takenFrom {order : OrderAdd} {p : LiveOrder → Bool} {q : Trade → Bool}
    {taken : List (LiveOrder × ℤ)} (h : ∀ x ∈ taken, q (x.1.tradeWith order x.2) = p x.1) :
    tradedVolume q (tradesWith order taken) = Stock.takenFrom p taken := by
  have hfilter : taken.filter (q ∘ fun x => x.1.tradeWith order x.2) =
      taken.filter fun x => p x.1 := List.filter_congr h
  rw [tradedVolume, tradesWith, List.filter_map, hfilter, List.map_map]
  rfl

/-- Trades told apart by their taker: all the trades of an add, or none. -/
lemma tradedVolume_eq_sum_taken {order : OrderAdd} {q : Trade → Bool} {b : Bool}
    (h : ∀ (o : LiveOrder) v, q (o.tradeWith order v) = b) (taken : List (LiveOrder × ℤ)) :
    tradedVolume q (tradesWith order taken) = if b then (taken.map Prod.snd).sum else 0 := by
  rw [tradedVolume_eq_takenFrom (p := fun _ => b) fun x _ => h x.1 x.2, Stock.takenFrom]
  cases b <;> simp

namespace MatchingEngine

/-- The volume resting in the orders of one kind. -/
def restingVolume (e : MatchingEngine) (p : LiveOrder → Bool) : ℤ :=
  LiveOrder.stock.total p e.orders

/-- The orders a cancel takes out of the book. -/
def erased (e : MatchingEngine) (cancel : OrderCancel) : List LiveOrder :=
  match e.orderIndex cancel.orderId with
  | none => []
  | some location =>
    if location.userId = cancel.userId then e.orders.filter (Erases cancel location) else []

lemma erased_of_not_accepts {e : MatchingEngine} {cancel : OrderCancel}
    (h : ∀ location, ¬ e.Accepts cancel location) : e.erased cancel = [] := by
  unfold erased
  cases hi : e.orderIndex cancel.orderId with
  | none => rfl
  | some location => exact if_neg fun hu => h location ⟨hi, hu⟩

lemma erased_of_accepts {e : MatchingEngine} {cancel : OrderCancel} {location : OrderLocation}
    (h : e.Accepts cancel location) :
    e.erased cancel = e.orders.filter (Erases cancel location) := by
  simp only [erased, h.1, if_pos h.2]

/-- A cancel takes out orders with its own id only. -/
lemma orderId_of_mem_erased {e : MatchingEngine} {cancel : OrderCancel} {o : LiveOrder}
    (h : o ∈ e.erased cancel) : o.orderId = cancel.orderId := by
  by_cases haccepts : ∃ location, e.Accepts cancel location
  · obtain ⟨location, haccepts⟩ := haccepts
    rw [erased_of_accepts haccepts, List.mem_filter] at h
    exact (of_decide_eq_true h.2).1
  · rw [erased_of_not_accepts fun location hl => haccepts ⟨location, hl⟩] at h
    simp at h

section Steps

variable [PriceSum] {e : MatchingEngine}

/-- The orders before a cancel are those after it and those it took out. -/
lemma orders_onOrderCancel_perm (e : MatchingEngine) (cancel : OrderCancel) :
    ((e.onOrderCancel cancel).orders ++ e.erased cancel).Perm e.orders := by
  by_cases h : ∃ location, e.Accepts cancel location
  · obtain ⟨location, h⟩ := h
    rw [erased_of_accepts h, orders_onOrderCancel h]
    refine List.perm_append_comm.trans ?_
    simpa only [decide_not] using
      List.filter_append_perm (fun o => decide (Erases cancel location o)) e.orders
  · have hnot : ∀ location, ¬ e.Accepts cancel location := fun location hl => h ⟨location, hl⟩
    rw [onOrderCancel_of_not_accepts hnot, erased_of_not_accepts hnot, List.append_nil]

/-- The orders that stood in the book before a cancel and do not afterwards. -/
def removed (e : MatchingEngine) (cancel : OrderCancel) : List LiveOrder :=
  e.orders.diff (e.onOrderCancel cancel).orders

/-- What is gone from the book after a cancel is what the cancel erased. -/
lemma removed_perm_erased (e : MatchingEngine) (cancel : OrderCancel) :
    (e.removed cancel).Perm (e.erased cancel) := by
  have hsplit := orders_onOrderCancel_perm e cancel
  have hdiff : ((e.onOrderCancel cancel).orders ++ e.removed cancel).Perm e.orders := by
    refine List.subperm_append_diff_self_of_count_le fun o _ => ?_
    rw [← hsplit.count_eq, List.count_append]
    omega
  exact (List.perm_append_left_iff _).mp (hdiff.trans hsplit.symm)

/-- What a cancel does to the volume resting in a kind of orders. -/
lemma restingVolume_onOrderCancel (e : MatchingEngine) (cancel : OrderCancel)
    (p : LiveOrder → Bool) :
    (e.onOrderCancel cancel).restingVolume p + LiveOrder.stock.total p (e.erased cancel) =
      e.restingVolume p := by
  unfold restingVolume
  rw [← Stock.total_append]
  exact Stock.total_perm (orders_onOrderCancel_perm e cancel) p

/-- What an add does to the volume resting in a kind of orders: trades take from it, and a
remainder of that kind adds to it. -/
lemma restingVolume_onOrderAdd (he : e.NoEmptyLevel) (order : OrderAdd) {p : LiveOrder → Bool}
    (hp : ∀ (o : LiveOrder) v, p { o with volume := v } = p o) :
    (e.onOrderAdd order).1.restingVolume p + Stock.takenFrom p (e.fill order).taken =
      e.restingVolume p + if 0 < (e.fill order).left ∧ p (LiveOrder.ofAdd order 0)
        then (e.fill order).left else 0 := by
  have hfill : LiveOrder.stock.total p (e.fill order).rest +
      Stock.takenFrom p (e.fill order).taken =
        LiveOrder.stock.total p (e.live order.side.opposite) :=
    Stock.total_rest_add_takenFrom (fun o v => hp o (o.volume - v)) _ _
  have hbefore : e.restingVolume p = LiveOrder.stock.total p (e.live order.side) +
      LiveOrder.stock.total p (e.live order.side.opposite) := by
    rw [restingVolume, Stock.total_perm (e.orders_perm order.side), Stock.total_append]
  have hsurviving : LiveOrder.stock.total p (e.surviving order) =
      LiveOrder.stock.total p (e.fill order).rest +
        LiveOrder.stock.total p (e.live order.side) := Stock.total_append p _ _
  have hnew : p (LiveOrder.ofAdd order (e.fill order).left) = p (LiveOrder.ofAdd order 0) :=
    hp (LiveOrder.ofAdd order 0) (e.fill order).left
  rw [restingVolume, Stock.total_perm (orders_onOrderAdd_perm he order)]
  by_cases hpos : 0 < (e.fill order).left
  · have hamount : LiveOrder.stock.amount (LiveOrder.ofAdd order (e.fill order).left) =
        (e.fill order).left := rfl
    rw [if_pos hpos, Stock.total_cons, hnew, hamount]
    simp only [hpos, true_and]
    omega
  · rw [if_neg hpos, if_neg fun h => hpos h.1]
    omega

/-! ## The account of one order id -/

/-- The volume that an add brings in under the id `i`. -/
def addedVolume (i : ℤ) : InboundCommand → ℤ
  | .add order => if order.orderId = i ∧ 0 < order.volume then order.volume else 0
  | .cancel _ => 0

/-- The volume that a cancel of `i` takes out of the book. -/
def cancelledVolume (i : ℤ) (e : MatchingEngine) : InboundCommand → ℤ
  | .add _ => 0
  | .cancel request =>
    if request.orderId = i then ((e.removed request).map fun o => o.volume).sum else 0

lemma ledger_onOrderAdd (he : e.Sound) (order : OrderAdd) (i : ℤ) :
    e.restingVolume (fun o => o.orderId = i) + addedVolume i (.add order) =
      tradedVolume (fun t => t.takerOrderId = i) (e.onOrderAdd order).2 +
        tradedVolume (fun t => t.makerOrderId = i) (e.onOrderAdd order).2 +
        (e.onOrderAdd order).1.restingVolume (fun o => o.orderId = i) := by
  have hbook := restingVolume_onOrderAdd he.noEmptyLevel order
    (p := fun o : LiveOrder => o.orderId = i) fun _ _ => rfl
  have hdemand : ((e.fill order).taken.map Prod.snd).sum + (e.fill order).left = order.volume :=
    Stock.sum_taken_add_left _ _
  rw [trades_onOrderAdd he.noEmptyLevel,
    tradedVolume_eq_sum_taken (b := decide (order.orderId = i)) fun _ _ => rfl,
    tradedVolume_eq_takenFrom (p := fun o : LiveOrder => o.orderId = i) fun _ _ => rfl]
  have hid : (LiveOrder.ofAdd order 0).orderId = order.orderId := rfl
  simp only [addedVolume, hid, decide_eq_true_eq] at hbook ⊢
  by_cases hvolume : 0 < order.volume
  · have hleft : 0 ≤ (e.fill order).left := Stock.left_nonneg hvolume.le
    split_ifs at hbook ⊢ <;> omega
  · -- nothing is traded and nothing rests
    have hfill : e.fill order = ⟨e.live order.side.opposite, order.volume, [], []⟩ :=
      fillAgainst_of_not_pos hvolume _
    simp only [hfill, hvolume, and_false, false_and, if_false, List.map_nil, List.sum_nil,
      ite_self] at hbook ⊢
    omega

lemma ledger_onOrderCancel (e : MatchingEngine) (cancel : OrderCancel) (i : ℤ) :
    e.restingVolume (fun o => o.orderId = i) =
      (e.onOrderCancel cancel).restingVolume (fun o => o.orderId = i) +
        e.cancelledVolume i (.cancel cancel) := by
  have hbook := restingVolume_onOrderCancel e cancel fun o => o.orderId = i
  have herased : LiveOrder.stock.total (fun o => o.orderId = i) (e.erased cancel) =
      e.cancelledVolume i (.cancel cancel) := by
    rw [Stock.total, cancelledVolume]
    split_ifs with hid
    · -- all that is taken out has the id of the cancel
      rw [List.filter_eq_self.mpr fun o ho => ?_]
      · exact ((removed_perm_erased e cancel).map _).sum_eq.symm
      · rw [decide_eq_true_iff, orderId_of_mem_erased ho, hid]
    · rw [List.filter_eq_nil_iff.mpr fun o ho => ?_]
      · rfl
      · rw [decide_eq_true_iff, orderId_of_mem_erased ho]
        exact hid
  omega

/-- The account of one command. -/
theorem ledger_step (he : e.Sound) (cmd : InboundCommand) (i : ℤ) :
    e.restingVolume (fun o => o.orderId = i) + addedVolume i cmd =
      tradedVolume (fun t => t.takerOrderId = i) (e.step cmd).2 +
        tradedVolume (fun t => t.makerOrderId = i) (e.step cmd).2 +
        (e.step cmd).1.restingVolume (fun o => o.orderId = i) + e.cancelledVolume i cmd := by
  cases cmd with
  | add order => simpa [step, cancelledVolume] using ledger_onOrderAdd he order i
  | cancel request => simpa [step, addedVolume] using ledger_onOrderCancel e request i

/-- The account of a run from any sound state. -/
theorem ledger_run (he : e.Sound) (cmds : List InboundCommand) (i : ℤ) :
    e.restingVolume (fun o => o.orderId = i) + (cmds.map (addedVolume i)).sum =
      tradedVolume (fun t => t.takerOrderId = i) (Mealy.run step e cmds).2 +
        tradedVolume (fun t => t.makerOrderId = i) (Mealy.run step e cmds).2 +
        (Mealy.run step e cmds).1.restingVolume (fun o => o.orderId = i) +
        Mealy.tally step (cancelledVolume i) e cmds := by
  induction cmds generalizing e with
  | nil => simp
  | cons cmd cmds ih =>
    have hstep := ledger_step he cmd i
    have hrest := ih (sound_step he cmd)
    rw [Mealy.run_cons_snd, Mealy.run_cons_fst, Mealy.tally_cons, tradedVolume_append,
      tradedVolume_append, List.map_cons, List.sum_cons]
    omega

/-- **Volume is conserved over whole runs.**  For every sequence of commands and every order id,
the positive volumes added under the id are the volumes traded under it as taker and as maker,
the volume still resting under it and the volume that cancels of it took out.  An add without
positive volume leaves the book as it is. -/
theorem ledger (cmds : List InboundCommand) :
    (∀ i, (cmds.map (addedVolume i)).sum =
      tradedVolume (fun t => t.takerOrderId = i) (tradesOf cmds) +
        tradedVolume (fun t => t.makerOrderId = i) (tradesOf cmds) +
        (after cmds).restingVolume (fun o => o.orderId = i) +
        Mealy.tally step (cancelledVolume i) empty cmds) ∧
      ∀ order : OrderAdd, order.volume ≤ 0 →
        (∀ i, addedVolume i (.add order) = 0) ∧
        ((after cmds).onOrderAdd order).1.bids = (after cmds).bids ∧
        ((after cmds).onOrderAdd order).1.asks = (after cmds).asks ∧
        ((after cmds).onOrderAdd order).2 = [] := by
  constructor
  · intro i
    have hrun := ledger_run sound_empty cmds i
    have hempty : empty.restingVolume (fun o => o.orderId = i) = 0 := rfl
    rw [hempty, zero_add] at hrun
    exact hrun
  · intro order hvolume
    have hlevels := levels_onOrderAdd_of_not_pos (e := after cmds) hvolume.not_gt
    refine ⟨fun i => ?_, FlatMap.ext (hlevels .buy), FlatMap.ext (hlevels .sell), ?_⟩
    · rw [addedVolume, if_neg fun h => absurd h.2 hvolume.not_gt]
    · rw [onOrderAdd_trades, matchOpposite_of_not_pos hvolume.not_gt]

end Steps

end MatchingEngine

end ToyExchange
