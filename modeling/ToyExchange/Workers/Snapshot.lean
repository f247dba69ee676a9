import ToyExchange.Engine.Accounting
import ToyExchange.Workers.Fills
import ToyExchange.Workers.Shutdown

/-!
# The snapshot of the accounts

The last thing the exchange does is to write one row for each user and ticker that ever traded.  The
users come in the order of their ids; within a user, the order is that in which the hash map is
iterated, of which nothing is assumed (`Iterates`).

Except for the unrealized profit, which depends on when the mid price was read, a holding is decided
by the fills of its user and ticker.  `Keeps` says this of a registry and the fills made so far, and
`keeps_settleAll` of every sequence of settlements.  So the rows are those of the trades settled
(`snapshot_rows`), and two runs that do all the work for the same commands write the same rows but
for the unrealized profit (`snapshot_ignores_interleaving`).
-/

namespace ToyExchange

/-! ## Accounts without the unrealized profit -/

namespace Holding

/-- The holding but for its unrealized profit. -/
def booked (h : Holding) : Holding := { h with unrealizedPnl := 0 }

/-- A fill does not look at the unrealized profit. -/
lemma booked_applyFill (h : Holding) (side : Side) (execPrice tradeVolume : ℤ) :
    (h.applyFill side execPrice tradeVolume).booked =
      h.booked.applyFill side execPrice tradeVolume := by
  unfold applyFill booked rolledCost closedPnl
  dsimp only
  split_ifs <;> rfl

end Holding

/-- What the call brings to the holding. -/
def Fill.execution (f : Fill) : Execution := ⟨f.side, f.execPrice, f.tradeVolume⟩

/-- The fills of a user in a ticker. -/
def fillsAt (user : Fin marketParticipantCount) (ticker : Ticker) (fills : List Fill) :
    List Execution :=
  (fills.filter fun f => f.user = user ∧ f.ticker = ticker).map Fill.execution

/-- The account after fills, nothing if there were none. -/
def account (fills : List Execution) : Option Holding :=
  if fills = [] then none else some (holdingAfter fills)

lemma account_concat (fills : List Execution) (x : Execution) :
    account (fills ++ [x]) =
      some (((account fills).getD {}).applyFill x.side x.execPrice x.tradeVolume) := by
  have hbefore : (account fills).getD {} = holdingAfter fills := by
    unfold account
    split_ifs with hnil
    · rw [hnil]
      rfl
    · rfl
  rw [hbefore, account, if_neg (List.append_ne_nil_of_right_ne_nil _ (List.cons_ne_nil _ _))]
  exact congrArg some (Holding.applyFills_append _ fills [x])

lemma fillsAt_concat (user : Fin marketParticipantCount) (ticker : Ticker) (fills : List Fill)
    (f : Fill) :
    fillsAt user ticker (fills ++ [f]) = fillsAt user ticker fills ++
      if f.user = user ∧ f.ticker = ticker then [f.execution] else [] := by
  unfold fillsAt
  rw [List.filter_append, List.map_append]
  split_ifs with hf <;> simp [hf]

/-! ## The registry keeps the accounts -/

namespace UserRegistry

/-- But for the unrealized profit, the holdings are the accounts after the fills. -/
structure Keeps (r : UserRegistry) (fills : List Fill) : Prop where
  id : ∀ user, (r.users user).id = (user : ℕ)
  holding : ∀ user ticker,
    ((r.users user).inventory ticker).map Holding.booked = account (fillsAt user ticker fills)

lemma keeps_fresh : fresh.Keeps [] where
  id _ := rfl
  holding _ _ := rfl

/-- A fill is added to the account it is for. -/
lemma Keeps.applyFill {r : UserRegistry} {fills : List Fill} (h : r.Keeps fills) (f : Fill) :
    (r.applyFill f).Keeps (fills ++ [f]) where
  id user := by
    unfold UserRegistry.applyFill
    rw [users_modify]
    split_ifs
    · exact h.id user
    · exact h.id user
  holding user ticker := by
    unfold UserRegistry.applyFill
    rw [users_modify, fillsAt_concat]
    have hkept := h.holding user ticker
    by_cases huser : user = f.user
    · by_cases hticker : ticker = f.ticker
      · have hholding : ((r.users user).holding ticker).booked =
            (account (fillsAt user ticker fills)).getD {} := by
          rw [← hkept, User.holding]
          rcases (r.users user).inventory ticker with _ | holding <;> rfl
        rw [if_pos huser, if_pos ⟨huser.symm, hticker.symm⟩, account_concat, ← hholding]
        subst hticker
        simp only [User.applyFill, Function.update_self, Option.map_some, Holding.booked_applyFill,
          Fill.execution]
      · rw [if_pos huser, if_neg fun hf => hticker hf.2.symm, List.append_nil, ← hkept]
        simp only [User.applyFill, Function.update_of_ne hticker]
    · rw [if_neg huser, if_neg fun hf => huser hf.1.symm, List.append_nil]
      exact hkept

lemma Keeps.foldl {r : UserRegistry} {fills : List Fill} (h : r.Keeps fills) (more : List Fill) :
    (more.foldl UserRegistry.applyFill r).Keeps (fills ++ more) := by
  induction more generalizing r fills with
  | nil => rwa [List.append_nil]
  | cons f more ih =>
    rw [List.foldl_cons, ← List.singleton_append, ← List.append_assoc]
    exact ih (h.applyFill f)

/-- Marking a holding to market leaves the account alone. -/
lemma Keeps.refresh {r : UserRegistry} {fills : List Fill} (h : r.Keeps fills)
    (user : Fin marketParticipantCount) (ticker : Ticker) (mid : ℤ) :
    (r.modify user fun u => u.refreshUnrealizedPnl ticker mid).Keeps fills := by
  have hrefresh : ∀ u : User, (u.refreshUnrealizedPnl ticker mid).id = u.id ∧
      ∀ t, ((u.refreshUnrealizedPnl ticker mid).inventory t).map Holding.booked =
        (u.inventory t).map Holding.booked := by
    intro u
    unfold User.refreshUnrealizedPnl
    rcases hinventory : u.inventory ticker with _ | holding
    · exact ⟨rfl, fun _ => rfl⟩
    · refine ⟨rfl, fun t => ?_⟩
      by_cases ht : t = ticker
      · subst ht
        simp only [Function.update_self, hinventory]
        rfl
      · simp only [Function.update_of_ne ht]
  constructor
  · intro i
    rw [users_modify]
    split_ifs
    · exact (hrefresh _).1.trans (h.id i)
    · exact h.id i
  · intro i t
    rw [users_modify]
    split_ifs
    · exact ((hrefresh _).2 t).trans (h.holding i t)
    · exact h.holding i t

lemma Keeps.markToMarket {r : UserRegistry} {fills : List Fill} (h : r.Keeps fills)
    (maker taker : Fin marketParticipantCount) (ticker : Ticker) (mid : Option ℤ) :
    (r.markToMarket maker taker ticker mid).Keeps fills := by
  rcases mid with _ | mid
  · exact h
  · exact (h.refresh maker ticker mid).refresh taker ticker mid

/-- After trades that do not throw, the registry keeps the accounts of their fills. -/
theorem keeps_settleAll {settled : List (Trade × Option ℤ)}
    (h : ∀ x ∈ settled, ∀ r : UserRegistry, (r.settle x.1 x.2).threw = false) :
    (fresh.settleAll settled).Keeps ((settled.map Prod.fst).flatMap Trade.fills) := by
  induction settled using List.reverseRecOn with
  | nil => exact keeps_fresh
  | append_singleton settled x ih =>
    have hbefore : ∀ y ∈ settled, ∀ r : UserRegistry, (r.settle y.1 y.2).threw = false :=
      fun y hy => h y (List.mem_append_left _ hy)
    have hlast := h x (List.mem_append_right _ (List.mem_singleton_self _))
    rw [settleAll_concat hbefore]
    obtain ⟨maker, taker, -, -, hregistry⟩ := settle_eq_fills (hlast (fresh.settleAll settled))
    rw [hregistry, List.map_append, List.flatMap_append, List.map_singleton,
      List.flatMap_singleton]
    exact ((ih hbefore).foldl x.1.fills).markToMarket maker taker x.1.ticker x.2

end UserRegistry

/-! ## The rows -/

/-- A row of the snapshot. -/
structure SnapshotRow where
  userId : ℤ
  ticker : Ticker
  position : ℤ
  avgCost : ℚ
  realizedPnl : ℚ
  unrealizedPnl : ℚ

namespace SnapshotRow

/-- The row of a holding. -/
def ofHolding (userId : ℤ) (ticker : Ticker) (holding : Holding) : SnapshotRow :=
  ⟨userId, ticker, holding.volume, holding.avgCost, holding.realizedPnl, holding.unrealizedPnl⟩

/-- The row but for the unrealized profit. -/
def booked (row : SnapshotRow) : SnapshotRow := { row with unrealizedPnl := 0 }

/-- The rows are in the order of the users, and those of one user have different tickers. -/
def Precedes (row row' : SnapshotRow) : Prop :=
  row.userId < row'.userId ∨ row.userId = row'.userId ∧ row.ticker ≠ row'.ticker

lemma booked_ofHolding (userId : ℤ) (ticker : Ticker) (holding : Holding) :
    (ofHolding userId ticker holding).booked = ofHolding userId ticker holding.booked := rfl

end SnapshotRow

namespace UserRegistry

/-- The rows that `WriteSnapshot` writes, if the hash map of each user is iterated in the given
order. -/
def writeSnapshot (r : UserRegistry) (iteration : Fin marketParticipantCount → List Ticker) :
    List SnapshotRow :=
  (List.finRange marketParticipantCount).flatMap fun i =>
    (iteration i).filterMap fun ticker =>
      ((r.users i).inventory ticker).map (SnapshotRow.ofHolding (r.users i).id ticker)

/-- An order in which the hash maps may be iterated: every ticker in them comes once. -/
structure Iterates (r : UserRegistry) (iteration : Fin marketParticipantCount → List Ticker) :
    Prop where
  nodup : ∀ i, (iteration i).Nodup
  mem_iff : ∀ i ticker, ticker ∈ iteration i ↔ (r.users i).inventory ticker ≠ none

variable {r : UserRegistry} {iteration : Fin marketParticipantCount → List Ticker}
  {fills : List Fill}

/-- There is a row for each holding. -/
lemma mem_writeSnapshot (h : r.Iterates iteration) {row : SnapshotRow} :
    row ∈ r.writeSnapshot iteration ↔
      ∃ i ticker holding, (r.users i).inventory ticker = some holding ∧
        SnapshotRow.ofHolding (r.users i).id ticker holding = row := by
  unfold writeSnapshot
  constructor
  · intro hrow
    obtain ⟨i, -, hrow⟩ := List.mem_flatMap.mp hrow
    obtain ⟨ticker, -, hrow⟩ := List.mem_filterMap.mp hrow
    obtain ⟨holding, hholding, hrow⟩ := Option.map_eq_some_iff.mp hrow
    exact ⟨i, ticker, holding, hholding, hrow⟩
  · rintro ⟨i, ticker, holding, hholding, hrow⟩
    refine List.mem_flatMap.mpr ⟨i, List.mem_finRange i, List.mem_filterMap.mpr ⟨ticker, ?_, ?_⟩⟩
    · rw [h.mem_iff, hholding]
      exact Option.some_ne_none holding
    · rw [hholding]
      exact congrArg some hrow

/-- The rows are written in the order of the users, and one for each ticker. -/
lemma pairwise_writeSnapshot (hid : ∀ user, (r.users user).id = (user : ℕ))
    (h : r.Iterates iteration) :
    (r.writeSnapshot iteration).Pairwise SnapshotRow.Precedes := by
  have hrow : ∀ {i : Fin marketParticipantCount} {ticker : Ticker} {row : SnapshotRow},
      ((r.users i).inventory ticker).map (SnapshotRow.ofHolding (r.users i).id ticker) =
        some row → row.userId = (i : ℕ) ∧ row.ticker = ticker := by
    intro i ticker row hrow
    obtain ⟨holding, -, rfl⟩ := Option.map_eq_some_iff.mp hrow
    exact ⟨hid i, rfl⟩
  unfold writeSnapshot
  rw [List.pairwise_flatMap]
  constructor
  · intro i _
    rw [List.pairwise_filterMap]
    refine (h.nodup i).imp fun {ticker ticker'} hne row hr row' hr' => .inr ?_
    rw [(hrow hr).1, (hrow hr').1, (hrow hr).2, (hrow hr').2]
    exact ⟨rfl, hne⟩
  · refine (List.pairwise_lt_finRange _).imp fun {i j} hlt row hr row' hr' => .inl ?_
    obtain ⟨ticker, -, hr⟩ := List.mem_filterMap.mp hr
    obtain ⟨ticker', -, hr'⟩ := List.mem_filterMap.mp hr'
    rw [(hrow hr).1, (hrow hr').1]
    exact_mod_cast hlt

/-- But for the unrealized profit, the rows are those of the accounts after the fills. -/
lemma mem_booked_writeSnapshot (hkeeps : r.Keeps fills) (h : r.Iterates iteration)
    {row : SnapshotRow} :
    row ∈ (r.writeSnapshot iteration).map SnapshotRow.booked ↔
      ∃ (i : Fin marketParticipantCount) (ticker : Ticker), fillsAt i ticker fills ≠ [] ∧
        SnapshotRow.ofHolding (i : ℕ) ticker (holdingAfter (fillsAt i ticker fills)) = row := by
  have haccount : ∀ i ticker holding, (r.users i).inventory ticker = some holding →
      fillsAt i ticker fills ≠ [] ∧ holding.booked = holdingAfter (fillsAt i ticker fills) := by
    intro i ticker holding hholding
    have hkept := hkeeps.holding i ticker
    rw [hholding, account] at hkept
    split_ifs at hkept with hnil
    · cases hkept
    · exact ⟨hnil, Option.some.inj hkept⟩
  constructor
  · intro hrow
    obtain ⟨row, hmem, rfl⟩ := List.mem_map.mp hrow
    obtain ⟨i, ticker, holding, hholding, rfl⟩ := (mem_writeSnapshot h).mp hmem
    obtain ⟨hne, hbooked⟩ := haccount i ticker holding hholding
    refine ⟨i, ticker, hne, ?_⟩
    rw [SnapshotRow.booked_ofHolding, hbooked, hkeeps.id]
  · rintro ⟨i, ticker, hne, rfl⟩
    have hkept := hkeeps.holding i ticker
    rw [account, if_neg hne] at hkept
    obtain ⟨holding, hholding, hbooked⟩ := Option.map_eq_some_iff.mp hkept
    refine List.mem_map.mpr ⟨_, (mem_writeSnapshot h).mpr ⟨i, ticker, holding, hholding, rfl⟩, ?_⟩
    rw [SnapshotRow.booked_ofHolding, hbooked, hkeeps.id]

/-- A sum over the rows of a ticker is one over the users. -/
lemma sum_writeSnapshot {G : Type*} [AddCommMonoid G] {F : Holding → G} {g : SnapshotRow → G}
    (hg : ∀ userId ticker holding, g (SnapshotRow.ofHolding userId ticker holding) = F holding)
    (hempty : F {} = 0) (h : r.Iterates iteration) (ticker : Ticker) :
    (((r.writeSnapshot iteration).filter fun row => row.ticker = ticker).map g).sum =
      ∑ i, F ((r.users i).holding ticker) := by
  have huser : ∀ i, ((((iteration i).filterMap fun t => ((r.users i).inventory t).map
      (SnapshotRow.ofHolding (r.users i).id t)).filter fun row => row.ticker = ticker).map g).sum =
        F ((r.users i).holding ticker) := by
    intro i
    have hrows : ((iteration i).filterMap fun t => ((r.users i).inventory t).map
        (SnapshotRow.ofHolding (r.users i).id t)).filter (fun row => row.ticker = ticker) =
          ((iteration i).filter fun t => t = ticker).filterMap fun t =>
            ((r.users i).inventory t).map (SnapshotRow.ofHolding (r.users i).id t) := by
      rw [List.filter_filterMap, List.filterMap_filter]
      refine List.filterMap_congr fun t _ => ?_
      rcases (r.users i).inventory t with _ | holding
      · simp
      · by_cases ht : t = ticker <;> simp [SnapshotRow.ofHolding, ht, Option.filter]
    rw [hrows, List.filter_eq, (h.nodup i).count]
    rcases hholding : (r.users i).inventory ticker with _ | holding
    · have hnot : ticker ∉ iteration i := by
        rw [h.mem_iff, hholding]
        exact fun hne => hne rfl
      rw [if_neg hnot, User.holding, hholding]
      exact hempty.symm
    · have hmem : ticker ∈ iteration i := by
        rw [h.mem_iff, hholding]
        exact Option.some_ne_none holding
      rw [if_pos hmem, User.holding, hholding]
      simp [hholding, hg]
  unfold writeSnapshot
  rw [List.filter_flatMap, List.map_flatMap, List.flatMap_def, List.sum_flatten, List.map_map,
    Fin.sum_univ_def]
  exact congrArg List.sum (List.map_congr_left fun i _ => huser i)

/-- The tickers that each user has traded. -/
def touched (fills : List Fill) (user : Fin marketParticipantCount) : List Ticker :=
  ((fills.filter fun f => f.user = user).map Fill.ticker).dedup

/-- They are an order in which the hash maps may be iterated. -/
lemma Keeps.iterates_touched (h : r.Keeps fills) : r.Iterates (touched fills) where
  nodup _ := List.nodup_dedup _
  mem_iff user ticker := by
    have hkept := h.holding user ticker
    have hfills : ticker ∈ touched fills user ↔ fillsAt user ticker fills ≠ [] := by
      unfold touched fillsAt
      rw [List.mem_dedup, ne_eq, List.map_eq_nil_iff, List.filter_eq_nil_iff]
      simp [and_assoc]
    rw [hfills, ne_eq, ne_eq, not_iff_not]
    unfold account at hkept
    split_ifs at hkept with hnil
    · exact iff_of_true hnil (Option.map_eq_none_iff.mp hkept)
    · refine iff_of_false hnil fun hnone => ?_
      rw [hnone] at hkept
      cases hkept

end UserRegistry

/-! ## Runs -/

namespace State

section Runs

variable [PriceSum] {c : Capacities}

/-- The calls of `ApplyFill` so far. -/
def fillsMade (s : State c) : List Fill := (s.settled.map Prod.fst).flatMap Trade.fills

omit [PriceSum] in
lemma Accounted.keeps {s : State c} (h : s.Accounted) : s.registry.Keeps s.fillsMade := by
  rw [h.registry]
  exact UserRegistry.keeps_settleAll h.accepted

/-- No empty trade is settled. -/
lemma volume_pos_of_mem_settled (actions : List Action) :
    ∀ x ∈ (after c actions).settled, 0 < x.1.volume := by
  intro x hx
  have horder := inOrder_after c actions
  apply MatchingEngineRouter.volume_pos_of_mem_tradesOf (after c actions).inbound.popped
  rw [← horder.trades, (after c actions).trades.history, ← horder.settling]
  simp only [List.append_assoc]
  exact List.mem_append_left _ (List.mem_map_of_mem hx)

/-- The registry is zero-sum at every point of every interleaving. -/
lemma zeroSum_after (actions : List Action) : (after c actions).registry.ZeroSum := by
  rw [(accounted_after actions).registry]
  exact UserRegistry.zeroSum_settleAll UserRegistry.zeroSum_fresh
    (volume_pos_of_mem_settled actions)

/-- **The rows of the snapshot.**  At any point of any interleaving, in whatever order the hash maps
are iterated, `WriteSnapshot` writes:

* the rows in the order of the user ids, and for each user one row for each ticker;
* but for the unrealized profit, exactly the rows of the users and tickers that took part in the
  settled trades, each with the position, average cost and realized profit that the average-cost
  method gives for its own fills in their order;
* for each ticker, positions that add up to zero, and realized profits that add up to the cost of
  the open positions. -/
theorem snapshot_rows (actions : List Action)
    {iteration : Fin marketParticipantCount → List Ticker}
    (h : (after c actions).registry.Iterates iteration) :
    ((after c actions).registry.writeSnapshot iteration).Pairwise SnapshotRow.Precedes ∧
    (∀ row, row ∈ ((after c actions).registry.writeSnapshot iteration).map SnapshotRow.booked ↔
      ∃ (i : Fin marketParticipantCount) (ticker : Ticker),
        fillsAt i ticker (after c actions).fillsMade ≠ [] ∧
        SnapshotRow.ofHolding (i : ℕ) ticker
          (holdingAfter (fillsAt i ticker (after c actions).fillsMade)) = row) ∧
    ∀ ticker,
      ((((after c actions).registry.writeSnapshot iteration).filter fun row =>
        row.ticker = ticker).map SnapshotRow.position).sum = 0 ∧
      ((((after c actions).registry.writeSnapshot iteration).filter fun row =>
        row.ticker = ticker).map fun row =>
          row.realizedPnl - (row.position : ℚ) * row.avgCost).sum = 0 := by
  have hkeeps := (accounted_after (c := c) actions).keeps
  have hzero := zeroSum_after (c := c) actions
  refine ⟨UserRegistry.pairwise_writeSnapshot hkeeps.id h,
    fun row => UserRegistry.mem_booked_writeSnapshot hkeeps h, fun ticker => ⟨?_, ?_⟩⟩
  · rw [UserRegistry.sum_writeSnapshot (F := Holding.volume) (fun _ _ _ => rfl) rfl h ticker]
    refine (Finset.sum_congr rfl fun i _ => ?_).trans (hzero.position ticker)
    exact (User.position_eq_volume _ _).symm
  · have hempty : ({} : Holding).worth 0 = 0 := by simp [Holding.worth]
    rw [UserRegistry.sum_writeSnapshot (F := fun holding => holding.worth 0) ?_ hempty h ticker]
    · exact hzero.worth ticker 0
    · intro userId ticker holding
      simp only [SnapshotRow.ofHolding, Holding.worth]
      ring

end Runs

/-- Two users trade, the workers do their part, and the exchange is shut down. -/
def oneTrade (workers : List Action) : List Action :=
  List.flatten [
    [.gateway none, .gateway (some (.add ⟨1, 1, .aapl, .sell, 100, 10⟩)), .gateway none,
      .gateway (some (.add ⟨2, 2, .aapl, .buy, 100, 4⟩)), .gateway none],
    List.replicate 12 .matching, workers,
    [.signal, .main, .main, .gateway none, .gateway none, .main, .main, .matching, .matching,
      .main, .main, .inventory, .inventory, .marketData true, .marketData true, .main, .main]]

/-- The positions of the two users add up to zero. -/
theorem snapshot_rows_of_one_trade :
    let s := @after PriceSum.int64 .exchange
      (oneTrade (List.replicate 6 (.marketData true) ++ [.inventory, .inventory]))
    s.mainThread = .writeSnapshot ∧
    (s.registry.writeSnapshot (UserRegistry.touched s.fillsMade)).map SnapshotRow.position =
      [-4, 4] ∧
    (((s.registry.writeSnapshot (UserRegistry.touched s.fillsMade)).filter fun row =>
      row.ticker = .aapl).map SnapshotRow.position).sum = 0 := by
  intro s
  exact ⟨by decide +kernel, by decide +kernel,
    ((@snapshot_rows PriceSum.int64 .exchange (oneTrade _) _
      (@accounted_after .exchange PriceSum.int64 (oneTrade _)).keeps.iterates_touched).2.2
        .aapl).1⟩

/-- Rows that precede each other differ, also without the unrealized profit. -/
lemma nodup_booked {rows : List SnapshotRow} (h : rows.Pairwise SnapshotRow.Precedes) :
    (rows.map SnapshotRow.booked).Nodup := by
  refine List.pairwise_map.mpr (h.imp fun {row row'} hprecedes heq => ?_)
  have hid : row.booked.userId = row'.booked.userId := by rw [heq]
  have hticker : row.booked.ticker = row'.booked.ticker := by rw [heq]
  rcases hprecedes with hlt | ⟨-, hne⟩
  · exact absurd hid hlt.ne
  · exact hne hticker

/-- **The snapshot does not depend on the interleaving.**  Take two runs, with queues of whatever
capacities, in which the gateway has pushed the same commands and all work was done.  In whatever
orders the hash maps are iterated, the two snapshots have the same rows but for the unrealized
profit. -/
theorem snapshot_ignores_interleaving [PriceSum] {c c' : Capacities}
    {actions actions' : List Action}
    (hdrained : (after c actions).Drained) (hdrained' : (after c' actions').Drained)
    (hsame : (after c actions).inbound.pushed = (after c' actions').inbound.pushed)
    {iteration iteration' : Fin marketParticipantCount → List Ticker}
    (h : (after c actions).registry.Iterates iteration)
    (h' : (after c' actions').registry.Iterates iteration') :
    (((after c actions).registry.writeSnapshot iteration).map SnapshotRow.booked).Perm
      (((after c' actions').registry.writeSnapshot iteration').map SnapshotRow.booked) := by
  have hkeeps := (accounted_after (c := c) actions).keeps
  have hkeeps' := (accounted_after (c := c') actions').keeps
  have hfills : (after c actions).fillsMade = (after c' actions').fillsMade := by
    unfold fillsMade
    rw [hdrained.settled.1, hdrained'.settled.1, hsame]
  rw [← hfills] at hkeeps'
  refine (List.perm_ext_iff_of_nodup ?_ ?_).mpr fun row => ?_
  · exact nodup_booked (UserRegistry.pairwise_writeSnapshot hkeeps.id h)
  · exact nodup_booked (UserRegistry.pairwise_writeSnapshot hkeeps'.id h')
  · rw [UserRegistry.mem_booked_writeSnapshot hkeeps h,
      UserRegistry.mem_booked_writeSnapshot hkeeps' h']

/-- The same trade, settled after or before the market data is sent. -/
theorem snapshot_ignores_order_of_workers :
    let s := @after PriceSum.int64 .exchange
      (oneTrade (List.replicate 6 (.marketData true) ++ [.inventory, .inventory]))
    let s' := @after PriceSum.int64 .exchange
      (oneTrade ([.inventory, .inventory] ++ List.replicate 6 (.marketData false)))
    ((s.registry.writeSnapshot (UserRegistry.touched s.fillsMade)).map SnapshotRow.booked).Perm
      ((s'.registry.writeSnapshot (UserRegistry.touched s'.fillsMade)).map
        SnapshotRow.booked) := by
  intro s s'
  have hdrained : ∀ actions, (@after PriceSum.int64 .exchange actions).matchingThread = .finished →
      (@after PriceSum.int64 .exchange actions).inventoryThread = .finished →
      (@after PriceSum.int64 .exchange actions).inbound.items = [] →
      (@after PriceSum.int64 .exchange actions).trades.items = [] →
      (@after PriceSum.int64 .exchange actions).marketData.items = [] →
      @Drained _ PriceSum.int64 (@after PriceSum.int64 .exchange actions) := fun actions =>
    @drained_of_empty _ PriceSum.int64 _ (@inOrder_after PriceSum.int64 .exchange actions)
      (@accounted_after .exchange PriceSum.int64 actions)
  refine @snapshot_ignores_interleaving PriceSum.int64 .exchange .exchange (oneTrade _) (oneTrade _)
    (hdrained _ ?_ ?_ ?_ ?_ ?_) (hdrained _ ?_ ?_ ?_ ?_ ?_) (by decide +kernel) _ _
    (@accounted_after .exchange PriceSum.int64 (oneTrade _)).keeps.iterates_touched
    (@accounted_after .exchange PriceSum.int64 (oneTrade _)).keeps.iterates_touched
  all_goals decide +kernel

end State

end ToyExchange
