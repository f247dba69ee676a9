import ToyExchange.Engine.Router

/-!
# The instruments do not see each other

The router is a product of engines.  The engine of each instrument moves as a standalone engine
that is given only the commands for its ticker, and its trades are exactly those of the router's
trades that carry the ticker (`engine_alone`).  Since the ticker of a trade is that of the command
that causes it, commands for different tickers may be exchanged: `router_is_product` adds this and
the fate of unlisted tickers.
-/

namespace ToyExchange

/-- The command is routed by the given ticker. -/
def InboundCommand.isFor (ticker : Ticker) (cmd : InboundCommand) : Bool := cmd.ticker = ticker

/-- The trade is one of the given ticker. -/
def Trade.isFor (ticker : Ticker) (t : Trade) : Bool := t.ticker = ticker

namespace MatchingEngine

variable [PriceSum]

/-- A trade carries the ticker of the command that causes it. -/
lemma ticker_of_mem_step {e : MatchingEngine} {cmd : InboundCommand} {t : Trade}
    (h : t ∈ (e.step cmd).2) : t.ticker = cmd.ticker := by
  cases cmd with
  | add order =>
    obtain ⟨price, resting, traded, rfl⟩ := exists_tradeWith_of_mem_onOrderAdd h
    rfl
  | cancel request => cases h

end MatchingEngine

namespace MatchingEngineRouter

variable [PriceSum]

/-- A trade of the router carries the ticker of the command that causes it, which is listed. -/
lemma ticker_of_mem_step {r : MatchingEngineRouter} {cmd : InboundCommand} {t : Trade}
    (h : t ∈ (r.step cmd).2) : t.ticker = cmd.ticker ∧ t.ticker ∈ instruments := by
  cases hplace : place cmd.ticker with
  | none =>
    rw [step_of_unlisted r cmd hplace] at h
    cases h
  | some i =>
    rw [step_of_place r cmd hplace] at h
    have hticker := MatchingEngine.ticker_of_mem_step h
    exact ⟨hticker, hticker ▸ exists_place_iff.mp ⟨i, hplace⟩⟩

/-- A command for the ticker of an engine is a step of that engine, and all its trades carry the
ticker. -/
lemma engine_step_of_isFor {i : Fin instruments.length} (r : MatchingEngineRouter)
    (cmd : InboundCommand) (h : cmd.isFor (tickerAt i) = true) :
    (r.step cmd).1.engines i = (MatchingEngine.step (r.engines i) cmd).1 ∧
      (r.step cmd).2.filter (Trade.isFor (tickerAt i)) =
        (MatchingEngine.step (r.engines i) cmd).2 := by
  have hticker : cmd.ticker = tickerAt i := of_decide_eq_true h
  rw [step_of_place r cmd (place_eq_some.mpr hticker.symm)]
  refine ⟨engines_set_self r i _, List.filter_eq_self.mpr fun t ht => ?_⟩
  exact decide_eq_true ((MatchingEngine.ticker_of_mem_step ht).trans hticker)

/-- A command for another ticker leaves an engine alone, and none of its trades carries the
engine's ticker. -/
lemma engine_step_of_not_isFor {i : Fin instruments.length} (r : MatchingEngineRouter)
    (cmd : InboundCommand) (h : cmd.isFor (tickerAt i) = false) :
    (r.step cmd).1.engines i = r.engines i ∧
      (r.step cmd).2.filter (Trade.isFor (tickerAt i)) = [] := by
  have hticker : cmd.ticker ≠ tickerAt i := of_decide_eq_false h
  constructor
  · cases hplace : place cmd.ticker with
    | none => rw [step_of_unlisted r cmd hplace]
    | some j =>
      have hij : i ≠ j := by
        rintro rfl
        exact hticker (place_eq_some.mp hplace).symm
      rw [step_of_place r cmd hplace]
      exact engines_set_of_ne r hij _
  · refine List.filter_eq_nil_iff.mpr fun t ht hfor => hticker ?_
    rw [← (ticker_of_mem_step ht).1]
    exact of_decide_eq_true hfor

/-- In every run an engine and its trades are those of a standalone engine that is given only the
commands for its ticker. -/
theorem engine_alone (cmds : List InboundCommand) (i : Fin instruments.length) :
    (after cmds).engines i =
        MatchingEngine.after (cmds.filter (InboundCommand.isFor (tickerAt i))) ∧
      (tradesOf cmds).filter (Trade.isFor (tickerAt i)) =
        MatchingEngine.tradesOf (cmds.filter (InboundCommand.isFor (tickerAt i))) :=
  Mealy.run_project (fun r : MatchingEngineRouter => r.engines i) engine_step_of_isFor
    engine_step_of_not_isFor empty cmds

omit [PriceSum] in
/-- Commands for different tickers are not both for one. -/
lemma filter_isFor_swap {a b : InboundCommand} (h : a.ticker ≠ b.ticker) (ticker : Ticker)
    (pre post : List InboundCommand) :
    (pre ++ a :: b :: post).filter (InboundCommand.isFor ticker) =
      (pre ++ b :: a :: post).filter (InboundCommand.isFor ticker) := by
  rw [List.filter_append, List.filter_append]
  congr 1
  by_cases ha : a.ticker = ticker
  · have hb : b.ticker ≠ ticker := fun hb => h (ha.trans hb.symm)
    simp [InboundCommand.isFor, List.filter_cons, hb]
  · simp [InboundCommand.isFor, List.filter_cons, ha]

omit [PriceSum] in
/-- A router is its engines. -/
lemma ext_engines {r r' : MatchingEngineRouter} (h : ∀ i, r.engines i = r'.engines i) : r = r' := by
  obtain ⟨engines⟩ := r
  obtain ⟨engines'⟩ := r'
  exact congrArg MatchingEngineRouter.mk (funext h)

/-- All the trades of a run carry listed tickers. -/
lemma listed_of_mem_tradesOf {cmds : List InboundCommand} {t : Trade} (h : t ∈ tradesOf cmds) :
    t.ticker ∈ instruments :=
  forall_mem_tradesOf (fun _ _ _ _ ht => (ticker_of_mem_step ht).2) t h

/-- Trades of a ticker that is not listed do not occur. -/
lemma filter_isFor_of_unlisted {ticker : Ticker} (h : ticker ∉ instruments)
    (cmds : List InboundCommand) : (tradesOf cmds).filter (Trade.isFor ticker) = [] := by
  refine List.filter_eq_nil_iff.mpr fun t ht hfor => h ?_
  rw [← of_decide_eq_true hfor]
  exact listed_of_mem_tradesOf ht

/-- Two adjacent commands for different tickers may be exchanged. -/
theorem swap_of_ticker_ne {a b : InboundCommand} (h : a.ticker ≠ b.ticker)
    (pre post : List InboundCommand) :
    after (pre ++ a :: b :: post) = after (pre ++ b :: a :: post) ∧
      ∀ ticker, (tradesOf (pre ++ a :: b :: post)).filter (Trade.isFor ticker) =
        (tradesOf (pre ++ b :: a :: post)).filter (Trade.isFor ticker) := by
  constructor
  · refine ext_engines fun i => ?_
    rw [(engine_alone _ i).1, (engine_alone _ i).1, filter_isFor_swap h]
  · intro ticker
    by_cases hlisted : ticker ∈ instruments
    · obtain ⟨i, hi⟩ := exists_place_iff.mpr hlisted
      rw [← place_eq_some.mp hi, (engine_alone _ i).2, (engine_alone _ i).2, filter_isFor_swap h]
    · rw [filter_isFor_of_unlisted hlisted, filter_isFor_of_unlisted hlisted]

/-- **The router is a product of independent engines.**  After any commands, with any tickers, the
engine at each place, its mid price and the trades of its ticker are those of a standalone engine
that was given only the commands for that ticker.  Every trade carries a listed ticker, a command
for an unlisted one changes nothing and causes no trade, and two adjacent commands for different
tickers may be exchanged without changing the router or the trades of any ticker. -/
theorem router_is_product (cmds : List InboundCommand) :
    (∀ i : Fin instruments.length,
      (after cmds).engines i =
          MatchingEngine.after (cmds.filter (InboundCommand.isFor (tickerAt i))) ∧
        (after cmds).midPrice (tickerAt i) =
          (MatchingEngine.after (cmds.filter (InboundCommand.isFor (tickerAt i)))).midPrice ∧
        (tradesOf cmds).filter (Trade.isFor (tickerAt i)) =
          MatchingEngine.tradesOf (cmds.filter (InboundCommand.isFor (tickerAt i)))) ∧
      (∀ t ∈ tradesOf cmds, t.ticker ∈ instruments) ∧
      (∀ (r : MatchingEngineRouter) (cmd : InboundCommand), cmd.ticker ∉ instruments →
        r.step cmd = (r, [])) ∧
      ∀ (pre post : List InboundCommand) (a b : InboundCommand), cmds = pre ++ a :: b :: post →
        a.ticker ≠ b.ticker →
        after (pre ++ b :: a :: post) = after cmds ∧
          ∀ ticker, (tradesOf (pre ++ b :: a :: post)).filter (Trade.isFor ticker) =
            (tradesOf cmds).filter (Trade.isFor ticker) := by
  refine ⟨fun i => ?_, fun t ht => listed_of_mem_tradesOf ht, fun r cmd hcmd => ?_, ?_⟩
  · obtain ⟨hengine, htrades⟩ := engine_alone cmds i
    refine ⟨hengine, ?_, htrades⟩
    rw [← hengine, midPrice, place_eq_some.mpr rfl]
  · refine step_of_unlisted r cmd ?_
    cases hplace : place cmd.ticker with
    | none => rfl
    | some i => exact absurd (exists_place_iff.mp ⟨i, hplace⟩) hcmd
  · rintro pre post a b rfl hne
    obtain ⟨hafter, htrades⟩ := swap_of_ticker_ne hne pre post
    exact ⟨hafter.symm, fun ticker => (htrades ticker).symm⟩

end MatchingEngineRouter

end ToyExchange
