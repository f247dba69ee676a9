import ToyExchange.Engine.OrderIndex
import Mathlib.Data.List.FinRange

/-!
# The router

The router holds one engine for each listed instrument and hands each request to the engine of
its ticker; requests for an unlisted ticker are dropped.

A command touches one engine (`step_of_place`), and `orders_perm` splits the live orders of the
router accordingly: those of one engine and those of the others, which the command leaves alone.
-/

namespace ToyExchange

/-- The position of a ticker among the instruments, or their number if it is not listed. -/
def tickerIndex (ticker : Ticker) : ℕ := instruments.idxOf ticker

/-- The place of a listed ticker. -/
def place (ticker : Ticker) : Option (Fin instruments.length) :=
  if h : tickerIndex ticker < instruments.length then some ⟨tickerIndex ticker, h⟩ else none

/-- The ticker of a place. -/
def tickerAt (i : Fin instruments.length) : Ticker := instruments.get i

lemma place_eq_some {ticker : Ticker} {i : Fin instruments.length} :
    place ticker = some i ↔ tickerAt i = ticker := by
  unfold place tickerAt tickerIndex
  constructor
  · intro h
    split_ifs at h with hlt
    obtain rfl := Option.some.inj h
    exact List.getElem_idxOf hlt
  · rintro rfl
    have hidx : instruments.idxOf (instruments.get i) = i := by
      revert i
      decide
    have hlt : instruments.idxOf (instruments.get i) < instruments.length := hidx ▸ i.isLt
    rw [dif_pos hlt]
    exact congrArg some (Fin.ext hidx)

/-- A ticker has a place exactly when it is listed. -/
lemma exists_place_iff {ticker : Ticker} : (∃ i, place ticker = some i) ↔ ticker ∈ instruments := by
  constructor
  · rintro ⟨i, hi⟩
    rw [← place_eq_some.mp hi]
    exact List.get_mem instruments i
  · intro h
    obtain ⟨i, hi⟩ := List.get_of_mem h
    exact ⟨i, place_eq_some.mpr hi⟩

/-- One engine for each instrument. -/
structure MatchingEngineRouter where
  engines : Fin instruments.length → MatchingEngine

namespace MatchingEngineRouter

/-- Engines in which nothing has rested yet. -/
def empty : MatchingEngineRouter := ⟨fun _ => MatchingEngine.empty⟩

/-- Replace the engine at a place. -/
def set (r : MatchingEngineRouter) (i : Fin instruments.length) (e : MatchingEngine) :
    MatchingEngineRouter := ⟨Function.update r.engines i e⟩

section Operations

variable [PriceSum]

/-- Hand an add to the engine of its ticker. -/
def onOrderAdd (r : MatchingEngineRouter) (order : OrderAdd) :
    MatchingEngineRouter × List Trade :=
  match place order.ticker with
  | none => (r, [])
  | some i => (r.set i ((r.engines i).onOrderAdd order).1, ((r.engines i).onOrderAdd order).2)

/-- Hand a cancel to the engine of its ticker. -/
def onOrderCancel (r : MatchingEngineRouter) (cancel : OrderCancel) : MatchingEngineRouter :=
  match place cancel.ticker with
  | none => r
  | some i => r.set i ((r.engines i).onOrderCancel cancel)

/-- The mid price of a ticker; empty if it is not listed. -/
def midPrice (r : MatchingEngineRouter) (ticker : Ticker) : Option ℤ :=
  match place ticker with
  | none => none
  | some i => (r.engines i).midPrice

/-- One command, and the trades it causes. -/
def step (r : MatchingEngineRouter) : InboundCommand → MatchingEngineRouter × List Trade
  | .add order => r.onOrderAdd order
  | .cancel request => (r.onOrderCancel request, [])

/-- The router after a sequence of commands. -/
def after (cmds : List InboundCommand) : MatchingEngineRouter := (Mealy.run step empty cmds).1

/-- The trades caused by a sequence of commands. -/
def tradesOf (cmds : List InboundCommand) : List Trade := (Mealy.run step empty cmds).2

/-- What the matching-engine thread publishes for a command: an add and then its trades in the
order they are made, or a cancel, whether or not the router acts on it. -/
def publish (r : MatchingEngineRouter) : InboundCommand → List MarketEvent
  | .add order => .orderAdd order :: (r.onOrderAdd order).2.map .trade
  | .cancel request => [.orderCancel request]

/-- The events of an add for a listed ticker. -/
lemma publish_add_of_place (r : MatchingEngineRouter) {order : OrderAdd}
    {i : Fin instruments.length} (h : place order.ticker = some i) :
    r.publish (.add order) =
      .orderAdd order :: ((r.engines i).onOrderAdd order).2.map .trade := by
  simp [publish, onOrderAdd, h]

/-- A command for an unlisted ticker is dropped. -/
lemma step_of_unlisted (r : MatchingEngineRouter) (cmd : InboundCommand)
    (h : place cmd.ticker = none) : r.step cmd = (r, []) := by
  cases cmd with
  | add order =>
    have hplace : place order.ticker = none := h
    simp [step, onOrderAdd, hplace]
  | cancel request =>
    have hplace : place request.ticker = none := h
    simp [step, onOrderCancel, hplace]

/-- A command for a listed ticker is a step of the engine at its place. -/
lemma step_of_place (r : MatchingEngineRouter) (cmd : InboundCommand)
    {i : Fin instruments.length} (h : place cmd.ticker = some i) :
    r.step cmd = (r.set i ((r.engines i).step cmd).1, ((r.engines i).step cmd).2) := by
  cases cmd with
  | add order =>
    have hplace : place order.ticker = some i := h
    simp [step, onOrderAdd, MatchingEngine.step, hplace]
  | cancel request =>
    have hplace : place request.ticker = some i := h
    simp [step, onOrderCancel, MatchingEngine.step, hplace]

end Operations

@[simp] lemma engines_set_self (r : MatchingEngineRouter) (i : Fin instruments.length)
    (e : MatchingEngine) : (r.set i e).engines i = e := Function.update_self ..

lemma engines_set_of_ne (r : MatchingEngineRouter) {i j : Fin instruments.length} (h : j ≠ i)
    (e : MatchingEngine) : (r.set i e).engines j = r.engines j := Function.update_of_ne h ..

/-- What the engine at each place has and a command given to it keeps is kept by the router. -/
theorem forall_engines_step [PriceSum] {P : Fin instruments.length → MatchingEngine → Prop}
    (cmd : InboundCommand) (hstep : ∀ i e, P i e → P i (MatchingEngine.step e cmd).1)
    {r : MatchingEngineRouter} (hr : ∀ i, P i (r.engines i)) :
    ∀ i, P i ((r.step cmd).1.engines i) := by
  intro j
  cases hplace : place cmd.ticker with
  | none =>
    rw [step_of_unlisted r cmd hplace]
    exact hr j
  | some i =>
    rw [step_of_place r cmd hplace]
    by_cases hji : j = i
    · subst hji
      rw [engines_set_self]
      exact hstep j _ (hr j)
    · rw [engines_set_of_ne r hji]
      exact hr j

/-- Every command keeps every engine sound. -/
lemma sound_engines_step [PriceSum] {r : MatchingEngineRouter} (hr : ∀ i, (r.engines i).Sound)
    (cmd : InboundCommand) : ∀ i, ((r.step cmd).1.engines i).Sound :=
  forall_engines_step (P := fun _ e => e.Sound) cmd
    (fun _ _ h => MatchingEngine.sound_step h cmd) hr

/-- Every engine of a router that was given any commands is sound. -/
theorem sound_engines [PriceSum] (cmds : List InboundCommand) (i : Fin instruments.length) :
    ((after cmds).engines i).Sound :=
  Mealy.run_invariant (P := fun r : MatchingEngineRouter => ∀ i, (r.engines i).Sound)
    (fun _ cmd hr => sound_engines_step hr cmd) (fun _ => MatchingEngine.sound_empty) cmds i

/-! ## The live orders -/

/-- All the live orders, each with its place. -/
def orders (r : MatchingEngineRouter) : List (Fin instruments.length × LiveOrder) :=
  (List.finRange instruments.length).flatMap fun i => (r.engines i).orders.map (Prod.mk i)

/-- The live orders of all engines but one. -/
def otherOrders (r : MatchingEngineRouter) (i : Fin instruments.length) :
    List (Fin instruments.length × LiveOrder) :=
  ((List.finRange instruments.length).erase i).flatMap fun j =>
    (r.engines j).orders.map (Prod.mk j)

lemma mem_orders {r : MatchingEngineRouter} {i : Fin instruments.length} {o : LiveOrder} :
    (i, o) ∈ r.orders ↔ o ∈ (r.engines i).orders := by
  simp [orders, List.mem_flatMap]

lemma mem_otherOrders {r : MatchingEngineRouter} {i j : Fin instruments.length} {o : LiveOrder} :
    (j, o) ∈ r.otherOrders i ↔ j ≠ i ∧ o ∈ (r.engines j).orders := by
  unfold otherOrders
  rw [List.mem_flatMap]
  constructor
  · rintro ⟨k, hk, hmem⟩
    obtain ⟨o', ho', heq⟩ := List.mem_map.mp hmem
    obtain ⟨rfl, rfl⟩ := Prod.mk.inj heq
    exact ⟨((List.nodup_finRange _).mem_erase_iff.mp hk).1, ho'⟩
  · rintro ⟨hji, ho⟩
    refine ⟨j, (List.nodup_finRange _).mem_erase_iff.mpr ⟨hji, List.mem_finRange j⟩, ?_⟩
    exact List.mem_map_of_mem ho

/-- The live orders are those of one engine and those of the others. -/
lemma orders_perm (r : MatchingEngineRouter) (i : Fin instruments.length) :
    r.orders.Perm ((r.engines i).orders.map (Prod.mk i) ++ r.otherOrders i) := by
  have hsplit := List.perm_cons_erase (List.mem_finRange i)
  exact hsplit.flatMap_right fun j => (r.engines j).orders.map (Prod.mk j)

/-- Replacing one engine leaves the orders of the others alone. -/
@[simp] lemma otherOrders_set (r : MatchingEngineRouter) (i : Fin instruments.length)
    (e : MatchingEngine) : (r.set i e).otherOrders i = r.otherOrders i := by
  unfold otherOrders
  refine List.flatMap_congr fun j hj => ?_
  have hne : j ≠ i := ((List.nodup_finRange _).mem_erase_iff.mp hj).1
  rw [engines_set_of_ne r hne]

end MatchingEngineRouter

/-! ## The feed -/

section Feed

variable [PriceSum]

/-- The router, and the events published so far. -/
def publishStep (r : MatchingEngineRouter) (cmd : InboundCommand) :
    MatchingEngineRouter × List MarketEvent := ((r.step cmd).1, r.publish cmd)

/-- All the events published for a sequence of commands, in order. -/
def feedOf (cmds : List InboundCommand) : List MarketEvent :=
  (Mealy.run publishStep MatchingEngineRouter.empty cmds).2

lemma run_publishStep_fst (r : MatchingEngineRouter) (cmds : List InboundCommand) :
    (Mealy.run publishStep r cmds).1 = (Mealy.run MatchingEngineRouter.step r cmds).1 := by
  induction cmds generalizing r with
  | nil => rfl
  | cons cmd cmds ih => exact ih (r.step cmd).1

/-- The events of the last command come last. -/
lemma feedOf_concat (cmds : List InboundCommand) (cmd : InboundCommand) :
    feedOf (cmds ++ [cmd]) = feedOf cmds ++ (MatchingEngineRouter.after cmds).publish cmd := by
  unfold feedOf
  rw [Mealy.run_concat_snd, run_publishStep_fst]
  rfl

/-- The trades of the last command come last. -/
lemma MatchingEngineRouter.tradesOf_concat (cmds : List InboundCommand) (cmd : InboundCommand) :
    tradesOf (cmds ++ [cmd]) = tradesOf cmds ++ ((after cmds).step cmd).2 :=
  Mealy.run_concat_snd _ cmds cmd

/-- What holds of the trades of every command, given to the router that the commands before it lead
to, holds of all trades of a run. -/
theorem MatchingEngineRouter.forall_mem_tradesOf {P : Trade → Prop} {cmds : List InboundCommand}
    (h : ∀ pre cmd, pre ++ [cmd] <+: cmds → ∀ t ∈ ((after pre).step cmd).2, P t) :
    ∀ t ∈ tradesOf cmds, P t := by
  induction cmds using List.reverseRecOn with
  | nil => nofun
  | append_singleton cmds cmd ih =>
    intro t ht
    rw [tradesOf_concat] at ht
    rcases List.mem_append.mp ht with ht | ht
    · refine ih (fun pre cmd' hpre => ?_) t ht
      exact h pre cmd' (hpre.trans (List.prefix_append cmds [cmd]))
    · exact h cmds cmd (List.prefix_refl _) t ht

/-- The router after one more command. -/
lemma MatchingEngineRouter.after_concat (cmds : List InboundCommand) (cmd : InboundCommand) :
    after (cmds ++ [cmd]) = ((after cmds).step cmd).1 :=
  Mealy.run_concat_fst _ cmds cmd

end Feed

end ToyExchange
