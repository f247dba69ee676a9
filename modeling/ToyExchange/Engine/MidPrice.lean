import ToyExchange.Engine.WellFormed
import Mathlib.Data.List.Infix

/-!
# The mid price is never stale

The mid price is a cache: an add and an accepted cancel publish it anew from the top of the book,
unless the book is empty, and a rejected cancel does not touch it.  `midPrice_onOrderAdd` and
`midPrice_onOrderCancel` say so, and `midPrice_step` puts them together: after a command the mid
price is the top of the book if there is one, and else what it was.

`midPrice_never_stale` is the resulting reading of the history: the mid price is the top of the
last book that was not empty.
-/

namespace ToyExchange

namespace MatchingEngine

section Top

variable [PriceSum]

/-- The middle of the best bid and the best ask, truncated toward zero, or the best price of the
only side that is not empty. -/
def top (e : MatchingEngine) : Option ℤ :=
  match e.bids.entries.head?, e.asks.entries.head? with
  | some bid, some ask => some ((PriceSum.add bid.1 ask.1).tdiv 2)
  | some bid, none => some bid.1
  | none, some ask => some ask.1
  | none, none => none

/-- There is a top exactly when an order rests. -/
lemma top_eq_none_iff {e : MatchingEngine} (he : e.NoEmptyLevel) :
    e.top = none ↔ e.orders = [] := by
  have hside : ∀ s, e.live s = [] ↔ e.levels s = [] := by
    intro s
    constructor
    · intro hlive
      cases hlevels : e.levels s with
      | nil => rfl
      | cons x rest =>
        have hx : x ∈ (e.levels s).head? := by rw [hlevels]; rfl
        obtain ⟨o, ho, -⟩ := exists_live_of_head he hx
        rw [hlive] at ho
        cases ho
    · intro hlevels
      rw [live, hlevels]
      rfl
  have hbids : e.levels .buy = e.bids.entries := rfl
  have hasks : e.levels .sell = e.asks.entries := rfl
  rw [orders, List.append_eq_nil_iff, hside, hside, hbids, hasks, top]
  cases e.bids.entries <;> cases e.asks.entries <;> simp

@[simp] lemma top_updateMidPrice (e : MatchingEngine) : e.updateMidPrice.top = e.top := by
  rw [top, bids_updateMidPrice, asks_updateMidPrice, top]

/-- What is published is the top of the book, if there is one. -/
lemma midPrice_updateMidPrice (e : MatchingEngine) :
    e.updateMidPrice.midPrice = e.top.or e.midPrice := by
  unfold updateMidPrice top
  cases e.bids.entries <;> cases e.asks.entries <;> rfl

omit [PriceSum] in
lemma midPrice_rest (e : MatchingEngine) (order : OrderAdd) (remaining : ℤ) :
    (e.rest order remaining).midPrice = e.midPrice := by
  obtain ⟨i, u, t, side, p, v⟩ := order
  cases side <;> rfl

/-- After an add the mid price is the top of the book if there is one, and else what it was. -/
lemma midPrice_onOrderAdd (e : MatchingEngine) (order : OrderAdd) :
    (e.onOrderAdd order).1.midPrice = (e.onOrderAdd order).1.top.or e.midPrice := by
  have hpublish : ∀ e' : MatchingEngine, e'.midPrice = e.midPrice →
      e'.updateMidPrice.midPrice = e'.updateMidPrice.top.or e.midPrice := by
    intro e' hold
    rw [midPrice_updateMidPrice, top_updateMidPrice, hold]
  obtain ⟨i, u, t, side, p, v⟩ := order
  cases side with
  | buy =>
    refine hpublish _ ?_
    split_ifs
    · exact midPrice_rest _ _ _
    · rfl
  | sell =>
    refine hpublish _ ?_
    split_ifs
    · exact midPrice_rest _ _ _
    · rfl

/-- After an accepted cancel likewise. -/
lemma midPrice_onOrderCancel {e : MatchingEngine} {cancel : OrderCancel}
    {location : OrderLocation} (h : e.Accepts cancel location) :
    (e.onOrderCancel cancel).midPrice = (e.onOrderCancel cancel).top.or e.midPrice := by
  obtain ⟨side, price, userId⟩ := location
  obtain ⟨hi, hu⟩ := h
  have hne : ¬ (userId ≠ cancel.userId) := not_not.mpr hu
  unfold onOrderCancel
  simp only [hi, if_neg hne]
  rw [midPrice_updateMidPrice, top_updateMidPrice]
  cases side <;> rfl

/-- The mid price is the top of the book, unless the book is empty. -/
def Fresh (e : MatchingEngine) : Prop := e.top.or e.midPrice = e.midPrice

/-- After a command the mid price is the top of the book if there is one, and else what it was. -/
theorem midPrice_step {e : MatchingEngine} (he : e.Fresh) (cmd : InboundCommand) :
    (e.step cmd).1.midPrice = (e.step cmd).1.top.or e.midPrice := by
  cases cmd with
  | add order => exact midPrice_onOrderAdd e order
  | cancel request =>
    by_cases h : ∃ location, e.Accepts request location
    · obtain ⟨location, h⟩ := h
      exact midPrice_onOrderCancel h
    · -- a rejected cancel changes nothing, and the mid price was not stale before
      have hsame : e.onOrderCancel request = e :=
        onOrderCancel_of_not_accepts fun location hl => h ⟨location, hl⟩
      change (e.onOrderCancel request).midPrice = (e.onOrderCancel request).top.or e.midPrice
      rw [hsame]
      exact he.symm

lemma fresh_empty : empty.Fresh := rfl

lemma fresh_step {e : MatchingEngine} (he : e.Fresh) (cmd : InboundCommand) :
    (e.step cmd).1.Fresh := by
  unfold Fresh
  rw [midPrice_step he cmd]
  cases (e.step cmd).1.top <;> rfl

/-- The mid price is never stale. -/
theorem fresh_after (cmds : List InboundCommand) : (after cmds).Fresh :=
  Mealy.run_invariant (P := Fresh) (fun _ cmd he => fresh_step he cmd) fresh_empty cmds

/-- The last engine of the history whose book is not empty. -/
def lastNonEmpty (cmds : List InboundCommand) : Option MatchingEngine :=
  (cmds.inits.reverse.map after).find? fun e => !e.orders.isEmpty

lemma after_concat (cmds : List InboundCommand) (cmd : InboundCommand) :
    after (cmds ++ [cmd]) = ((after cmds).step cmd).1 := Mealy.run_concat_fst _ cmds cmd

/-- The history after one more command ends with the engine after it. -/
lemma lastNonEmpty_concat (cmds : List InboundCommand) (cmd : InboundCommand) :
    lastNonEmpty (cmds ++ [cmd]) =
      if (after (cmds ++ [cmd])).orders = [] then lastNonEmpty cmds
      else some (after (cmds ++ [cmd])) := by
  have hinits : (cmds ++ [cmd]).inits = cmds.inits ++ [cmds ++ [cmd]] := by
    rw [List.inits_append]
    rfl
  unfold lastNonEmpty
  rw [hinits, List.reverse_concat, List.map_cons]
  by_cases hempty : (after (cmds ++ [cmd])).orders = []
  · rw [if_pos hempty, List.find?_cons_of_neg (by simp [hempty])]
  · rw [if_neg hempty, List.find?_cons_of_pos (by simp [hempty])]

/-- The mid price is the top of the last book that was not empty. -/
theorem midPrice_after (cmds : List InboundCommand) :
    (after cmds).midPrice = (lastNonEmpty cmds).bind top := by
  induction cmds using List.reverseRecOn with
  | nil => rfl
  | append_singleton cmds cmd ih =>
    have hnone := top_eq_none_iff (sound_after (cmds ++ [cmd])).noEmptyLevel
    have hstep := midPrice_step (fresh_after cmds) cmd
    rw [← after_concat, ih] at hstep
    rw [lastNonEmpty_concat, hstep]
    by_cases hempty : (after (cmds ++ [cmd])).orders = []
    · rw [if_pos hempty, hnone.mpr hempty]
      rfl
    · rw [if_neg hempty]
      cases htop : (after (cmds ++ [cmd])).top with
      | none => exact absurd (hnone.mp htop) hempty
      | some price =>
        rw [Option.bind_some, htop]
        rfl

/-- A mid price is not withdrawn, whatever comes. -/
lemma midPrice_isSome_step {e : MatchingEngine} (he : e.Fresh) (cmd : InboundCommand)
    (h : e.midPrice.isSome) : (e.step cmd).1.midPrice.isSome := by
  rw [midPrice_step he cmd]
  cases (e.step cmd).1.top with
  | none => exact h
  | some price => rfl

/-- There is no mid price exactly as long as no order has ever rested. -/
theorem midPrice_eq_none_iff (cmds : List InboundCommand) :
    (after cmds).midPrice = none ↔ ∀ pre, pre <+: cmds → (after pre).orders = [] := by
  rw [midPrice_after]
  constructor
  · intro h pre hpre
    by_contra hne
    have hmem : after pre ∈ cmds.inits.reverse.map after :=
      List.mem_map_of_mem (List.mem_reverse.mpr ((List.mem_inits _ _).mpr hpre))
    cases hlast : lastNonEmpty cmds with
    | none =>
      have hnone := List.find?_eq_none.mp hlast _ hmem
      simp [hne] at hnone
    | some e =>
      -- the engine found is one of the history with orders, so it has a top
      obtain ⟨pre', hpre', rfl⟩ := List.mem_map.mp (List.mem_of_find?_eq_some hlast)
      have horders := List.find?_some hlast
      rw [hlast, Option.bind_some, top_eq_none_iff (sound_after pre').noEmptyLevel] at h
      simp [h] at horders
  · intro h
    have hnone : lastNonEmpty cmds = none := by
      refine List.find?_eq_none.mpr fun e he => ?_
      obtain ⟨pre, hpre, rfl⟩ := List.mem_map.mp he
      rw [h pre ((List.mem_inits _ _).mp (List.mem_reverse.mp hpre))]
      decide
    rw [hnone]
    rfl

end Top

/-- **The mid price is never stale.**  Over exact integers, after any adds and cancels the mid
price is the top of the most recent book of the history that is not empty, the current one
included; there is none exactly if no order ever rested. -/
theorem midPrice_never_stale (cmds : List InboundCommand) :
    (@after PriceSum.exact cmds).midPrice =
        (@lastNonEmpty PriceSum.exact cmds).bind (@top PriceSum.exact) ∧
      ((@after PriceSum.exact cmds).midPrice = none ↔
        ∀ pre, pre <+: cmds → (@after PriceSum.exact pre).orders = []) :=
  ⟨@midPrice_after PriceSum.exact cmds, @midPrice_eq_none_iff PriceSum.exact cmds⟩

example :
    (@after PriceSum.exact [.add ⟨1, 1, .aapl, .sell, 103, 10⟩,
      .add ⟨2, 2, .aapl, .buy, 100, 4⟩, .cancel ⟨1, 1, .aapl⟩,
      .cancel ⟨2, 2, .aapl⟩]).midPrice = some 100 := by decide

end MatchingEngine

end ToyExchange
