import ToyExchange.Engine.MidPrice
import ToyExchange.Foundations.SignedWord

/-!
# The mid price and the spread

The published mid price of a book with two sides is half the sum of the best bid and the best ask.
The exact half lies between the two prices, also where it is truncated towards zero
(`tdiv_two_between`).  The sum of two 64-bit prices need not be a 64-bit integer, however, and a
wrapped sum has the wrong sign, so that its half is on the far side of zero from both prices.  Hence
the mid price is inside the spread exactly if the sum does not overflow
(`midPrice_inside_spread_iff`).
-/

namespace ToyExchange

open SignedWord

/-- Half of an integer, truncated towards zero. -/
lemma two_mul_tdiv_two (x : ℤ) :
    0 ≤ x ∧ x - 1 ≤ 2 * x.tdiv 2 ∧ 2 * x.tdiv 2 ≤ x ∨
      x < 0 ∧ x ≤ 2 * x.tdiv 2 ∧ 2 * x.tdiv 2 ≤ x + 1 := by
  rcases le_or_gt 0 x with hx | hx
  · left
    rw [Int.tdiv_eq_ediv_of_nonneg hx]
    omega
  · right
    have hneg : x.tdiv 2 = -((-x) / 2) := by
      rw [← Int.tdiv_eq_ediv_of_nonneg (by omega), Int.neg_tdiv, neg_neg]
    rw [hneg]
    omega

/-- The half of the sum of two prices lies between them. -/
lemma tdiv_two_between {bid ask : ℤ} (h : bid < ask) :
    bid ≤ (bid + ask).tdiv 2 ∧ (bid + ask).tdiv 2 ≤ ask := by
  have hhalf := two_mul_tdiv_two (bid + ask)
  omega

/-- The half of the wrapped sum of two words lies between them exactly if the sum is a word. -/
lemma wrap_tdiv_two_between_iff {w : ℕ} {bid ask : ℤ} (h : bid < ask) (hbid : InRange w bid)
    (hask : InRange w ask) :
    bid ≤ (wrap w (bid + ask)).tdiv 2 ∧ (wrap w (bid + ask)).tdiv 2 ≤ ask ↔
      InRange w (bid + ask) := by
  constructor
  · intro hbetween
    have hhalf := two_mul_tdiv_two (wrap w (bid + ask))
    obtain ⟨hbidlow, hbidhigh⟩ := hbid
    obtain ⟨hasklow, haskhigh⟩ := hask
    by_contra hout
    rcases lt_or_ge (2 * (bid + ask)) (-2 ^ w) with hbelow | hlow
    · -- both prices are negative, the wrapped sum is not
      rw [wrap_of_below (by linarith) hbelow] at hbetween hhalf
      omega
    · have habove : 2 ^ w ≤ 2 * (bid + ask) := by
        by_contra hhigh
        exact hout ⟨hlow, not_le.mp hhigh⟩
      -- both prices are positive, the wrapped sum is negative
      rw [wrap_of_above habove (by linarith)] at hbetween hhalf
      omega
  · intro hrange
    rw [wrap_of_inRange hrange]
    exact tdiv_two_between h

namespace MatchingEngine

/-- A property of orders that does not depend on their volume holds for all live orders if it
holds for the orders that were added. -/
lemma forall_orders_after [PriceSum] {P : LiveOrder → Prop}
    (hP : ∀ o v, P o → P { o with volume := v }) {cmds : List InboundCommand}
    (hadd : ∀ order, .add order ∈ cmds → ∀ v, P (LiveOrder.ofAdd order v)) :
    ∀ o ∈ (after cmds).orders, P o := by
  induction cmds using List.reverseRecOn with
  | nil =>
    intro o ho
    cases ho
  | append_singleton cmds cmd ih =>
    have hbefore := ih fun order horder => hadd order (List.mem_append_left _ horder)
    rw [after_concat]
    cases cmd with
    | add order =>
      apply forall_orders_onOrderAdd (sound_after cmds).noEmptyLevel hP hbefore
      exact hadd order (List.mem_append_right _ (List.mem_singleton_self _)) _
    | cancel request =>
      intro o ho
      exact hbefore o ((orders_onOrderCancel_sublist _ request).mem ho)

/-- The best price of a side is one that was added. -/
lemma inRange_of_head [PriceSum] {cmds : List InboundCommand}
    (hprices : ∀ order, .add order ∈ cmds → InRange 64 order.price) {s : Side}
    {x : ℤ × PriceLevel} (hx : x ∈ ((after cmds).levels s).head?) : InRange 64 x.1 := by
  obtain ⟨o, ho, hprice⟩ := exists_live_of_head (sound_after cmds).noEmptyLevel hx
  rw [← hprice]
  refine forall_orders_after (P := fun o => InRange 64 o.price) (fun _ _ h => h)
    (fun order horder _ => hprices order horder) o ?_
  rw [mem_orders, side_of_mem_live ho]
  exact ho

/-- **When the mid price is inside the spread.**  After any commands with 64-bit prices, in 64-bit
arithmetic: if both sides of the book have orders then there is a mid price, and it lies between
the best bid and the best ask exactly if the sum of the two does not overflow. -/
theorem midPrice_inside_spread_iff {cmds : List InboundCommand}
    (hprices : ∀ order, .add order ∈ cmds → InRange 64 order.price) :
    ∀ bid ∈ (@after PriceSum.int64 cmds).bids.entries.head?,
      ∀ ask ∈ (@after PriceSum.int64 cmds).asks.entries.head?,
        ∃ mid, (@after PriceSum.int64 cmds).midPrice = some mid ∧
          (bid.1 ≤ mid ∧ mid ≤ ask.1 ↔ InRange 64 (bid.1 + ask.1)) := by
  let _ := PriceSum.int64
  intro bid hbid ask hask
  have hlt : bid.1 < ask.1 := (sound_after cmds).wellFormed.uncrossed bid hbid ask hask
  have hbidrange : InRange 64 bid.1 := inRange_of_head (s := .buy) hprices hbid
  have haskrange : InRange 64 ask.1 := inRange_of_head (s := .sell) hprices hask
  have htop : (after cmds).top = some ((wrap 64 (bid.1 + ask.1)).tdiv 2) := by
    rw [top, Option.mem_def.mp hbid, Option.mem_def.mp hask]
    rfl
  have hfresh := fresh_after cmds
  rw [Fresh, htop, Option.some_or] at hfresh
  exact ⟨_, hfresh.symm, wrap_tdiv_two_between_iff hlt hbidrange haskrange⟩

/-- Two orders around 100. -/
theorem midPrice_inside_spread_of_small_prices :
    let cmds : List InboundCommand :=
      [.add ⟨1, 1, .aapl, .buy, 99, 5⟩, .add ⟨2, 2, .aapl, .sell, 102, 5⟩]
    ∃ mid, (@after PriceSum.int64 cmds).midPrice = some mid ∧ 99 ≤ mid ∧ mid ≤ 102 := by
  intro cmds
  have hprices : ∀ order, .add order ∈ cmds → InRange 64 order.price := by
    intro order horder
    rcases List.mem_cons.mp horder with h | h
    · cases h
      decide
    · cases List.mem_singleton.mp h
      decide
  obtain ⟨mid, hmid, hiff⟩ := midPrice_inside_spread_iff hprices (99, [⟨1, 1, 5⟩]) (by decide)
    (102, [⟨2, 2, 5⟩]) (by decide)
  exact ⟨mid, hmid, hiff.mpr (by decide)⟩

/-- Two orders at the upper end of the 64-bit prices: the sum of the best prices overflows, and the
published mid price is negative. -/
theorem midPrice_outside_spread :
    let e := @after PriceSum.int64
      [.add ⟨1, 1, .aapl, .buy, 2 ^ 63 - 2, 5⟩, .add ⟨2, 2, .aapl, .sell, 2 ^ 63 - 1, 5⟩]
    InRange 64 (2 ^ 63 - 2) ∧ InRange 64 (2 ^ 63 - 1) ∧
      e.bids.entries = [(2 ^ 63 - 2, [⟨1, 1, 5⟩])] ∧ e.asks.entries = [(2 ^ 63 - 1, [⟨2, 2, 5⟩])] ∧
      ¬ InRange 64 ((2 ^ 63 - 2) + (2 ^ 63 - 1)) ∧ e.midPrice = some (-1) := by
  decide

end MatchingEngine

end ToyExchange
