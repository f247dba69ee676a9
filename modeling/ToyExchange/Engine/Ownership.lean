import ToyExchange.Engine.Ledger

/-!
# Whether other users can take an order out of the book

A cancel checks the user against the index entry of its order id and then erases every order
with that id from the level the entry names.  Entry and orders are of one user as long as ids are
not reused, but another user can rest an order under the id, side and price of a live order,
take over the entry with it, and then cancel both.

`TakesOut o e cmd` says of the state before a command that the command will do so.  For commands
of other users, the volume of `o` that rests and the volume traded with `o` as the maker can only
shrink (`kept_step`), and over a whole run they make up the volume `o` had at the start exactly
when no step takes `o` out (`kept_iff`).

Orders of one user with the same id, side and price are told apart neither by the trades nor by
the index, and are counted together.
-/

namespace ToyExchange

namespace LiveOrder

/-- The order has the id, owner, side and price of `o`. -/
def Alike (o o' : LiveOrder) : Prop :=
  o'.orderId = o.orderId ∧ o'.userId = o.userId ∧ o'.side = o.side ∧ o'.price = o.price

instance (o : LiveOrder) : DecidablePred o.Alike := fun o' =>
  inferInstanceAs (Decidable (o'.orderId = o.orderId ∧ o'.userId = o.userId ∧ o'.side = o.side ∧
    o'.price = o.price))

/-- The trade has the order `o` as its maker. -/
def Makes (o : LiveOrder) (t : Trade) : Prop :=
  t.makerOrderId = o.orderId ∧ t.makerId = o.userId ∧ t.takerSide.opposite = o.side ∧
    t.executionPrice = o.price

instance (o : LiveOrder) : DecidablePred o.Makes := fun t =>
  inferInstanceAs (Decidable (t.makerOrderId = o.orderId ∧ t.makerId = o.userId ∧
    t.takerSide.opposite = o.side ∧ t.executionPrice = o.price))

end LiveOrder

namespace MatchingEngine

/-- The command is a cancel of the id of `o` by the user whom the index records at the side and
price of `o`, while `o` rests there. -/
def TakesOut (o : LiveOrder) (e : MatchingEngine) : InboundCommand → Prop
  | .add _ => False
  | .cancel request => request.orderId = o.orderId ∧
      e.orderIndex o.orderId = some ⟨o.side, o.price, request.userId⟩ ∧ ∃ o' ∈ e.orders, o.Alike o'

/-- A cancel erases an order like `o` exactly when it takes `o` out. -/
lemma exists_alike_mem_erased_iff {e : MatchingEngine} {o : LiveOrder} {request : OrderCancel} :
    (∃ o' ∈ e.erased request, o.Alike o') ↔ e.TakesOut o (.cancel request) := by
  constructor
  · rintro ⟨o', ho', halike⟩
    by_cases haccepts : ∃ location, e.Accepts request location
    · obtain ⟨⟨side, price, userId⟩, haccepts⟩ := haccepts
      rw [erased_of_accepts haccepts, List.mem_filter, decide_eq_true_iff] at ho'
      obtain ⟨hmem, hid, hside, hprice⟩ := ho'
      obtain ⟨hindex, huser⟩ := haccepts
      have hid' : request.orderId = o.orderId := hid.symm.trans halike.1
      refine ⟨hid', ?_, o', hmem, halike⟩
      rw [← hid', hindex, ← halike.2.2.1, ← halike.2.2.2, hside, hprice, ← huser]
    · rw [erased_of_not_accepts fun location hl => haccepts ⟨location, hl⟩] at ho'
      simp at ho'
  · rintro ⟨hid, hindex, o', hmem, halike⟩
    have haccepts : e.Accepts request ⟨o.side, o.price, request.userId⟩ :=
      ⟨by rw [hid]; exact hindex, rfl⟩
    refine ⟨o', ?_, halike⟩
    rw [erased_of_accepts haccepts, List.mem_filter, decide_eq_true_iff]
    exact ⟨hmem, halike.1.trans hid.symm, halike.2.2.1, halike.2.2.2⟩

section Steps

variable [PriceSum] {e : MatchingEngine}

/-- An add of another user moves volume of `o` from the book to trades. -/
lemma kept_onOrderAdd (he : e.NoEmptyLevel) {o : LiveOrder} {order : OrderAdd}
    (huser : order.userId ≠ o.userId) :
    (e.onOrderAdd order).1.restingVolume (o.Alike ·) +
      tradedVolume (o.Makes ·) (e.onOrderAdd order).2 = e.restingVolume (o.Alike ·) := by
  have hbook := restingVolume_onOrderAdd he order (p := (o.Alike ·)) fun _ _ => rfl
  -- the remainder belongs to the other user
  have hnot : ¬ o.Alike (LiveOrder.ofAdd order 0) := fun h => huser h.2.1
  rw [if_neg fun h => hnot (of_decide_eq_true h.2), add_zero] at hbook
  rw [trades_onOrderAdd he, tradedVolume_eq_takenFrom (p := (o.Alike ·))]
  · exact hbook
  · intro x hx
    have hside : x.1.side = order.side.opposite := side_of_mem_live (Stock.taken_mem hx).1
    refine decide_eq_decide.mpr ?_
    unfold LiveOrder.Makes LiveOrder.Alike
    rw [hside]
    exact Iff.rfl

/-- A cancel never adds to the volume of `o`, and leaves it alone exactly when it does not take
`o` out. -/
lemma kept_onOrderCancel (he : e.Sound) (o : LiveOrder) (request : OrderCancel) :
    (e.onOrderCancel request).restingVolume (o.Alike ·) ≤ e.restingVolume (o.Alike ·) ∧
      ((e.onOrderCancel request).restingVolume (o.Alike ·) = e.restingVolume (o.Alike ·) ↔
        ¬ e.TakesOut o (.cancel request)) := by
  have hbook := restingVolume_onOrderCancel e request (o.Alike ·)
  have hpos : ∀ o' ∈ e.erased request, 0 < LiveOrder.stock.amount o' := by
    intro o' ho'
    have hmem : o' ∈ e.orders :=
      (orders_onOrderCancel_perm e request).mem_iff.mp (List.mem_append_right _ ho')
    exact he.volume_pos _ o' (mem_orders.mp hmem)
  have hnonneg := Stock.total_nonneg hpos (o.Alike ·)
  have hzero := Stock.total_eq_zero_iff hpos (o.Alike ·)
  have htakes : (∀ o' ∈ e.erased request, decide (o.Alike o') = false) ↔
      ¬ e.TakesOut o (.cancel request) := by
    rw [← exists_alike_mem_erased_iff]
    simp
  rw [← htakes, ← hzero]
  exact ⟨by omega, by omega⟩

/-- One command of another user. -/
theorem kept_step (he : e.Sound) {o : LiveOrder} {cmd : InboundCommand}
    (huser : cmd.userId ≠ o.userId) :
    (e.step cmd).1.restingVolume (o.Alike ·) + tradedVolume (o.Makes ·) (e.step cmd).2 ≤
        e.restingVolume (o.Alike ·) ∧
      ((e.step cmd).1.restingVolume (o.Alike ·) + tradedVolume (o.Makes ·) (e.step cmd).2 =
        e.restingVolume (o.Alike ·) ↔ ¬ e.TakesOut o cmd) := by
  cases cmd with
  | add order =>
    have hother : order.userId ≠ o.userId := huser
    have hkept := kept_onOrderAdd he.noEmptyLevel hother
    exact ⟨hkept.le, iff_of_true hkept id⟩
  | cancel request => simpa [step] using kept_onOrderCancel he o request

/-- A run of commands of other users. -/
theorem kept_run (he : e.Sound) {o : LiveOrder} {cmds : List InboundCommand}
    (husers : ∀ cmd ∈ cmds, cmd.userId ≠ o.userId) :
    (Mealy.run step e cmds).1.restingVolume (o.Alike ·) +
        tradedVolume (o.Makes ·) (Mealy.run step e cmds).2 ≤ e.restingVolume (o.Alike ·) ∧
      ((Mealy.run step e cmds).1.restingVolume (o.Alike ·) +
        tradedVolume (o.Makes ·) (Mealy.run step e cmds).2 = e.restingVolume (o.Alike ·) ↔
          Mealy.Along step (fun e cmd => ¬ e.TakesOut o cmd) e cmds) := by
  induction cmds generalizing e with
  | nil => simp
  | cons cmd cmds ih =>
    obtain ⟨hhead, htail⟩ := List.forall_mem_cons.mp husers
    obtain ⟨hstep, hstep_iff⟩ := kept_step he hhead
    obtain ⟨hrest, hrest_iff⟩ := ih (sound_step he cmd) htail
    rw [Mealy.run_cons_fst, Mealy.run_cons_snd, tradedVolume_append, Mealy.along_cons,
      ← hstep_iff, ← hrest_iff]
    -- neither part can gain what the other loses
    constructor
    · omega
    · constructor
      · intro h
        constructor <;> omega
      · rintro ⟨h, h'⟩
        omega

/-- **When other users leave an order alone.**  Take any state reached from the empty engine, any
order and any further commands of users other than its owner.  The volume of the
order that still rests and the volume traded with it as the maker make up what it had, exactly
when none of the commands is a cancel by a user whom the index records for the order's id at the
order's side and price while it rests there. -/
theorem kept_iff (setup cmds : List InboundCommand) (o : LiveOrder)
    (husers : ∀ cmd ∈ cmds, cmd.userId ≠ o.userId) :
    (after (setup ++ cmds)).restingVolume (o.Alike ·) +
        tradedVolume (o.Makes ·) (Mealy.run step (after setup) cmds).2 =
      (after setup).restingVolume (o.Alike ·) ↔
    Mealy.Along step (fun e cmd => ¬ e.TakesOut o cmd) (after setup) cmds := by
  have hafter : after (setup ++ cmds) = (Mealy.run step (after setup) cmds).1 :=
    Mealy.run_append_fst _ _ _
  rw [hafter]
  exact (kept_run (sound_after setup) husers).2

end Steps

/-- A cancel by a non-owner and a sell that trades with the order, both of user 2, leave the order
of user 1 alone: 6 of its 10 units rest and 4 were traded. -/
theorem kept_iff_trade_after_wrong_cancel :
    let setup : List InboundCommand := [.add ⟨1, 1, .aapl, .buy, 100, 10⟩]
    let cmds : List InboundCommand := [.cancel ⟨1, 2, .aapl⟩, .add ⟨2, 2, .aapl, .sell, 99, 4⟩]
    let o : LiveOrder := ⟨⟨1, 1, 10⟩, .buy, 100⟩
    o ∈ (@after PriceSum.int64 setup).orders ∧
      (@after PriceSum.int64 (setup ++ cmds)).restingVolume (o.Alike ·) = 6 ∧
      Mealy.Along (@step PriceSum.int64) (fun e cmd => ¬ e.TakesOut o cmd)
        (@after PriceSum.int64 setup) cmds := by
  refine ⟨by decide, by decide, ?_⟩
  exact (@kept_iff PriceSum.int64 [.add ⟨1, 1, .aapl, .buy, 100, 10⟩]
    [.cancel ⟨1, 2, .aapl⟩, .add ⟨2, 2, .aapl, .sell, 99, 4⟩] ⟨⟨1, 1, 10⟩, .buy, 100⟩
    (by decide)).mp (by decide)

/-- User 2 rests an order under the id, side and price of the order of user 1 and cancels it: the
order of user 1 is gone from the book, and nothing was traded. -/
theorem order_taken_out_by_other_user :
    let setup : List InboundCommand := [.add ⟨1, 1, .aapl, .buy, 100, 10⟩]
    let cmds : List InboundCommand := [.add ⟨1, 2, .aapl, .buy, 100, 1⟩, .cancel ⟨1, 2, .aapl⟩]
    let o : LiveOrder := ⟨⟨1, 1, 10⟩, .buy, 100⟩
    o ∈ (@after PriceSum.int64 setup).orders ∧ (∀ cmd ∈ cmds, cmd.userId ≠ o.userId) ∧
      (@after PriceSum.int64 setup).restingVolume (o.Alike ·) = o.volume ∧
      (@after PriceSum.int64 (setup ++ cmds)).restingVolume (o.Alike ·) = 0 ∧
      (Mealy.run (@step PriceSum.int64) (@after PriceSum.int64 setup) cmds).2 = [] := by
  decide

end MatchingEngine

end ToyExchange
