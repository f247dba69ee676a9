import ToyExchange.Engine.OrderIndex

/-!
# The engine refines a naive price-time-priority exchange

The naive exchange is what the engine is for, without its data structures: one list of live
orders in the order of their arrival.  An incoming order repeatedly picks the best order it may
trade with, the earliest among equals; a remainder joins the list at the end; a cancel deletes
the order with its id if the user is its owner.

`refines` says that on every sequence of commands in which no add carries the id of an order
that rests at the time, the engine emits the same trades, and after every command its two books,
read best price first and front to back, are the live orders of the naive exchange sorted by
price and then by arrival.

The simulation relation is `Simulates`.  Its main step is `fill_eq_fillAgainst`: picking the best
order of the arrival list again and again is draining the sorted list from its front.
-/

namespace ToyExchange

open StableSort

/-- The orders of one side, best price first, and in their order of arrival within a price. -/
def Side.sorted (s : Side) (live : List LiveOrder) : List LiveOrder :=
  stableSort s.before LiveOrder.price (live.filter fun o => o.side = s)

namespace NaiveExchange

/-- The incoming order may trade with the live order. -/
def MayTrade (order : OrderAdd) (o : LiveOrder) : Prop :=
  o.side = order.side.opposite ∧ order.side.crosses order.price o.price

instance (order : OrderAdd) : DecidablePred (MayTrade order) := fun o =>
  inferInstanceAs (Decidable (o.side = order.side.opposite ∧
    order.side.crosses order.price o.price))

/-- The best-priced order the incoming one may trade with, the earliest among equals. -/
def pick (order : OrderAdd) (live : List LiveOrder) : Option LiveOrder :=
  best order.side.opposite.before LiveOrder.price (live.filter (MayTrade order))

/-- The live orders after a trade with one of them: it is dropped when it is exhausted. -/
def take (live : List LiveOrder) (o : LiveOrder) (traded : ℤ) : List LiveOrder :=
  if o.volume - traded = 0 then live.erase o
  else live.replace o { o with volume := o.volume - traded }

/-- What filling an incoming order leaves behind. -/
structure Filled where
  live : List LiveOrder
  remaining : ℤ
  trades : List Trade

lemma mem_of_pick {order : OrderAdd} {live : List LiveOrder} {o : LiveOrder}
    (h : pick order live = some o) : o ∈ live := List.mem_of_mem_filter (mem_of_best h)

/-- Fill an incoming order against the live orders while volume remains. -/
def fill (order : OrderAdd) (live : List LiveOrder) (remaining : ℤ) : Filled :=
  if _hpos : 0 < remaining then
    match _hpick : pick order live with
    | none => ⟨live, remaining, []⟩
    | some o =>
      let traded := min remaining o.volume
      let m := fill order (take live o traded) (remaining - traded)
      { m with trades := o.tradeWith order traded :: m.trades }
  else ⟨live, remaining, []⟩
termination_by (live.length, remaining.toNat)
decreasing_by
  rw [Prod.lex_def]
  have hmem : o ∈ live := mem_of_pick _hpick
  unfold take
  split_ifs with hdone
  · left
    rw [List.length_erase_of_mem hmem]
    have hlength := List.length_pos_of_mem hmem
    omega
  · right
    rw [List.length_replace]
    exact ⟨rfl, by omega⟩

/-- An add: fill the order and append a positive remainder. -/
def onOrderAdd (live : List LiveOrder) (order : OrderAdd) : List LiveOrder × List Trade :=
  let m := fill order live order.volume
  (if 0 < m.remaining then m.live ++ [LiveOrder.ofAdd order m.remaining] else m.live, m.trades)

/-- A cancel: delete the order with the id if the user is its owner. -/
def onOrderCancel (live : List LiveOrder) (cancel : OrderCancel) : List LiveOrder :=
  live.filter fun o => ¬ (o.orderId = cancel.orderId ∧ o.userId = cancel.userId)

/-- One command given to the naive exchange, and the trades it causes. -/
def step (live : List LiveOrder) : InboundCommand → List LiveOrder × List Trade
  | .add order => onOrderAdd live order
  | .cancel request => (onOrderCancel live request, [])

/-- The live orders after a sequence of commands, in the order of their arrival. -/
def after (cmds : List InboundCommand) : List LiveOrder := (Mealy.run step [] cmds).1

/-- The trades caused by a sequence of commands. -/
def tradesOf (cmds : List InboundCommand) : List Trade := (Mealy.run step [] cmds).2

section Filling

variable {order : OrderAdd} {live : List LiveOrder} {remaining : ℤ} {o : LiveOrder}

lemma fill_of_not_pos (h : ¬ 0 < remaining) :
    fill order live remaining = ⟨live, remaining, []⟩ := by
  rw [fill, dif_neg h]

lemma fill_of_none (h : pick order live = none) :
    fill order live remaining = ⟨live, remaining, []⟩ := by
  rw [fill]
  split_ifs
  · split
    · rfl
    · simp_all
  · rfl

lemma fill_of_some (hpos : 0 < remaining) (h : pick order live = some o) :
    fill order live remaining =
      ⟨(fill order (take live o (min remaining o.volume))
          (remaining - min remaining o.volume)).live,
        (fill order (take live o (min remaining o.volume))
          (remaining - min remaining o.volume)).remaining,
        o.tradeWith order (min remaining o.volume) ::
          (fill order (take live o (min remaining o.volume))
            (remaining - min remaining o.volume)).trades⟩ := by
  rw [fill, dif_pos hpos]
  split
  · simp_all
  · rename_i o' ho'
    obtain rfl : o' = o := Option.some.inj (ho'.symm.trans h)
    rfl

end Filling

end NaiveExchange

/-! ## Sorting and the naive operations -/

namespace Side

/-- Selecting orders commutes with sorting a side. -/
lemma sorted_filter (s : Side) (q : LiveOrder → Bool) (live : List LiveOrder) :
    s.sorted (live.filter q) = (s.sorted live).filter q := by
  unfold sorted
  rw [filter_stableSort, List.filter_filter, List.filter_filter]
  simp only [Bool.and_comm]

/-- Changing orders without changing their sides and prices commutes with sorting a side. -/
lemma sorted_map (s : Side) {f : LiveOrder → LiveOrder} (hside : ∀ o, (f o).side = o.side)
    (hprice : ∀ o, (f o).price = o.price) (live : List LiveOrder) :
    s.sorted (live.map f) = (s.sorted live).map f := by
  unfold sorted
  rw [map_stableSort hprice, List.filter_map]
  simp only [Function.comp_def, hside]

/-- An order that arrives goes behind its equals on its own side. -/
lemma sorted_concat (s : Side) (live : List LiveOrder) (o : LiveOrder) :
    s.sorted (live ++ [o]) =
      if o.side = s then (s.sorted live).orderedInsert (Before s.before LiveOrder.price) o
      else s.sorted live := by
  unfold sorted
  rw [List.filter_append]
  split_ifs with hs
  · rw [← stableSort_concat]
    simp [hs]
  · simp [hs]

lemma mem_sorted {s : Side} {live : List LiveOrder} {o : LiveOrder} :
    o ∈ s.sorted live ↔ o ∈ live ∧ o.side = s := by
  rw [sorted, (stableSort_perm _).mem_iff, List.mem_filter, decide_eq_true_iff]

lemma nodup_sorted (s : Side) {live : List LiveOrder} (h : live.Nodup) : (s.sorted live).Nodup :=
  (stableSort_perm _).nodup_iff.mpr (h.filter _)

/-- The two sorted sides are all the live orders. -/
lemma sorted_append_perm (live : List LiveOrder) :
    (Side.buy.sorted live ++ Side.sell.sorted live).Perm live := by
  refine ((stableSort_perm _).append (stableSort_perm _)).trans ?_
  have hsell : live.filter (fun o => o.side = .sell) =
      live.filter fun o => !decide (o.side = .buy) := by
    refine List.filter_congr fun o _ => ?_
    cases o.side <;> rfl
  rw [hsell]
  exact List.filter_append_perm _ live

end Side

/-- Replacing an order where it does not stand changes nothing. -/
lemma map_replace_of_notMem {live : List LiveOrder} {o : LiveOrder} (h : o ∉ live)
    (o' : LiveOrder) : live.map (fun x => if x = o then o' else x) = live := by
  refine (List.map_congr_left fun x hx => ?_).trans (List.map_id live)
  have hne : x ≠ o := fun heq => h (heq ▸ hx)
  exact if_neg hne

/-- Replacing an order that stands once changes it at its place. -/
lemma replace_eq_map_of_nodup {live : List LiveOrder} (h : live.Nodup) (o o' : LiveOrder) :
    live.replace o o' = live.map fun x => if x = o then o' else x := by
  induction live with
  | nil => rfl
  | cons a live ih =>
    obtain ⟨ha, hrest⟩ := List.nodup_cons.mp h
    rw [List.map_cons]
    by_cases hao : a = o
    · subst hao
      rw [List.replace_cons_self, if_pos rfl, map_replace_of_notMem ha]
    · have hbeq : (o == a) = false := beq_eq_false_iff_ne.mpr fun heq => hao heq.symm
      rw [List.replace_cons, hbeq, if_neg hao, ih hrest]

namespace NaiveExchange

variable {order : OrderAdd} {live : List LiveOrder}

/-- What is picked is the front of the sorted opposite side, if it crosses. -/
lemma pick_eq_head? (order : OrderAdd) (live : List LiveOrder) :
    pick order live = ((order.side.opposite.sorted live).filter
      fun o => order.side.crosses order.price o.price).head? := by
  unfold pick
  rw [← head?_stableSort, Side.sorted, filter_stableSort, List.filter_filter]
  refine congrArg (fun l => (stableSort _ _ l).head?) (List.filter_congr fun o _ => ?_)
  rw [Bool.eq_iff_iff, Bool.and_eq_true, decide_eq_true_iff, decide_eq_true_iff,
    decide_eq_true_iff, and_comm]
  exact Iff.rfl

/-- Nothing is picked when the front of the sorted opposite side does not cross. -/
lemma pick_eq_none_of_head {o : LiveOrder} {rest : List LiveOrder}
    (hsorted : order.side.opposite.sorted live = o :: rest)
    (hcross : ¬ order.side.crosses order.price o.price) : pick order live = none := by
  have hpairwise : (order.side.opposite.sorted live).Pairwise
      (AtLeast order.side.opposite.before LiveOrder.price) := pairwise_stableSort _
  rw [hsorted] at hpairwise
  have hbest : ∀ o' ∈ o :: rest, ¬ order.side.crosses order.price o'.price := by
    intro o' ho'
    rw [Side.crosses_iff, not_not] at hcross ⊢
    rcases List.mem_cons.mp ho' with rfl | hmem
    · exact hcross
    · exact Side.before_of_before_of_not hcross ((List.pairwise_cons.mp hpairwise).1 o' hmem)
  rw [pick_eq_head?, hsorted, List.filter_eq_nil_iff.mpr]
  · rfl
  · intro o' ho'
    rw [decide_eq_true_iff]
    exact hbest o' ho'

lemma pick_eq_some_of_head {o : LiveOrder} {rest : List LiveOrder}
    (hsorted : order.side.opposite.sorted live = o :: rest)
    (hcross : order.side.crosses order.price o.price) : pick order live = some o := by
  rw [pick_eq_head?, hsorted, List.filter_cons_of_pos (by simpa using hcross), List.head?_cons]

/-- Dropping an exhausted order drops it from its sorted side and leaves the other side. -/
lemma sorted_erase {s : Side} {o : LiveOrder} {rest : List LiveOrder} (hnodup : live.Nodup)
    (hsorted : s.opposite.sorted live = o :: rest) :
    s.opposite.sorted (live.erase o) = rest ∧ s.sorted (live.erase o) = s.sorted live := by
  have hside : o.side = s.opposite := (Side.mem_sorted.mp (hsorted ▸ List.mem_cons_self ..)).2
  have hrest : o ∉ rest := (List.nodup_cons.mp (hsorted ▸ s.opposite.nodup_sorted hnodup)).1
  rw [hnodup.erase_eq_filter, Side.sorted_filter, Side.sorted_filter, hsorted]
  constructor
  · rw [List.filter_cons_of_neg (by simp), List.filter_eq_self.mpr fun x hx => ?_]
    rw [bne_iff_ne]
    exact fun heq => hrest (heq ▸ hx)
  · refine List.filter_eq_self.mpr fun x hx => ?_
    rw [bne_iff_ne]
    intro heq
    have hx : x.side = s := (Side.mem_sorted.mp hx).2
    rw [heq, hside] at hx
    exact s.opposite_ne hx

/-- Reducing an order changes it at its place in its sorted side and leaves the other side. -/
lemma sorted_replace {s : Side} {o : LiveOrder} {rest : List LiveOrder} (hnodup : live.Nodup)
    (hsorted : s.opposite.sorted live = o :: rest) (v : ℤ) :
    s.opposite.sorted (live.replace o { o with volume := v }) =
        { o with volume := v } :: rest ∧
      s.sorted (live.replace o { o with volume := v }) = s.sorted live := by
  have hside : o.side = s.opposite := (Side.mem_sorted.mp (hsorted ▸ List.mem_cons_self ..)).2
  have hrest : o ∉ rest := (List.nodup_cons.mp (hsorted ▸ s.opposite.nodup_sorted hnodup)).1
  rw [replace_eq_map_of_nodup hnodup, Side.sorted_map, Side.sorted_map, hsorted]
  · refine ⟨?_, map_replace_of_notMem (fun hmem => ?_) _⟩
    · rw [List.map_cons, if_pos rfl, map_replace_of_notMem hrest]
    · rw [Side.mem_sorted, hside] at hmem
      exact s.opposite_ne hmem.2
  all_goals
    intro x
    split_ifs with heq
    · rw [heq]
    · rfl

/-- Picking the best order of the arrival list again and again drains the sorted list. -/
theorem fill_eq_fillAgainst {sorted : List LiveOrder}
    (hsorted : order.side.opposite.sorted live = sorted) (hnodup : live.Nodup) (remaining : ℤ) :
    order.side.opposite.sorted (fill order live remaining).live =
        (fillAgainst order sorted remaining).rest ∧
      order.side.sorted (fill order live remaining).live = order.side.sorted live ∧
      (fill order live remaining).remaining = (fillAgainst order sorted remaining).left ∧
      (fill order live remaining).trades =
        tradesWith order (fillAgainst order sorted remaining).taken := by
  induction sorted generalizing live remaining with
  | nil =>
    have hpick : pick order live = none := by rw [pick_eq_head?, hsorted]; rfl
    rw [fill_of_none hpick]
    exact ⟨hsorted, rfl, rfl, rfl⟩
  | cons o rest ih =>
    by_cases hpos : 0 < remaining
    swap
    · rw [fill_of_not_pos hpos, fillAgainst_of_not_pos hpos]
      exact ⟨hsorted, rfl, rfl, rfl⟩
    by_cases hcross : order.side.crosses order.price o.price
    swap
    · have hstop : fillAgainst order (o :: rest) remaining = ⟨o :: rest, remaining, [], []⟩ := by
        refine Stock.drain_of_stop fun _ a ha => ?_
        rw [List.head?_cons, Option.mem_some_iff] at ha
        exact ha ▸ hcross
      rw [fill_of_none (pick_eq_none_of_head hsorted hcross), hstop]
      exact ⟨hsorted, rfl, rfl, rfl⟩
    rw [fill_of_some hpos (pick_eq_some_of_head hsorted hcross)]
    rcases le_or_gt o.volume remaining with hle | hlt
    · -- the front order is exhausted and dropped
      obtain ⟨hopposite, hown⟩ := sorted_erase hnodup hsorted
      obtain ⟨ihrest, ihown, ihleft, ihtrades⟩ :=
        ih hopposite (hnodup.erase o) (remaining - o.volume)
      rw [min_eq_right hle, take, if_pos (sub_self _), fillAgainst_cons_of_le hpos hcross hle]
      exact ⟨ihrest, ihown.trans hown, ihleft,
        congrArg (o.tradeWith order o.volume :: ·) ihtrades⟩
    · -- the incoming order is exhausted and the front order keeps its place
      obtain ⟨hopposite, hown⟩ := sorted_replace hnodup hsorted (o.volume - remaining)
      have hleft : o.volume - remaining ≠ 0 := by omega
      rw [min_eq_left hlt.le, take, if_neg hleft, sub_self, fill_of_not_pos (lt_irrefl 0),
        fillAgainst_cons_of_lt hpos hcross hlt]
      exact ⟨hopposite, hown, rfl, rfl⟩

end NaiveExchange

/-! ## The simulation -/

namespace MatchingEngine

/-- The command is a cancel, or an add whose id no resting order has. -/
def FreshId (e : MatchingEngine) : InboundCommand → Prop
  | .add order => ∀ o ∈ e.orders, o.orderId ≠ order.orderId
  | .cancel _ => True

instance (e : MatchingEngine) : DecidablePred e.FreshId
  | .add order => inferInstanceAs (Decidable (∀ o ∈ e.orders, o.orderId ≠ order.orderId))
  | .cancel _ => inferInstanceAs (Decidable True)

/-- The engine stands for a naive exchange with these live orders. -/
structure Simulates (e : MatchingEngine) (live : List LiveOrder) : Prop where
  sound : e.Sound
  linked : e.Linked
  /-- Each side of the book is the live orders of that side, sorted by price and arrival. -/
  sorted : ∀ s : Side, e.live s = s.sorted live

/-- Inserting a live order by its own side. -/
lemma orderedInsert_precedes (o : LiveOrder) (l : List LiveOrder) :
    l.orderedInsert LiveOrder.Precedes o =
      l.orderedInsert (Before o.side.before LiveOrder.price) o := by
  induction l with
  | nil => rfl
  | cons b l ih =>
    rw [List.orderedInsert_cons, List.orderedInsert_cons, ih]
    rfl

lemma Simulates.orders_perm {e : MatchingEngine} {live : List LiveOrder} (h : e.Simulates live) :
    e.orders.Perm live := by
  rw [orders, h.sorted, h.sorted]
  exact Side.sorted_append_perm live

/-- An add that does not carry the id of a resting order reuses no live id. -/
lemma FreshId.not_reusesLiveId {e : MatchingEngine} {cmd : InboundCommand}
    (h : e.FreshId cmd) :
    ¬ e.ReusesLiveId cmd := by
  cases cmd with
  | add order =>
    rintro ⟨-, o, ho, hid, -⟩
    exact h o ho hid
  | cancel request => exact id

lemma simulates_empty : empty.Simulates [] :=
  ⟨sound_empty, Represents.nil, fun s => by cases s <;> rfl⟩

section Steps

variable [PriceSum] {e : MatchingEngine} {live : List LiveOrder}

lemma simulates_onOrderAdd (h : e.Simulates live) {order : OrderAdd}
    (hfresh : e.FreshId (.add order)) :
    (e.onOrderAdd order).1.Simulates (NaiveExchange.onOrderAdd live order).1 ∧
      (e.onOrderAdd order).2 = (NaiveExchange.onOrderAdd live order).2 := by
  have hempty := h.sound.noEmptyLevel
  have hnodup : live.Nodup := h.orders_perm.nodup_iff.mp h.linked.nodup_orders
  obtain ⟨hopposite, hown, hleft, htrades⟩ := NaiveExchange.fill_eq_fillAgainst
    (h.sorted order.side.opposite).symm hnodup order.volume
  have hfill : fillAgainst order (e.live order.side.opposite) order.volume = e.fill order := rfl
  rw [hfill] at hopposite hleft htrades
  refine ⟨⟨sound_onOrderAdd h.sound order, ?_, fun s => ?_⟩, ?_⟩
  · exact (linked_step_iff h.sound h.linked (.add order)).mpr hfresh.not_reusesLiveId
  · unfold NaiveExchange.onOrderAdd
    simp only [hleft]
    rcases order.side.eq_or_eq_opposite s with rfl | rfl
    · rw [live_side_onOrderAdd hempty, h.sorted, ← hown]
      split_ifs
      · have hside : (LiveOrder.ofAdd order (e.fill order).left).side = order.side := rfl
        rw [Side.sorted_concat, if_pos hside, orderedInsert_precedes]
        rfl
      · rfl
    · rw [live_opposite_onOrderAdd hempty, ← hopposite]
      split_ifs
      · have hside : (LiveOrder.ofAdd order (e.fill order).left).side ≠ order.side.opposite :=
          order.side.opposite_ne.symm
        rw [Side.sorted_concat, if_neg hside]
      · rfl
  · rw [trades_onOrderAdd hempty, ← htrades]
    rfl

lemma simulates_onOrderCancel (h : e.Simulates live) (request : OrderCancel) :
    (e.onOrderCancel request).Simulates (NaiveExchange.onOrderCancel live request) := by
  refine ⟨sound_onOrderCancel h.sound request, linked_onOrderCancel h.linked request, fun s => ?_⟩
  unfold NaiveExchange.onOrderCancel
  rw [Side.sorted_filter, ← h.sorted s]
  by_cases haccepts : ∃ location, e.Accepts request location
  · obtain ⟨location, haccepts⟩ := haccepts
    rw [live_onOrderCancel haccepts]
    refine List.filter_congr fun o ho => decide_eq_decide.mpr (not_congr ?_)
    -- by the index, the only order with this id rests at the recorded location
    have hlookup : o.orderId = request.orderId → location = o.location := by
      intro hid
      have hindex := h.linked.lookup_of_mem (mem_orders.mpr ((side_of_mem_live ho).symm ▸ ho))
      rw [hid, haccepts.1] at hindex
      exact Option.some.inj hindex
    constructor
    · rintro ⟨hid, -, -⟩
      have hlocation := hlookup hid
      exact ⟨hid, by rw [← haccepts.2, hlocation]; rfl⟩
    · rintro ⟨hid, -⟩
      rw [hlookup hid]
      exact ⟨hid, rfl, rfl⟩
  · rw [onOrderCancel_of_not_accepts fun location hl => haccepts ⟨location, hl⟩]
    symm
    refine List.filter_eq_self.mpr fun o ho => ?_
    rw [decide_eq_true_iff]
    rintro ⟨hid, huser⟩
    have hindex := h.linked.lookup_of_mem (mem_orders.mpr ((side_of_mem_live ho).symm ▸ ho))
    exact haccepts ⟨o.location, by rw [← hid]; exact hindex, huser⟩

/-- One command. -/
theorem simulates_step (h : e.Simulates live) {cmd : InboundCommand} (hfresh : e.FreshId cmd) :
    (e.step cmd).1.Simulates (NaiveExchange.step live cmd).1 ∧
      (e.step cmd).2 = (NaiveExchange.step live cmd).2 := by
  cases cmd with
  | add order => exact simulates_onOrderAdd h hfresh
  | cancel request => exact ⟨simulates_onOrderCancel h request, rfl⟩

/-- **The engine refines the naive exchange.**  On every sequence of commands in which no add
carries the id of an order resting at that time, the engine and the naive exchange emit the same
trades in the same order, and after each command both sides of the book, read best price first
and front to back, are the naive exchange's live orders sorted by price and arrival. -/
theorem refines (cmds : List InboundCommand) (h : Mealy.Along step FreshId empty cmds) :
    tradesOf cmds = NaiveExchange.tradesOf cmds ∧
      ∀ pre, pre <+: cmds → ∀ s : Side,
        (after pre).live s = s.sorted (NaiveExchange.after pre) := by
  have hstep : ∀ (e : MatchingEngine) live cmd, e.Simulates live → e.FreshId cmd →
      (e.step cmd).1.Simulates (NaiveExchange.step live cmd).1 ∧
        (e.step cmd).2 = (NaiveExchange.step live cmd).2 :=
    fun _ _ _ hsim hfresh => simulates_step hsim hfresh
  have hrun : ∀ pre, pre <+: cmds →
      (after pre).Simulates (NaiveExchange.after pre) ∧
        tradesOf pre = NaiveExchange.tradesOf pre := by
    intro pre hpre
    exact Mealy.run_simulation hstep simulates_empty (h.of_prefix hpre)
  exact ⟨(hrun cmds (List.prefix_refl cmds)).2, fun pre hpre => (hrun pre hpre).1.sorted⟩

end Steps

/-- A buy of 7 takes the better ask whole and a part of the other, whose rest is cancelled; the
naive exchange prints the same two trades. -/
theorem refines_two_asks :
    let cmds : List InboundCommand := [.add ⟨1, 1, .aapl, .sell, 101, 5⟩,
      .add ⟨2, 2, .aapl, .sell, 100, 4⟩, .add ⟨3, 3, .aapl, .buy, 101, 7⟩, .cancel ⟨1, 1, .aapl⟩]
    Mealy.Along (@step PriceSum.int64) FreshId empty cmds ∧
      NaiveExchange.tradesOf cmds =
        [⟨2, 3, 2, 3, .aapl, .buy, 100, 4⟩, ⟨1, 3, 1, 3, .aapl, .buy, 101, 3⟩] := by
  refine ⟨by decide, ?_⟩
  rw [← (@refines PriceSum.int64 _ (by decide)).1]
  decide

end MatchingEngine

end ToyExchange
