import ToyExchange.Engine.MidPrice

/-!
# Cancels undo passive adds

Orders that cross nothing only rest.  `AddedTo e adds e'` says that the engine `e'` is `e` with the
orders of some adds resting in it: without the orders of their ids it has the live orders of `e`,
and its index has their entries besides those of `e`.  The adds are listed in no particular order
(`AddedTo.perm`).

An add puts one more order on the list (`AddedTo.onOrderAdd`), and a cancel by its owner takes it
off, wherever it stands there (`AddedTo.onOrderCancel`).  With nothing on the list the engine is `e`
again, up to the mid price (`AddedTo.books_eq`); and the mid price of a book with orders is
determined by the book.
-/

namespace ToyExchange

/-- The ids of a list of adds. -/
def addIds (adds : List OrderAdd) : List ℤ := adds.map fun a => a.orderId

@[simp] lemma addIds_nil : addIds [] = [] := rfl

@[simp] lemma addIds_cons (a : OrderAdd) (adds : List OrderAdd) :
    addIds (a :: adds) = a.orderId :: addIds adds := rfl

lemma addIds_perm {adds adds' : List OrderAdd} (h : adds.Perm adds') :
    (addIds adds).Perm (addIds adds') := h.map _

namespace MatchingEngine

/-- Adds to one side that only rest, under ids that are not in use. -/
structure Passive (e : MatchingEngine) (side : Side) (adds : List OrderAdd) : Prop where
  side_eq : ∀ a ∈ adds, a.side = side
  volume_pos : ∀ a ∈ adds, 0 < a.volume
  crosses_nothing : ∀ a ∈ adds, ∀ o ∈ e.live side.opposite, ¬ side.crosses a.price o.price
  nodup : (addIds adds).Nodup
  not_resting : ∀ a ∈ adds, ∀ o ∈ e.orders, o.orderId ≠ a.orderId
  not_indexed : ∀ a ∈ adds, e.orderIndex a.orderId = none

/-- The engine `e'` is `e` with the orders of some adds resting in it. -/
structure AddedTo (e : MatchingEngine) (adds : List OrderAdd) (e' : MatchingEngine) : Prop where
  noEmptyLevel : e'.NoEmptyLevel
  /-- Without the orders of the ids of the adds, the live orders are those of `e`. -/
  kept : ∀ s, (e'.live s).filter (fun o => o.orderId ∉ addIds adds) = e.live s
  /-- An order with the id of an add rests where the add has put it. -/
  placed : ∀ o ∈ e'.orders, ∀ a ∈ adds, o.orderId = a.orderId → o.side = a.side ∧ o.price = a.price
  /-- The adds have their entries. -/
  indexed : ∀ a ∈ adds, e'.orderIndex a.orderId = some ⟨a.side, a.price, a.userId⟩
  /-- The other entries are those of `e`. -/
  unindexed : ∀ i ∉ addIds adds, e'.orderIndex i = e.orderIndex i

/-! ## An add that only rests -/

section Rests

variable {e : MatchingEngine} {order : OrderAdd}

/-- An order that crosses nothing is not filled at all. -/
lemma fill_of_passive (hpassive : ∀ o ∈ e.live order.side.opposite,
    ¬ order.side.crosses order.price o.price) :
    e.fill order = ⟨e.live order.side.opposite, order.volume, [], []⟩ :=
  Stock.drain_of_stop fun _ o ho => hpassive o (List.mem_of_mem_head? ho)

/-- An order that crosses nothing causes no trade and rests with all its volume. -/
lemma onOrderAdd_of_passive [PriceSum] (he : e.NoEmptyLevel) (hpos : 0 < order.volume)
    (hpassive : ∀ o ∈ e.live order.side.opposite, ¬ order.side.crosses order.price o.price) :
    (e.onOrderAdd order).2 = [] ∧
      (e.onOrderAdd order).1.live order.side.opposite = e.live order.side.opposite ∧
      (e.onOrderAdd order).1.live order.side = (e.live order.side).orderedInsert
        LiveOrder.Precedes (LiveOrder.ofAdd order order.volume) ∧
      (e.onOrderAdd order).1.orderIndex =
        e.orderIndex.insert order.orderId ⟨order.side, order.price, order.userId⟩ := by
  rw [trades_onOrderAdd he, live_opposite_onOrderAdd he, live_side_onOrderAdd he,
    orderIndex_onOrderAdd he, fill_of_passive hpassive]
  exact ⟨rfl, rfl, if_pos hpos, if_pos hpos⟩

/-- The orders after an add that only rests are those of before and the new one. -/
lemma mem_orders_onOrderAdd_of_passive [PriceSum] (he : e.NoEmptyLevel) (hpos : 0 < order.volume)
    (hpassive : ∀ o ∈ e.live order.side.opposite, ¬ order.side.crosses order.price o.price)
    {o : LiveOrder} (ho : o ∈ (e.onOrderAdd order).1.orders) :
    o ∈ e.orders ∨ o = LiveOrder.ofAdd order order.volume := by
  obtain ⟨-, hopposite, hside, -⟩ := onOrderAdd_of_passive he hpos hpassive
  rw [mem_orders] at ho
  rcases order.side.eq_or_eq_opposite o.side with hs | hs
  · rw [hs, hside] at ho
    rcases (List.mem_orderedInsert _).mp ho with ho | ho
    · exact Or.inr ho
    · exact Or.inl (mem_orders.mpr (hs.symm ▸ ho))
  · rw [hs, hopposite] at ho
    exact Or.inl (mem_orders.mpr (hs.symm ▸ ho))

end Rests

namespace AddedTo

variable {e e' : MatchingEngine} {adds : List OrderAdd}

/-- Nothing was added yet. -/
lemma nil (he : e.NoEmptyLevel) : AddedTo e [] e where
  noEmptyLevel := he
  kept s := List.filter_eq_self.mpr fun o _ => by simp
  placed o _ a ha := by cases ha
  indexed a ha := by cases ha
  unindexed _ _ := rfl

/-- The order in which the adds are listed does not matter. -/
lemma perm (h : AddedTo e adds e') {adds' : List OrderAdd} (hperm : adds.Perm adds') :
    AddedTo e adds' e' where
  noEmptyLevel := h.noEmptyLevel
  kept s := by
    simp only [← (addIds_perm hperm).mem_iff]
    exact h.kept s
  placed o ho a ha := h.placed o ho a (hperm.mem_iff.mpr ha)
  indexed a ha := h.indexed a (hperm.mem_iff.mpr ha)
  unindexed i hi := h.unindexed i fun hmem => hi ((addIds_perm hperm).mem_iff.mp hmem)

/-- A live order is one of before or has the id of an add. -/
lemma mem_or (h : AddedTo e adds e') {o : LiveOrder} (ho : o ∈ e'.orders) :
    o ∈ e.orders ∨ o.orderId ∈ addIds adds := by
  by_cases hid : o.orderId ∈ addIds adds
  · exact Or.inr hid
  · left
    rw [mem_orders] at ho ⊢
    rw [← h.kept]
    exact List.mem_filter.mpr ⟨ho, decide_eq_true hid⟩

/-- An id that is not in use may be left out as well. -/
lemma kept_cons (h : AddedTo e adds e') {a : OrderAdd}
    (hresting : ∀ o ∈ e.orders, o.orderId ≠ a.orderId) (s : Side) :
    (e'.live s).filter (fun o => o.orderId ∉ addIds (a :: adds)) = e.live s := by
  have hfilter : (e.live s).filter (fun o => o.orderId ≠ a.orderId) = e.live s := by
    rw [List.filter_eq_self]
    intro o ho
    exact decide_eq_true (hresting o (mem_orders.mpr ((side_of_mem_live ho).symm ▸ ho)))
  rw [← hfilter, ← h.kept s, List.filter_filter]
  refine List.filter_congr fun o _ => ?_
  simp

/-- The side opposite to the adds is as it was. -/
lemma live_opposite (h : AddedTo e adds e') {side : Side} (hside : ∀ a ∈ adds, a.side = side) :
    e'.live side.opposite = e.live side.opposite := by
  rw [← h.kept, eq_comm, List.filter_eq_self]
  intro o ho
  rw [decide_eq_true_iff]
  intro hid
  obtain ⟨a, ha, heq⟩ := List.mem_map.mp hid
  have hos : o.side = side.opposite := side_of_mem_live ho
  have hplaced := (h.placed o (mem_orders.mpr (hos ▸ ho)) a ha heq.symm).1
  rw [hside a ha, hos] at hplaced
  exact side.opposite_ne hplaced

/-- With no adds on top, the books and the index are those of before. -/
lemma books_eq (h : AddedTo e [] e') (he : e.NoEmptyLevel) :
    e'.bids = e.bids ∧ e'.asks = e.asks ∧ e'.orderIndex = e.orderIndex := by
  have hlevels : ∀ s, e'.levels s = e.levels s := by
    intro s
    apply levels_eq_of_live_eq h.noEmptyLevel he
    rw [← h.kept s]
    exact (List.filter_eq_self.mpr fun o _ => by simp).symm
  refine ⟨FlatMap.ext (hlevels .buy), FlatMap.ext (hlevels .sell), ?_⟩
  funext i
  exact h.unindexed i List.not_mem_nil

variable [PriceSum]

/-- One more add that only rests, under an id that is not in use. -/
lemma onOrderAdd (h : AddedTo e adds e') {a : OrderAdd} (hsides : ∀ b ∈ adds, b.side = a.side)
    (hpos : 0 < a.volume)
    (hpassive : ∀ o ∈ e.live a.side.opposite, ¬ a.side.crosses a.price o.price)
    (hnew : a.orderId ∉ addIds adds) (hresting : ∀ o ∈ e.orders, o.orderId ≠ a.orderId) :
    AddedTo e (a :: adds) (e'.onOrderAdd a).1 ∧ (e'.onOrderAdd a).2 = [] := by
  have hcrosses : ∀ o ∈ e'.live a.side.opposite, ¬ a.side.crosses a.price o.price :=
    (h.live_opposite hsides).symm ▸ hpassive
  obtain ⟨htrades, hopposite, hside, hindex⟩ :=
    onOrderAdd_of_passive h.noEmptyLevel hpos hcrosses
  refine ⟨⟨noEmptyLevel_onOrderAdd h.noEmptyLevel a, ?_, ?_, ?_, ?_⟩, htrades⟩
  · intro s
    rcases a.side.eq_or_eq_opposite s with rfl | rfl
    · rw [hside, StableSort.filter_orderedInsert_of_neg (by simp [LiveOrder.ofAdd])]
      exact h.kept_cons hresting a.side
    · rw [hopposite]
      exact h.kept_cons hresting a.side.opposite
  · intro o ho b hb hid
    have hcases := mem_orders_onOrderAdd_of_passive h.noEmptyLevel hpos hcrosses ho
    rcases List.mem_cons.mp hb with rfl | hb
    · rcases hcases with ho | rfl
      · rcases h.mem_or ho with ho | hmem
        · exact absurd hid (hresting o ho)
        · exact absurd (hid ▸ hmem) hnew
      · exact ⟨rfl, rfl⟩
    · rcases hcases with ho | rfl
      · exact h.placed o ho b hb hid
      · exact absurd (List.mem_map.mpr ⟨b, hb, hid.symm⟩) hnew
  · intro b hb
    rw [hindex, OrderIndex.insert, Function.update_apply]
    rcases List.mem_cons.mp hb with rfl | hb
    · exact if_pos rfl
    · rw [if_neg fun hid => hnew (List.mem_map.mpr ⟨b, hb, hid⟩)]
      exact h.indexed b hb
  · intro i hi
    obtain ⟨hne, hi⟩ : i ≠ a.orderId ∧ i ∉ addIds adds := by simpa using hi
    rw [hindex, OrderIndex.insert, Function.update_of_ne hne]
    exact h.unindexed i hi

/-- The owner of an add takes it out again. -/
lemma onOrderCancel {a : OrderAdd} (h : AddedTo e (a :: adds) e') (hnew : a.orderId ∉ addIds adds)
    (hindexed : e.orderIndex a.orderId = none) {cancel : OrderCancel}
    (hid : cancel.orderId = a.orderId) (huser : cancel.userId = a.userId) :
    AddedTo e adds (e'.onOrderCancel cancel) := by
  have haccepts : e'.Accepts cancel ⟨a.side, a.price, a.userId⟩ := by
    refine ⟨?_, huser.symm⟩
    rw [hid]
    exact h.indexed a (List.mem_cons_self ..)
  have hindex := orderIndex_onOrderCancel haccepts
  rw [hid] at hindex
  -- the cancel erases exactly the orders with the id of the add
  have herases : ∀ o ∈ e'.orders,
      (Erases cancel ⟨a.side, a.price, a.userId⟩ o ↔ o.orderId = a.orderId) := by
    intro o ho
    constructor
    · exact fun herases => herases.1.trans hid
    · intro heq
      exact ⟨heq.trans hid.symm, h.placed o ho a (List.mem_cons_self ..) heq⟩
  refine ⟨noEmptyLevel_onOrderCancel h.noEmptyLevel cancel, ?_, ?_, ?_, ?_⟩
  · intro s
    rw [live_onOrderCancel haccepts, List.filter_filter, ← h.kept s]
    refine List.filter_congr fun o ho => ?_
    have ho' : o ∈ e'.orders := mem_orders.mpr ((side_of_mem_live ho).symm ▸ ho)
    rw [Bool.eq_iff_iff]
    simp only [Bool.and_eq_true, decide_eq_true_eq, addIds_cons, List.mem_cons, not_or,
      herases o ho']
    exact and_comm
  · intro o ho b hb
    exact h.placed o ((orders_onOrderCancel_sublist e' cancel).mem ho) b (List.mem_cons_of_mem _ hb)
  · intro b hb
    rw [hindex, OrderIndex.erase_apply, if_neg fun heq => hnew (List.mem_map.mpr ⟨b, hb, heq⟩)]
    exact h.indexed b (List.mem_cons_of_mem _ hb)
  · intro i hi
    rw [hindex, OrderIndex.erase_apply]
    split_ifs with heq
    · rw [heq, hindexed]
    · exact h.unindexed i (List.not_mem_cons_of_ne_of_not_mem heq hi)

end AddedTo

/-! ## Runs of adds and of cancels -/

section Runs

variable {e e' : MatchingEngine} {side : Side} {adds : List OrderAdd}

lemma Passive.of_sublist (h : e.Passive side adds) {adds' : List OrderAdd}
    (hsub : adds'.Sublist adds) : e.Passive side adds' where
  side_eq a ha := h.side_eq a (hsub.mem ha)
  volume_pos a ha := h.volume_pos a (hsub.mem ha)
  crosses_nothing a ha := h.crosses_nothing a (hsub.mem ha)
  nodup := h.nodup.sublist (hsub.map _)
  not_resting a ha := h.not_resting a (hsub.mem ha)
  not_indexed a ha := h.not_indexed a (hsub.mem ha)

variable [PriceSum]

/-- Passive adds come to rest, one after the other, without a trade. -/
lemma addedTo_run_adds (he : e.NoEmptyLevel) (hpassive : e.Passive side adds) :
    AddedTo e adds (Mealy.run step e (adds.map .add)).1 ∧
      (Mealy.run step e (adds.map .add)).2 = [] := by
  induction adds using List.reverseRecOn with
  | nil => exact ⟨AddedTo.nil he, rfl⟩
  | append_singleton adds a ih =>
    have hbefore : e.Passive side adds := hpassive.of_sublist (List.sublist_append_left adds [a])
    have ha : a ∈ adds ++ [a] := List.mem_append_right _ (List.mem_singleton_self a)
    have hside : a.side = side := hpassive.side_eq a ha
    have hperm : (adds ++ [a]).Perm (a :: adds) := List.perm_append_singleton a adds
    have hnew : a.orderId ∉ addIds adds :=
      (List.nodup_cons.mp ((addIds_perm hperm).nodup_iff.mp hpassive.nodup)).1
    obtain ⟨h, htrades⟩ := ih hbefore
    obtain ⟨hadded, hnone⟩ := h.onOrderAdd
      (fun b hb => (hbefore.side_eq b hb).trans hside.symm) (hpassive.volume_pos a ha)
      (hside ▸ hpassive.crosses_nothing a ha) hnew (hpassive.not_resting a ha)
    rw [List.map_append, List.map_singleton, Mealy.run_concat_fst, Mealy.run_concat_snd, htrades]
    exact ⟨hadded.perm hperm.symm, hnone⟩

/-- Cancels by the owners of the adds, in any order, take all of them out. -/
lemma addedTo_run_cancels (hnodup : (addIds adds).Nodup)
    (hindexed : ∀ a ∈ adds, e.orderIndex a.orderId = none) (h : AddedTo e adds e')
    {cancels : List OrderCancel}
    (hperm : (cancels.map fun c => (c.orderId, c.userId)).Perm
      (adds.map fun a => (a.orderId, a.userId))) :
    AddedTo e [] (Mealy.run step e' (cancels.map .cancel)).1 ∧
      (Mealy.run step e' (cancels.map .cancel)).2 = [] := by
  induction cancels generalizing adds e' with
  | nil =>
    obtain rfl : adds = [] := List.map_eq_nil_iff.mp hperm.nil_eq.symm
    exact ⟨h, rfl⟩
  | cons c cancels ih =>
    -- the cancel is for one of the adds; the others remain
    have hmem : (c.orderId, c.userId) ∈ adds.map fun a => (a.orderId, a.userId) :=
      hperm.mem_iff.mp (List.mem_cons_self ..)
    obtain ⟨a, ha, hkey⟩ := List.mem_map.mp hmem
    obtain ⟨hid, huser⟩ := Prod.mk.inj hkey
    have hfirst : adds.Perm (a :: adds.erase a) := List.perm_cons_erase ha
    have hdistinct := List.nodup_cons.mp ((addIds_perm hfirst).nodup_iff.mp hnodup)
    have hrest : (cancels.map fun c => (c.orderId, c.userId)).Perm
        ((adds.erase a).map fun a => (a.orderId, a.userId)) := by
      have hboth := hperm.trans (hfirst.map fun a => (a.orderId, a.userId))
      rw [List.map_cons, List.map_cons, hkey] at hboth
      exact hboth.cons_inv
    have hout := (h.perm hfirst).onOrderCancel hdistinct.1 (hindexed a ha) hid.symm huser.symm
    exact ih hdistinct.2 (fun b hb => hindexed b (List.mem_of_mem_erase hb)) hout hrest

end Runs

/-- The mid price of a book with orders is determined by the book. -/
lemma midPrice_eq_top [PriceSum] {e : MatchingEngine} (he : e.NoEmptyLevel) (hfresh : e.Fresh)
    (horders : e.orders ≠ []) : e.midPrice = e.top := by
  rw [← hfresh]
  cases htop : e.top with
  | none => exact absurd ((top_eq_none_iff he).mp htop) horders
  | some price => rfl

/-- **Cancels undo passive adds in any order.**  In every state that commands can lead to, adds to
one side that cross nothing, with positive volumes and distinct ids that neither rest nor are
indexed, followed by cancels of the respective owners in any order, cause no trade and restore the
bids, the asks and the index; the mid price is restored if the book had any order before. -/
theorem cancels_undo_adds [PriceSum] (cmds : List InboundCommand) {side : Side}
    {adds : List OrderAdd} (hpassive : (after cmds).Passive side adds) {cancels : List OrderCancel}
    (hperm : (cancels.map fun c => (c.orderId, c.userId)).Perm
      (adds.map fun a => (a.orderId, a.userId))) :
    let e := after cmds
    let r := Mealy.run step e (adds.map .add ++ cancels.map .cancel)
    r.2 = [] ∧ r.1.bids = e.bids ∧ r.1.asks = e.asks ∧ r.1.orderIndex = e.orderIndex ∧
      (e.orders ≠ [] → r.1.midPrice = e.midPrice) := by
  intro e r
  have he : e.NoEmptyLevel := (sound_after cmds).noEmptyLevel
  obtain ⟨hadded, htrades⟩ := addedTo_run_adds he hpassive
  obtain ⟨hout, hnone⟩ :=
    addedTo_run_cancels hpassive.nodup hpassive.not_indexed hadded hperm
  have hstate : r.1 = (Mealy.run step (Mealy.run step e (adds.map .add)).1
      (cancels.map .cancel)).1 := Mealy.run_append_fst _ _ _
  rw [← hstate] at hout
  obtain ⟨hbids, hasks, hindex⟩ := hout.books_eq he
  refine ⟨?_, hbids, hasks, hindex, ?_⟩
  · exact (Mealy.run_append_snd _ _ _).trans (by rw [htrades, hnone]; rfl)
  · intro horders
    have hafter : r.1 = after (cmds ++ (adds.map .add ++ cancels.map .cancel)) :=
      (Mealy.run_append_fst _ _ _).symm
    have hsame : r.1.orders = e.orders := orders_eq_of_books hbids hasks
    have htop : r.1.top = e.top := by
      unfold top
      rw [hbids, hasks]
    rw [midPrice_eq_top he (fresh_after cmds) horders, ← htop]
    exact midPrice_eq_top hout.noEmptyLevel (hafter ▸ fresh_after _) (hsame ▸ horders)

/-- Two bids, one of them at a new best price, are added to a book with a bid and an ask, and the
later one is cancelled first. -/
theorem cancels_undo_two_bids :
    let cmds : List InboundCommand :=
      [.add ⟨1, 1, .aapl, .buy, 100, 5⟩, .add ⟨2, 2, .aapl, .sell, 110, 5⟩]
    let e := @after PriceSum.int64 cmds
    let r := Mealy.run (@step PriceSum.int64) e
      [.add ⟨3, 1, .aapl, .buy, 100, 7⟩, .add ⟨4, 3, .aapl, .buy, 105, 1⟩,
        .cancel ⟨4, 3, .aapl⟩, .cancel ⟨3, 1, .aapl⟩]
    r.2 = [] ∧ r.1.bids = e.bids ∧ r.1.asks = e.asks ∧ r.1.midPrice = e.midPrice := by
  intro cmds e r
  have hpassive : e.Passive .buy
      [⟨3, 1, .aapl, .buy, 100, 7⟩, ⟨4, 3, .aapl, .buy, 105, 1⟩] :=
    ⟨by decide, by decide, by decide, by decide, by decide, by decide⟩
  have h := @cancels_undo_adds PriceSum.int64 cmds .buy _ hpassive
    [⟨4, 3, .aapl⟩, ⟨3, 1, .aapl⟩] (List.Perm.swap ..)
  exact ⟨h.1, h.2.1, h.2.2.1, h.2.2.2.2 (by decide)⟩

end MatchingEngine

end ToyExchange
