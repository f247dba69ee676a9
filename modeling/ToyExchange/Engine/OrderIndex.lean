import ToyExchange.Engine.WellFormed
import ToyExchange.Foundations.Dict

/-!
# The order index and the book

A cancel looks its order up in `orderIndex`, which is keyed by an order id that the client
chooses and nothing checks for uniqueness.  This file settles when the index and the book agree.

`IndexAgrees` is the agreement as one would like to have it: every live order is indexed under
its id with its own location, and every entry names exactly one live order.  It is equivalent to
`Linked`: the index is the lookup function of the list of the live orders (`Represents`).

Only one thing can break it (`linked_step_iff`): an add that leaves a remainder, that is,
whose volume exceeds all it can trade, under the id of an order that is still live afterwards.
`ReusesLiveId` says so of the state before the add.  `indexAgrees_prefix_iff` is the resulting
characterisation of the runs in which index and book agree throughout.
-/

namespace ToyExchange

namespace LiveOrder

/-- The index entry an order should have. -/
def entry (o : LiveOrder) : ℤ × OrderLocation := (o.orderId, o.location)

@[simp] lemma entry_fst (o : LiveOrder) : o.entry.1 = o.orderId := rfl

end LiveOrder

namespace MatchingEngine

/-- The entries that the live orders should have. -/
def entries (e : MatchingEngine) : List (ℤ × OrderLocation) := e.orders.map LiveOrder.entry

/-- The order index is the lookup function of the live orders. -/
def Linked (e : MatchingEngine) : Prop := Represents e.orderIndex e.entries

/-- The order index and the book agree. -/
structure IndexAgrees (e : MatchingEngine) : Prop where
  /-- Every live order is indexed under its id, with its side, price and owner. -/
  indexed : ∀ o ∈ e.orders, e.orderIndex o.orderId = some ⟨o.side, o.price, o.userId⟩
  /-- Every entry names exactly one live order. -/
  one_order : ∀ i location, e.orderIndex i = some location →
    e.orders.countP (fun o => o.orderId = i ∧ o.location = location) = 1

/-- The owner of a live order can take exactly that order out of the book. -/
def OwnersCanCancel [PriceSum] (e : MatchingEngine) : Prop :=
  ∀ o ∈ e.orders, ∀ ticker,
    (e.onOrderCancel ⟨o.orderId, o.userId, ticker⟩).orders = e.orders.erase o

/-- The ids of an agreeing engine are distinct. -/
lemma IndexAgrees.nodup_ids {e : MatchingEngine} (h : e.IndexAgrees) :
    (e.entries.map Prod.fst).Nodup := by
  rw [List.nodup_iff_count_le_one]
  intro i
  by_cases hi : i ∈ e.entries.map Prod.fst
  · obtain ⟨x, hx, rfl⟩ := List.mem_map.mp hi
    obtain ⟨o, ho, rfl⟩ := List.mem_map.mp hx
    have hone := h.one_order o.orderId o.location (h.indexed o ho)
    -- all the orders with this id have the recorded location
    have hcount : e.orders.countP (fun o' => o'.orderId = o.orderId ∧ o'.location = o.location) =
        (e.entries.map Prod.fst).count o.entry.1 := by
      rw [List.count, entries, List.map_map, List.countP_map]
      refine List.countP_congr fun o' ho' => ?_
      have hloc := h.indexed o' ho'
      simp only [Function.comp_apply, decide_eq_true_eq, beq_iff_eq, LiveOrder.entry_fst]
      refine ⟨fun hid => hid.1, fun hid => ⟨hid, ?_⟩⟩
      rw [hid, h.indexed o ho] at hloc
      exact (Option.some.inj hloc).symm
    omega
  · rw [List.count_eq_zero_of_not_mem hi]
    omega

/-- In a linked engine every live order is indexed under its id with its own location. -/
lemma Linked.lookup_of_mem {e : MatchingEngine} (h : e.Linked) {o : LiveOrder}
    (ho : o ∈ e.orders) : e.orderIndex o.orderId = some o.location :=
  (h.lookup _ _).mpr (List.mem_map.mpr ⟨o, ho, rfl⟩)

/-- In a linked engine no two live orders have the same id. -/
lemma Linked.nodup_ids {e : MatchingEngine} (h : e.Linked) :
    (e.orders.map fun o => o.orderId).Nodup := by
  have hnodup := h.nodup
  rwa [entries, List.map_map] at hnodup

lemma Linked.nodup_orders {e : MatchingEngine} (h : e.Linked) : e.orders.Nodup :=
  List.Nodup.of_map _ h.nodup_ids

theorem indexAgrees_iff_linked {e : MatchingEngine} : e.IndexAgrees ↔ e.Linked := by
  constructor
  · intro h
    refine ⟨h.nodup_ids, fun i location => ⟨fun hi => ?_, fun hmem => ?_⟩⟩
    · have hone := h.one_order i location hi
      obtain ⟨o, ho, hid⟩ := List.countP_pos_iff.mp (by omega :
        0 < e.orders.countP fun o => o.orderId = i ∧ o.location = location)
      obtain ⟨rfl, rfl⟩ := of_decide_eq_true hid
      exact List.mem_map.mpr ⟨o, ho, rfl⟩
    · obtain ⟨o, ho, heq⟩ := List.mem_map.mp hmem
      obtain ⟨rfl, rfl⟩ := Prod.mk.inj heq
      exact h.indexed o ho
  · intro h
    refine ⟨fun o ho => h.lookup_of_mem ho, fun i location hi => ?_⟩
    have hmem : (i, location) ∈ e.entries := (h.lookup i location).mp hi
    have hcount : e.entries.count (i, location) = 1 :=
      List.count_eq_one_of_mem (List.Nodup.of_map _ h.nodup) hmem
    rw [← hcount, List.count, entries, List.countP_map]
    refine List.countP_congr fun o _ => ?_
    simp [LiveOrder.entry, Prod.ext_iff]

/-! ## What an add does to the entries -/

/-- The volume an incoming order can trade: that of the opposite orders it crosses. -/
def crossingVolume (e : MatchingEngine) (order : OrderAdd) : ℤ :=
  (((e.live order.side.opposite).filter
    fun o => order.side.crosses order.price o.price).map fun o => o.volume).sum

/-- The command is an add that will leave a remainder under the id of an order which stays in the
book: an order of its own side, or one of the opposite side that it does not cross. -/
def ReusesLiveId (e : MatchingEngine) : InboundCommand → Prop
  | .add order => e.crossingVolume order < order.volume ∧
      ∃ o ∈ e.orders, o.orderId = order.orderId ∧
        (o.side = order.side ∨ ¬ order.side.crosses order.price o.price)
  | .cancel _ => False

/-- On a sorted side the crossing orders come first. -/
lemma pairwise_crosses (e : MatchingEngine) (order : OrderAdd) :
    (e.live order.side.opposite).Pairwise fun a b =>
      order.side.crosses order.price b.price → order.side.crosses order.price a.price := by
  have hsorted := e.pairwise_live order.side.opposite
  refine hsorted.imp_of_mem fun {a b} _ hb hnot hcross => ?_
  rw [Side.crosses_iff] at hcross ⊢
  intro hbefore
  rw [LiveOrder.Precedes, side_of_mem_live hb] at hnot
  exact hcross (Side.before_of_before_of_not hbefore hnot)

/-- A remainder is left exactly when the volume exceeds what can be traded. -/
lemma left_pos_iff_crossingVolume {e : MatchingEngine} (he : e.Sound) (order : OrderAdd) :
    0 < (e.fill order).left ↔ e.crossingVolume order < order.volume :=
  Stock.left_pos_iff (e.pairwise_crosses order) (he.volume_pos _)

/-- When a remainder is left, the orders that stay are those of its side and those it does not
cross. -/
lemma mem_surviving_of_left_pos {e : MatchingEngine} {order : OrderAdd}
    (hpos : 0 < (e.fill order).left) {o : LiveOrder} :
    o ∈ e.surviving order ↔
      o ∈ e.orders ∧ (o.side = order.side ∨ ¬ order.side.crosses order.price o.price) := by
  have hrest : (e.fill order).rest = (e.live order.side.opposite).filter
      fun o => ¬ order.side.crosses order.price o.price :=
    Stock.rest_eq_filter_of_left_pos (e.pairwise_crosses order) hpos
  rw [surviving, hrest, List.mem_append, List.mem_filter, (e.orders_perm order.side).mem_iff,
    List.mem_append, decide_eq_true_iff]
  constructor
  · rintro (⟨ho, hnot⟩ | ho)
    · exact ⟨Or.inr ho, Or.inr hnot⟩
    · exact ⟨Or.inl ho, Or.inl (side_of_mem_live ho)⟩
  · rintro ⟨ho | ho, hcase⟩
    · exact Or.inr ho
    · have hside := side_of_mem_live ho
      have hne : o.side ≠ order.side := by rw [hside]; exact order.side.opposite_ne
      exact Or.inl ⟨ho, hcase.resolve_left hne⟩

/-- The entries are those of the orders that an add uses up and of those that stay. -/
lemma entries_perm_surviving (e : MatchingEngine) (order : OrderAdd) :
    e.entries.Perm ((e.fill order).spent.map LiveOrder.entry ++
      (e.surviving order).map LiveOrder.entry) := by
  have hview : (e.fill order).spent.map LiveOrder.entry ++
      (e.fill order).rest.map LiveOrder.entry =
        (e.live order.side.opposite).map LiveOrder.entry :=
    Stock.map_spent_append_rest (fun _ _ => rfl) _ _
  rw [surviving, List.map_append, ← List.append_assoc, hview, ← List.map_append]
  exact ((e.orders_perm order.side).trans List.perm_append_comm).map _

/-- After the filled orders are erased, the index is that of the orders that stay. -/
lemma Linked.surviving {e : MatchingEngine} (h : e.Linked) (order : OrderAdd) :
    Represents (e.orderIndex.eraseAll (orderIds (e.fill order).spent))
      ((e.surviving order).map LiveOrder.entry) := by
  refine (Represents.perm h (e.entries_perm_surviving order)).of_append fun i => ?_
  rw [OrderIndex.eraseAll_apply, List.map_map]
  rfl

section Steps

variable [PriceSum] {e : MatchingEngine}

/-- An add keeps the index and the book in agreement exactly when its remainder, if there is
one, has an id that no other order in the book has. -/
lemma linked_onOrderAdd_iff (he : e.NoEmptyLevel) (h : e.Linked) (order : OrderAdd) :
    (e.onOrderAdd order).1.Linked ↔
      (0 < (e.fill order).left → ∀ o ∈ e.surviving order, o.orderId ≠ order.orderId) := by
  have hentries := (orders_onOrderAdd_perm he order).map LiveOrder.entry
  have hindex := orderIndex_onOrderAdd he order
  have hkeys : order.orderId ∉ ((e.surviving order).map LiveOrder.entry).map Prod.fst ↔
      ∀ o ∈ e.surviving order, o.orderId ≠ order.orderId := by
    simp
  split_ifs at hentries hindex with hpos
  · rw [Linked, hindex, ← hkeys]
    constructor
    · intro hlinked _
      exact (List.nodup_cons.mp (hlinked.perm hentries).nodup).1
    · intro hfresh
      exact ((h.surviving order).insert (hfresh hpos)).perm hentries.symm
  · refine iff_of_true ?_ fun hleft => absurd hleft hpos
    rw [Linked, hindex]
    exact (h.surviving order).perm hentries.symm

/-- A cancel keeps the index and the book in agreement. -/
lemma linked_onOrderCancel (h : e.Linked) (cancel : OrderCancel) :
    (e.onOrderCancel cancel).Linked := by
  by_cases haccepts : ∃ location, e.Accepts cancel location
  · obtain ⟨location, haccepts⟩ := haccepts
    rw [Linked, orderIndex_onOrderCancel haccepts, entries, orders_onOrderCancel haccepts]
    -- an order with the id of the cancel rests where the index says
    have hfilter : e.orders.filter (fun o => ¬ Erases cancel location o) =
        e.orders.filter fun o => o.entry.1 ≠ cancel.orderId := by
      refine List.filter_congr fun o ho => decide_eq_decide.mpr (not_congr ?_)
      refine ⟨fun herases => herases.1, fun hid => ?_⟩
      have hlookup := h.lookup_of_mem ho
      rw [show o.orderId = cancel.orderId from hid, haccepts.1] at hlookup
      have hlocation := Option.some.inj hlookup
      exact ⟨hid, by rw [hlocation]; rfl, by rw [hlocation]; rfl⟩
    have herased := Represents.erase h cancel.orderId
    rw [entries, List.filter_map] at herased
    rw [hfilter]
    exact herased
  · rw [onOrderCancel_of_not_accepts fun location hl => haccepts ⟨location, hl⟩]
    exact h

/-- **What breaks the agreement.**  From a sound engine whose index and book agree, a command
leads to one whose index and book agree exactly when it does not reuse a live id. -/
theorem linked_step_iff (he : e.Sound) (h : e.Linked) (cmd : InboundCommand) :
    (e.step cmd).1.Linked ↔ ¬ e.ReusesLiveId cmd := by
  cases cmd with
  | cancel request => exact iff_of_true (linked_onOrderCancel h request) id
  | add order =>
    refine (linked_onOrderAdd_iff he.noEmptyLevel h order).trans ?_
    rw [ReusesLiveId, not_and, ← left_pos_iff_crossingVolume he]
    refine forall_congr' fun hpos => ?_
    constructor
    · rintro hfresh ⟨o, ho, hid, hcase⟩
      exact hfresh o ((mem_surviving_of_left_pos hpos).mpr ⟨ho, hcase⟩) hid
    · intro hnone o ho hid
      obtain ⟨ho, hcase⟩ := (mem_surviving_of_left_pos hpos).mp ho
      exact hnone ⟨o, ho, hid, hcase⟩

/-- When index and book agree, every owner can cancel. -/
lemma Linked.ownersCanCancel (h : e.Linked) : e.OwnersCanCancel := by
  intro o ho ticker
  have haccepts : e.Accepts ⟨o.orderId, o.userId, ticker⟩ o.location :=
    ⟨h.lookup_of_mem ho, rfl⟩
  rw [orders_onOrderCancel haccepts, h.nodup_orders.erase_eq_filter]
  refine List.filter_congr fun o' ho' => ?_
  rw [Bool.eq_iff_iff, decide_eq_true_iff, bne_iff_ne]
  refine not_congr ⟨fun herases => ?_, fun heq => ?_⟩
  · exact List.inj_on_of_nodup_map h.nodup_ids ho' ho herases.1
  · rw [heq]
    exact ⟨rfl, rfl, rfl⟩

/-- **When the order index and the book agree.**  In every run from the empty engine the index
and the book agree after every command, and every owner can cancel, exactly when no add of the
run leaves a remainder under the id of an order that is still in the book. -/
theorem indexAgrees_prefix_iff (cmds : List InboundCommand) :
    (∀ pre, pre <+: cmds → (after pre).IndexAgrees ∧ (after pre).OwnersCanCancel) ↔
      Mealy.Along step (fun e cmd => ¬ e.ReusesLiveId cmd) empty cmds := by
  have hempty : empty.Linked := Represents.nil
  have hstep : ∀ (e : MatchingEngine) cmd, e.Sound ∧ e.Linked →
      ((e.step cmd).1.Sound ∧ (e.step cmd).1.Linked ↔ ¬ e.ReusesLiveId cmd) := by
    intro e cmd he
    rw [and_iff_right (sound_step he.1 cmd)]
    exact linked_step_iff he.1 he.2 cmd
  rw [Mealy.along_iff_forall_prefix hstep ⟨sound_empty, hempty⟩]
  refine forall_congr' fun pre => forall_congr' fun _ => ?_
  constructor
  · rintro ⟨hagrees, -⟩
    exact ⟨sound_after pre, indexAgrees_iff_linked.mp hagrees⟩
  · rintro ⟨-, hlinked⟩
    exact ⟨indexAgrees_iff_linked.mpr hlinked, hlinked.ownersCanCancel⟩

end Steps

/-- Two buys under one id, of different users at different prices: the second takes over the
index entry, the first is no longer indexed, and its owner's cancel does nothing. -/
theorem index_lost_on_reused_id :
    let cmds : List InboundCommand :=
      [.add ⟨1, 1, .aapl, .buy, 100, 10⟩, .add ⟨1, 2, .aapl, .buy, 101, 10⟩]
    let e := @after PriceSum.int64 cmds
    let o : LiveOrder := ⟨⟨1, 1, 10⟩, .buy, 100⟩
    o ∈ e.orders ∧ e.orderIndex o.orderId ≠ some o.location ∧
      o ∈ (@onOrderCancel PriceSum.int64 e ⟨1, 1, .aapl⟩).orders := by
  decide

end MatchingEngine

end ToyExchange
