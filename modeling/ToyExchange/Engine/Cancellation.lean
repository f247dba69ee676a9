import ToyExchange.Engine.OrderIndex
import ToyExchange.Engine.MidPrice

/-!
# What a cancel does

Clients choose the order ids, so an id may be used again while an order with it is live; entries of
the index are then overwritten, and erased by the fills of other orders.  One half of the agreement
between the index and the book survives all of this: an entry always names an order that is live
at the side and price of the entry, and of the recorded user (`located_after`).

So a cancel that is accepted does take an order out of the book, and a cancel that is not accepted
changes nothing.  `cancel_effect` says this, and that everything else stays as it is.
-/

namespace ToyExchange

namespace MatchingEngine

/-- Every entry of the index is the one of a live order. -/
def Located (e : MatchingEngine) : Prop :=
  ∀ i location, e.orderIndex i = some location → (i, location) ∈ e.entries

lemma located_empty : empty.Located := by
  intro i location hi
  cases hi

section Steps

variable [PriceSum] {e : MatchingEngine}

/-- An add erases the entries of the orders that it uses up, and enters its remainder. -/
lemma located_onOrderAdd (he : e.NoEmptyLevel) (h : e.Located) (order : OrderAdd) :
    (e.onOrderAdd order).1.Located := by
  -- an entry that was not erased is the one of an order that stays
  have hkept : ∀ i location,
      e.orderIndex.eraseAll (orderIds (e.fill order).spent) i = some location →
        (i, location) ∈ (e.surviving order).map LiveOrder.entry := by
    intro i location hi
    rw [OrderIndex.eraseAll_apply] at hi
    split_ifs at hi with hspent
    have hmem := (e.entries_perm_surviving order).mem_iff.mp (h i location hi)
    refine (List.mem_append.mp hmem).resolve_left fun hused => hspent ?_
    obtain ⟨o, ho, heq⟩ := List.mem_map.mp hused
    exact List.mem_map.mpr ⟨o, ho, congrArg Prod.fst heq⟩
  have hentries := (orders_onOrderAdd_perm he order).map LiveOrder.entry
  intro i location hi
  rw [orderIndex_onOrderAdd he] at hi
  split_ifs at hi hentries
  · rw [OrderIndex.insert, Function.update_apply] at hi
    rw [entries, hentries.mem_iff, List.map_cons, List.mem_cons]
    split_ifs at hi with hid
    · rw [hid, ← Option.some.inj hi]
      exact Or.inl rfl
    · exact Or.inr (hkept i location hi)
  · rw [entries, hentries.mem_iff]
    exact hkept i location hi

/-- A cancel takes out orders with its own id only, and erases the entry of that id. -/
lemma located_onOrderCancel (h : e.Located) (cancel : OrderCancel) :
    (e.onOrderCancel cancel).Located := by
  by_cases haccepts : ∃ location, e.Accepts cancel location
  · obtain ⟨location', haccepts⟩ := haccepts
    intro i location hi
    rw [orderIndex_onOrderCancel haccepts, OrderIndex.erase_apply] at hi
    split_ifs at hi with hid
    obtain ⟨o, ho, heq⟩ := List.mem_map.mp (h i location hi)
    refine List.mem_map.mpr ⟨o, ?_, heq⟩
    rw [orders_onOrderCancel haccepts, List.mem_filter, decide_eq_true_iff]
    refine ⟨ho, fun herases => hid ?_⟩
    rw [← herases.1]
    exact (congrArg Prod.fst heq).symm
  · rw [onOrderCancel_of_not_accepts fun location hl => haccepts ⟨location, hl⟩]
    exact h

/-- Every entry of the index is the one of a live order, after any commands. -/
theorem located_after (cmds : List InboundCommand) : (after cmds).Located := by
  induction cmds using List.reverseRecOn with
  | nil => exact located_empty
  | append_singleton cmds cmd ih =>
    rw [after_concat]
    cases cmd with
    | add order => exact located_onOrderAdd (sound_after cmds).noEmptyLevel ih order
    | cancel request => exact located_onOrderCancel ih request

/-- After any commands, an order that an accepted cancel names is live. -/
lemma exists_live_of_accepts {cmds : List InboundCommand} {cancel : OrderCancel}
    {location : OrderLocation} (haccepts : (after cmds).Accepts cancel location) :
    ∃ o ∈ (after cmds).orders, o.orderId = cancel.orderId ∧ o.location = location := by
  obtain ⟨o, ho, heq⟩ := List.mem_map.mp (located_after cmds _ _ haccepts.1)
  exact ⟨o, ho, congrArg Prod.fst heq, congrArg Prod.snd heq⟩

/-! ## The book after a cancel -/

/-- An order that an accepted cancel names is not live afterwards. -/
lemma not_erases_onOrderCancel {cancel : OrderCancel} {location : OrderLocation}
    (haccepts : e.Accepts cancel location) {o : LiveOrder}
    (ho : o ∈ (e.onOrderCancel cancel).orders) : ¬ Erases cancel location o := by
  rw [orders_onOrderCancel haccepts, List.mem_filter, decide_eq_true_iff] at ho
  exact ho.2

/-- The levels after an accepted cancel: the recorded level keeps the orders with other ids, and
goes if there are none; the other levels are as they were. -/
lemma mem_levels_onOrderCancel (he : e.NoEmptyLevel) {cancel : OrderCancel}
    {location : OrderLocation} (haccepts : e.Accepts cancel location) (s : Side) (price : ℤ)
    (level' : PriceLevel) :
    (price, level') ∈ (e.onOrderCancel cancel).levels s ↔
      ∃ level, (price, level) ∈ e.levels s ∧
        level' = (if s = location.side ∧ price = location.price
          then level.filter fun o => o.orderId ≠ cancel.orderId else level) ∧ level' ≠ [] := by
  rw [(onOrderCancel_of_accepts haccepts).1]
  by_cases hs : s = location.side
  · simp only [hs, if_true, true_and]
    rw [FlatMap.mem_alterEntries (e.sorted_levels _)]
    apply exists_congr
    intro level
    apply and_congr_right
    intro hlevel
    by_cases hprice : price = location.price
    · rw [if_pos hprice, if_pos hprice, FlatMap.keep_eq_some]
    · rw [if_neg hprice, if_neg hprice]
      refine ⟨fun h => ⟨h, ?_⟩, fun h => h.1⟩
      rw [h]
      exact he _ _ hlevel
  · simp only [hs, if_false, false_and]
    constructor
    · exact fun h => ⟨level', h, rfl, he _ _ h⟩
    · rintro ⟨level, h, rfl, -⟩
      exact h

/-- Orders of one kind are not touched by an accepted cancel if it erases none of them. -/
lemma filter_live_onOrderCancel {cancel : OrderCancel} {location : OrderLocation}
    (haccepts : e.Accepts cancel location) (s : Side) {p : LiveOrder → Bool}
    (hp : ∀ o, p o = true → ¬ Erases cancel location o) :
    ((e.onOrderCancel cancel).live s).filter p = (e.live s).filter p := by
  rw [live_onOrderCancel haccepts, List.filter_filter]
  apply List.filter_congr
  intro o _
  rw [Bool.and_eq_left_iff_imp, decide_eq_true_iff]
  exact hp o

end Steps

/-- **What a cancel does.**  After any commands, duplicate ids included, a cancel leaves the book
unchanged exactly if the index has no entry for its id or has one of another user, and then it
changes nothing at all.  Otherwise a live order with that id rests at the side and price of the
entry, for the recorded user, and no such order rests there afterwards; the entry is removed and
every other one kept; the orders with other ids, and those at another side or price, are all there
in their order and with their volumes; and the levels are those of before, the recorded one
without the orders of the id, but for levels that became empty. -/
theorem cancel_effect [PriceSum] (cmds : List InboundCommand) (cancel : OrderCancel) :
    let e := after cmds
    let e' := e.onOrderCancel cancel
    let ignored := e.orderIndex cancel.orderId = none ∨
      ∃ location, e.orderIndex cancel.orderId = some location ∧ location.userId ≠ cancel.userId
    (e'.bids = e.bids ∧ e'.asks = e.asks ↔ ignored) ∧
    (ignored → e'.orderIndex = e.orderIndex ∧ e'.midPrice = e.midPrice) ∧
    ∀ location, e.orderIndex cancel.orderId = some location → location.userId = cancel.userId →
      (∃ o ∈ e.orders, o.orderId = cancel.orderId ∧ o.location = location) ∧
      (∀ o ∈ e'.orders, ¬ (o.orderId = cancel.orderId ∧ o.side = location.side ∧
        o.price = location.price)) ∧
      (∀ i, e'.orderIndex i = if i = cancel.orderId then none else e.orderIndex i) ∧
      (∀ s, (e'.live s).filter (fun o => o.orderId ≠ cancel.orderId) =
        (e.live s).filter fun o => o.orderId ≠ cancel.orderId) ∧
      (∀ s, (e'.live s).filter (fun o => ¬ (o.side = location.side ∧ o.price = location.price)) =
        (e.live s).filter fun o => ¬ (o.side = location.side ∧ o.price = location.price)) ∧
      ∀ s price level', (price, level') ∈ e'.levels s ↔
        ∃ level, (price, level) ∈ e.levels s ∧
          level' = (if s = location.side ∧ price = location.price
            then level.filter fun o => o.orderId ≠ cancel.orderId else level) ∧ level' ≠ [] := by
  intro e e' ignored
  have hignored : ignored → e' = e := by
    rintro (hnone | ⟨location, hsome, huser⟩)
    · refine onOrderCancel_of_not_accepts fun location h => ?_
      rw [h.1] at hnone
      cases hnone
    · refine onOrderCancel_of_not_accepts fun location' h => huser ?_
      rw [← Option.some.inj (hsome.symm.trans h.1)] at h
      exact h.2
  refine ⟨⟨?_, ?_⟩, ?_, ?_⟩
  · -- an accepted cancel takes an order out, so the book is not the same
    rintro ⟨hbids, hasks⟩
    cases hsome : e.orderIndex cancel.orderId with
    | none => exact Or.inl hsome
    | some location =>
      refine Or.inr ⟨location, hsome, fun huser => ?_⟩
      obtain ⟨o, ho, hid, rfl⟩ := exists_live_of_accepts ⟨hsome, huser⟩
      rw [← orders_eq_of_books hbids hasks] at ho
      exact not_erases_onOrderCancel ⟨hsome, huser⟩ ho ⟨hid, rfl, rfl⟩
  · intro h
    rw [hignored h]
    exact ⟨rfl, rfl⟩
  · intro h
    rw [hignored h]
    exact ⟨rfl, rfl⟩
  · intro location hsome huser
    have haccepts : e.Accepts cancel location := ⟨hsome, huser⟩
    refine ⟨exists_live_of_accepts haccepts, fun o ho => not_erases_onOrderCancel haccepts ho,
      ?_, ?_, ?_, mem_levels_onOrderCancel (sound_after cmds).noEmptyLevel haccepts⟩
    · intro i
      rw [orderIndex_onOrderCancel haccepts, OrderIndex.erase_apply]
    · intro s
      exact filter_live_onOrderCancel haccepts s fun o ho herases =>
        of_decide_eq_true ho herases.1
    · intro s
      exact filter_live_onOrderCancel haccepts s fun o ho herases =>
        of_decide_eq_true ho herases.2

end MatchingEngine

end ToyExchange
