import ToyExchange.Tools.FeedMirror
import ToyExchange.Engine.FeedLog
import ToyExchange.Engine.TradeVolumes

/-!
# Listeners that miss events

The feed goes out as datagrams, so a listener may miss some of them, and one that joins late misses
all the earlier ones.  What it remembers of an order depends only on the events that name the order:
`track` follows one order through the events, and an event that does not name it changes nothing
(`get_applyAll`, `track_of_not_names`).

Hence a lost event does harm only to the orders it names.  For well-behaved clients a listener never
shows an order that was not announced, never with more than the announced volume, and never with
less than what rests (`lossy_listener`): lost trades and cancels leave volume behind, and a lost add
hides an order.  A listener that joins late knows exactly the orders announced since
(`late_listener`).
-/

namespace ToyExchange

/-! ## One order among the events -/

/-- The event is about this order. -/
def MarketEvent.Names (orderId : ℤ) : MarketEvent → Prop
  | .orderAdd order => order.orderId = orderId
  | .orderCancel cancel => cancel.orderId = orderId
  | .trade t => t.makerOrderId = orderId ∨ t.takerOrderId = orderId

instance (orderId : ℤ) : DecidablePred (MarketEvent.Names orderId)
  | .orderAdd order => inferInstanceAs (Decidable (order.orderId = orderId))
  | .orderCancel cancel => inferInstanceAs (Decidable (cancel.orderId = orderId))
  | .trade t => inferInstanceAs (Decidable (t.makerOrderId = orderId ∨ t.takerOrderId = orderId))

/-- The add event of this order is among the events. -/
def Announced (orderId : ℤ) (events : List MarketEvent) : Prop :=
  ∃ order, .orderAdd order ∈ events ∧ order.orderId = orderId

/-- What is left of an order after a trade, nothing if no volume is. -/
def OpenOrder.shrunk (volume : ℤ) (order : OpenOrder) : Option OpenOrder :=
  if order.volume - volume ≤ 0 then none else some { order with volume := order.volume - volume }

/-- What an event does to the memory of one order.  A trade shrinks first its maker, then its
taker. -/
def track (orderId : ℤ) (known : Option OpenOrder) : MarketEvent → Option OpenOrder
  | .orderAdd order => if order.orderId = orderId then some (OpenOrder.ofAdd order) else known
  | .orderCancel cancel => if cancel.orderId = orderId then none else known
  | .trade t =>
    let shrunk (id : ℤ) (known : Option OpenOrder) :=
      if id = orderId then known.bind (OpenOrder.shrunk t.volume) else known
    shrunk t.takerOrderId (shrunk t.makerOrderId known)

namespace OrderBook

lemma get_shrink (b : OrderBook) (orderId volume k : ℤ) :
    (b.shrink orderId volume).openOrders.get k =
      if orderId = k then (b.openOrders.get k).bind (OpenOrder.shrunk volume)
      else b.openOrders.get k := by
  unfold shrink
  rcases hget : b.openOrders.get orderId with _ | order
  · dsimp only
    split_ifs with hk
    · rw [← hk, hget]
      rfl
    · rfl
  · dsimp only
    by_cases hk : orderId = k
    · rw [if_pos hk, ← hk, hget, Option.bind_some, OpenOrder.shrunk]
      split_ifs
      · rw [Dict.get_pop, Function.update_self]
      · rw [Dict.get_set, Function.update_self]
    · rw [if_neg hk]
      split_ifs
      · rw [Dict.get_pop, Function.update_of_ne (Ne.symm hk)]
      · rw [Dict.get_set, Function.update_of_ne (Ne.symm hk)]

/-- Each order is followed for itself. -/
lemma get_apply (b : OrderBook) (event : MarketEvent) (k : ℤ) :
    (b.apply event).openOrders.get k = track k (b.openOrders.get k) event := by
  rcases event with order | cancel | t
  · unfold apply track
    rw [Dict.get_set, Function.update_apply]
    simp only [eq_comm]
  · unfold apply track
    rw [Dict.get_pop, Function.update_apply]
    simp only [eq_comm]
  · unfold apply track
    rw [get_shrink, get_shrink]

theorem get_applyAll (b : OrderBook) (events : List MarketEvent) (k : ℤ) :
    (b.applyAll events).openOrders.get k = events.foldl (track k) (b.openOrders.get k) := by
  unfold applyAll
  induction events generalizing b with
  | nil => rfl
  | cons event events ih => rw [List.foldl_cons, List.foldl_cons, ih, get_apply]

/-- What a listener that starts with nothing knows of an order. -/
lemma get_applyAll_empty (events : List MarketEvent) (k : ℤ) :
    (empty.applyAll events).openOrders.get k = events.foldl (track k) none :=
  get_applyAll empty events k

end OrderBook

section Track

variable {orderId : ℤ} {event : MarketEvent} {events : List MarketEvent}

/-- An event that does not name the order does nothing to it. -/
lemma track_of_not_names (h : ¬ event.Names orderId) (known : Option OpenOrder) :
    track orderId known event = known := by
  rcases event with order | cancel | t
  · exact if_neg h
  · exact if_neg h
  · obtain ⟨hmaker, htaker⟩ := not_or.mp h
    simp only [track, if_neg hmaker, if_neg htaker]

/-- Only the events that name the order matter. -/
lemma foldl_track_filter (events : List MarketEvent) (known : Option OpenOrder) :
    (events.filter fun event => event.Names orderId).foldl (track orderId) known =
      events.foldl (track orderId) known := by
  induction events generalizing known with
  | nil => rfl
  | cons event events ih =>
    by_cases h : event.Names orderId
    · rw [List.filter_cons_of_pos (by simpa using h), List.foldl_cons, List.foldl_cons, ih]
    · rw [List.filter_cons_of_neg (by simpa using h), List.foldl_cons, track_of_not_names h, ih]

/-- An add replaces what was known of its order. -/
lemma foldl_track_add (order : OrderAdd) (missed heard : List MarketEvent)
    (known : Option OpenOrder) :
    (missed ++ .orderAdd order :: heard).foldl (track order.orderId) known =
      heard.foldl (track order.orderId) (some (OpenOrder.ofAdd order)) := by
  rw [List.foldl_append, List.foldl_cons, track, if_pos rfl]

/-- Once the order is announced, it does not matter what was known before. -/
lemma foldl_track_of_announced (h : Announced orderId events) (known : Option OpenOrder) :
    events.foldl (track orderId) known = events.foldl (track orderId) none := by
  obtain ⟨order, hmem, rfl⟩ := h
  obtain ⟨missed, heard, rfl⟩ := List.append_of_mem hmem
  rw [foldl_track_add, foldl_track_add]

/-- Nothing but an add makes an order known. -/
lemma track_none (h : ∀ order, event = .orderAdd order → order.orderId ≠ orderId) :
    track orderId none event = none := by
  rcases event with order | cancel | t
  · exact if_neg (h order rfl)
  · exact ite_self _
  · simp only [track, Option.bind_none, ite_self]

/-- An order that is not announced stays unknown. -/
lemma foldl_track_of_not_announced (h : ¬ Announced orderId events) :
    events.foldl (track orderId) none = none := by
  induction events with
  | nil => rfl
  | cons event events ih =>
    have hevent : ∀ order, event = .orderAdd order → order.orderId ≠ orderId := by
      rintro order rfl hid
      exact h ⟨order, List.mem_cons_self .., hid⟩
    rw [List.foldl_cons, track_none hevent]
    refine ih fun hann => h ?_
    obtain ⟨order, hmem, hid⟩ := hann
    exact ⟨order, List.mem_cons_of_mem _ hmem, hid⟩

lemma OpenOrder.mem_shrunk {volume : ℤ} {o o' : OpenOrder} :
    o' ∈ o.shrunk volume ↔
      0 < o.volume - volume ∧ o' = { o with volume := o.volume - volume } := by
  unfold shrunk
  split_ifs with h
  · exact ⟨nofun, fun ⟨hpos, _⟩ => absurd h hpos.not_ge⟩
  · rw [Option.mem_some_iff, eq_comm]
    exact ⟨fun heq => ⟨not_le.mp h, heq⟩, And.right⟩

lemma volume_pos_of_mem_shrunk {volume : ℤ} {known : Option OpenOrder} :
    ∀ o ∈ known.bind (OpenOrder.shrunk volume), 0 < o.volume := by
  intro o ho
  obtain ⟨old, -, ho⟩ := Option.mem_bind_iff.mp ho
  obtain ⟨hpos, rfl⟩ := OpenOrder.mem_shrunk.mp ho
  exact hpos

lemma volume_pos_track {known : Option OpenOrder} (h : ∀ o ∈ known, 0 < o.volume)
    (hevent : ∀ order, event = .orderAdd order → 0 < order.volume) :
    ∀ o ∈ track orderId known event, 0 < o.volume := by
  rcases event with order | cancel | t
  · simp only [track]
    split_ifs
    · intro o ho
      rw [← Option.mem_some_iff.mp ho]
      exact hevent order rfl
    · exact h
  · simp only [track]
    split_ifs
    · nofun
    · exact h
  · simp only [track]
    split_ifs
    · exact volume_pos_of_mem_shrunk
    · exact volume_pos_of_mem_shrunk
    · exact volume_pos_of_mem_shrunk
    · exact h

/-- No order is known without a volume if none is announced without one. -/
lemma volume_pos_of_mem_foldl_track (h : ∀ order, .orderAdd order ∈ events → 0 < order.volume) :
    ∀ o ∈ events.foldl (track orderId) none, 0 < o.volume := by
  refine List.foldlRecOn events (track orderId) (motive := fun known => ∀ o ∈ known, 0 < o.volume)
    (fun o ho => ?_) fun known hknown event hevent => volume_pos_track hknown ?_
  · cases ho
  · rintro order rfl
    exact h order hevent

end Track

/-! ## Events that only take volume away -/

/-- One memory of an order is another one with at most its volume. -/
structure OpenOrder.Within (o o' : OpenOrder) : Prop where
  ticker : o.ticker = o'.ticker
  side : o.side = o'.side
  price : o.price = o'.price
  volume : o.volume ≤ o'.volume

/-- What is known in the one case is within what is known in the other. -/
def KnownWithin (known known' : Option OpenOrder) : Prop :=
  ∀ o ∈ known, ∃ o' ∈ known', o.Within o'

lemma OpenOrder.Within.refl (o : OpenOrder) : o.Within o := ⟨rfl, rfl, rfl, le_rfl⟩

lemma OpenOrder.Within.trans {o o' o'' : OpenOrder} (h : o.Within o') (h' : o'.Within o'') :
    o.Within o'' :=
  ⟨h.ticker.trans h'.ticker, h.side.trans h'.side, h.price.trans h'.price,
    h.volume.trans h'.volume⟩

lemma KnownWithin.refl (known : Option OpenOrder) : KnownWithin known known :=
  fun o ho => ⟨o, ho, .refl o⟩

lemma KnownWithin.trans {known known' known'' : Option OpenOrder} (h : KnownWithin known known')
    (h' : KnownWithin known' known'') : KnownWithin known known'' := by
  intro o ho
  obtain ⟨o', ho', hle⟩ := h o ho
  obtain ⟨o'', ho'', hle'⟩ := h' o' ho'
  exact ⟨o'', ho'', hle.trans hle'⟩

lemma knownWithin_none (known : Option OpenOrder) : KnownWithin none known := nofun

lemma KnownWithin.shrunk {known known' : Option OpenOrder} (h : KnownWithin known known')
    (volume : ℤ) :
    KnownWithin (known.bind (OpenOrder.shrunk volume)) (known'.bind (OpenOrder.shrunk volume)) := by
  intro o ho
  obtain ⟨old, hold, ho⟩ := Option.mem_bind_iff.mp ho
  obtain ⟨hpos, rfl⟩ := OpenOrder.mem_shrunk.mp ho
  obtain ⟨old', hold', hle⟩ := h old hold
  have hvolume := hle.volume
  refine ⟨{ old' with volume := old'.volume - volume }, ?_, hle.ticker, hle.side, hle.price, ?_⟩
  · exact Option.mem_bind_iff.mpr
      ⟨old', hold', OpenOrder.mem_shrunk.mpr ⟨by omega, rfl⟩⟩
  · exact Int.sub_le_sub_right hvolume volume

lemma knownWithin_shrunk {volume : ℤ} (h : 0 ≤ volume) (known : Option OpenOrder) :
    KnownWithin (known.bind (OpenOrder.shrunk volume)) known := by
  intro o ho
  obtain ⟨old, hold, ho⟩ := Option.mem_bind_iff.mp ho
  obtain ⟨-, rfl⟩ := OpenOrder.mem_shrunk.mp ho
  exact ⟨old, hold, rfl, rfl, rfl, Int.sub_le_self _ h⟩

/-- The event does not announce the order, and the trade it may report has a volume. -/
def MarketEvent.TakesAway (orderId : ℤ) : MarketEvent → Prop
  | .orderAdd order => order.orderId ≠ orderId
  | .orderCancel _ => True
  | .trade t => 0 ≤ t.volume

section TakesAway

variable {orderId : ℤ} {event : MarketEvent}

/-- The event respects what is within what. -/
lemma KnownWithin.track (h : event.TakesAway orderId) {known known' : Option OpenOrder}
    (hknown : KnownWithin known known') :
    KnownWithin (track orderId known event) (track orderId known' event) := by
  rcases event with order | cancel | t
  · simp only [ToyExchange.track, if_neg (show ¬ order.orderId = orderId from h)]
    exact hknown
  · simp only [ToyExchange.track]
    split_ifs
    · exact knownWithin_none none
    · exact hknown
  · simp only [ToyExchange.track]
    split_ifs
    · exact (hknown.shrunk t.volume).shrunk t.volume
    · exact hknown.shrunk t.volume
    · exact hknown.shrunk t.volume
    · exact hknown

/-- The event adds nothing to what is known. -/
lemma knownWithin_track (h : event.TakesAway orderId) (known : Option OpenOrder) :
    KnownWithin (track orderId known event) known := by
  rcases event with order | cancel | t
  · simp only [track, if_neg (show ¬ order.orderId = orderId from h)]
    exact .refl known
  · simp only [track]
    split_ifs
    · exact knownWithin_none known
    · exact .refl known
  · simp only [track]
    have hvolume : 0 ≤ t.volume := h
    split_ifs
    · exact (knownWithin_shrunk hvolume _).trans (knownWithin_shrunk hvolume known)
    · exact knownWithin_shrunk hvolume known
    · exact knownWithin_shrunk hvolume known
    · exact .refl known

/-- One that misses some of the events knows at least what one knows that misses none. -/
lemma knownWithin_foldl {seen events : List MarketEvent} (hseen : seen.Sublist events)
    (hevents : ∀ event ∈ events, event.TakesAway orderId) (known : Option OpenOrder) :
    KnownWithin (events.foldl (track orderId) known) (seen.foldl (track orderId) known) :=
  Mealy.foldl_missed (f := track orderId) (R := KnownWithin) (fun _ _ _ => KnownWithin.trans) hseen
    (fun event hevent _ _ => KnownWithin.track (hevents event hevent))
    (fun event hevent => knownWithin_track (hevents event hevent)) (.refl known)

end TakesAway

/-! ## The events of a feed -/

/-- The order an event announces. -/
def MarketEvent.added? : MarketEvent → Option OrderAdd
  | .orderAdd order => some order
  | _ => none

lemma MarketEvent.filterMap_added?_cons (order : OrderAdd) (events : List MarketEvent) :
    (.orderAdd order :: events).filterMap added? = order :: events.filterMap added? := rfl

lemma MarketEvent.mem_filterMap_added? {events : List MarketEvent} {order : OrderAdd} :
    order ∈ events.filterMap added? ↔ .orderAdd order ∈ events := by
  rw [List.mem_filterMap]
  constructor
  · rintro ⟨event, hevent, hsome⟩
    rcases event with order' | cancel | t
    · exact Option.some.inj hsome ▸ hevent
    · cases hsome
    · cases hsome
  · exact fun h => ⟨.orderAdd order, h, rfl⟩

lemma addsOf_append (cmds cmds' : List InboundCommand) :
    addsOf (cmds ++ cmds') = addsOf cmds ++ addsOf cmds' := List.filterMap_append

/-- Well-behaved clients add each order once, with a volume. -/
lemma wellBehaved_adds {cmds : List InboundCommand}
    (h : Mealy.Along remember WellBehaved [] cmds) :
    (addsOf cmds).Pairwise (fun a b => a.orderId ≠ b.orderId) ∧
      ∀ a ∈ addsOf cmds, 0 < a.volume := by
  induction cmds using List.reverseRecOn with
  | nil => exact ⟨List.Pairwise.nil, nofun⟩
  | append_singleton cmds cmd ih =>
    obtain ⟨hcmds, hcmd, -⟩ := Mealy.along_append.mp h
    rw [run_remember, List.nil_append] at hcmd
    obtain ⟨hdistinct, hpos⟩ := ih hcmds
    rw [addsOf_append]
    rcases cmd with order | request
    · obtain ⟨-, hvolume, hnew⟩ := hcmd
      refine ⟨List.pairwise_append.mpr ⟨hdistinct, List.pairwise_singleton _ _, ?_⟩, ?_⟩
      · intro a ha b hb
        rw [List.mem_singleton.mp hb]
        exact hnew a ha
      · refine List.forall_mem_append.mpr ⟨hpos, ?_⟩
        intro a ha
        rw [List.mem_singleton.mp ha]
        exact hvolume
    · exact (List.append_nil (addsOf cmds)).symm ▸ ⟨hdistinct, hpos⟩

section Feed

variable [PriceSum] {cmds : List InboundCommand}

/-- The feed announces the orders that are added, in their order. -/
lemma filterMap_added?_feedOf (cmds : List InboundCommand) :
    (feedOf cmds).filterMap MarketEvent.added? = addsOf cmds := by
  nth_rewrite 2 [← filterMap_command?_feedOf cmds]
  rw [addsOf, List.filterMap_filterMap]
  refine List.filterMap_congr fun event _ => ?_
  cases event <;> rfl

/-- After the add event of an order all events of a well-behaved feed only take away from it. -/
lemma takesAway_of_wellBehaved (h : Mealy.Along remember WellBehaved [] cmds)
    {order : OrderAdd} {missed heard : List MarketEvent}
    (hfeed : feedOf cmds = missed ++ .orderAdd order :: heard) :
    ∀ event ∈ heard, event.TakesAway order.orderId := by
  have hmem : ∀ event ∈ heard, event ∈ feedOf cmds := fun event hevent =>
    hfeed ▸ List.mem_append_right _ (List.mem_cons_of_mem _ hevent)
  have hdistinct := (wellBehaved_adds h).1
  rw [← filterMap_added?_feedOf, hfeed, List.filterMap_append,
    MarketEvent.filterMap_added?_cons] at hdistinct
  have hlater := (List.pairwise_cons.mp (List.pairwise_append.mp hdistinct).2.1).1
  intro event hevent
  rcases event with order' | cancel | t
  · exact (hlater order' (MarketEvent.mem_filterMap_added?.mpr hevent)).symm
  · trivial
  · have htrade := mem_tradesOf_of_mem_feedOf (hmem _ hevent)
    exact (MatchingEngineRouter.volume_pos_of_mem_tradesOf cmds t htrade).le

/-- What is announced in a well-behaved feed has a volume. -/
lemma volume_pos_of_wellBehaved (h : Mealy.Along remember WellBehaved [] cmds) {order : OrderAdd}
    (horder : .orderAdd order ∈ feedOf cmds) : 0 < order.volume := by
  refine (wellBehaved_adds h).2 order ?_
  rw [← filterMap_added?_feedOf]
  exact MarketEvent.mem_filterMap_added?.mpr horder

/-- What a listener that misses nothing knows of an order is the order if it rests. -/
lemma mem_foldl_track_feedOf (h : Mealy.Along remember WellBehaved [] cmds) {orderId : ℤ}
    {o : OpenOrder} : o ∈ (feedOf cmds).foldl (track orderId) none ↔
      (orderId, o) ∈ (MatchingEngineRouter.after cmds).openOrders := by
  rw [← OrderBook.get_applyAll_empty]
  exact (feeds_of_wellBehaved h).mirrors.lookup orderId o

/-- A received add stands in the feed with all that is received after it behind it. -/
lemma exists_feed_split {received : List MarketEvent} (hreceived : received.Sublist (feedOf cmds))
    {order : OrderAdd} (horder : .orderAdd order ∈ received) :
    ∃ missed heard missed' heard', received = missed ++ .orderAdd order :: heard ∧
      feedOf cmds = missed' ++ .orderAdd order :: heard' ∧ heard.Sublist heard' := by
  obtain ⟨missed, heard, rfl⟩ := List.append_of_mem horder
  obtain ⟨before, behind, hfeed, -, hbehind⟩ := List.append_sublist_iff.mp hreceived
  obtain ⟨first, last, rfl, hfirst, hlast⟩ := List.cons_sublist_iff.mp hbehind
  obtain ⟨first, between, rfl⟩ := List.append_of_mem hfirst
  refine ⟨missed, heard, before ++ first, between ++ last, rfl, ?_, ?_⟩
  · rw [hfeed, List.append_assoc, List.append_assoc, List.cons_append]
  · exact hlast.trans (List.sublist_append_right between last)

/-- What is known of an announced order, whatever is lost, lies between what rests of it and what
was announced. -/
lemma knownWithin_of_received (h : Mealy.Along remember WellBehaved [] cmds)
    {received : List MarketEvent} (hreceived : received.Sublist (feedOf cmds))
    {order : OrderAdd} (horder : .orderAdd order ∈ received) :
    KnownWithin ((feedOf cmds).foldl (track order.orderId) none)
        (received.foldl (track order.orderId) none) ∧
      KnownWithin (received.foldl (track order.orderId) none) (some (OpenOrder.ofAdd order)) := by
  obtain ⟨missed, heard, missed', heard', rfl, hfeed, hheard⟩ :=
    exists_feed_split hreceived horder
  have haway := takesAway_of_wellBehaved h hfeed
  have haway' : ∀ event ∈ heard, event.TakesAway order.orderId := fun event hevent =>
    haway event (hheard.subset hevent)
  rw [hfeed, foldl_track_add, foldl_track_add]
  exact ⟨knownWithin_foldl hheard haway _, knownWithin_foldl (List.nil_sublist heard) haway' _⟩

/-- What a listener shows was announced to it with at least the volume shown. -/
lemma announced_of_shown (h : Mealy.Along remember WellBehaved [] cmds)
    {received : List MarketEvent} (hreceived : received.Sublist (feedOf cmds)) {orderId : ℤ}
    {o : OpenOrder} (ho : o ∈ (OrderBook.empty.applyAll received).openOrders.get orderId) :
    0 < o.volume ∧ ∃ order, .orderAdd order ∈ received ∧ order.orderId = orderId ∧
      o.Within (OpenOrder.ofAdd order) := by
  rw [OrderBook.get_applyAll_empty] at ho
  refine ⟨?_, ?_⟩
  · exact volume_pos_of_mem_foldl_track (fun order horder =>
      volume_pos_of_wellBehaved h (hreceived.subset horder)) o ho
  · by_cases hann : Announced orderId received
    · obtain ⟨order, horder, rfl⟩ := hann
      obtain ⟨o', ho', hwithin⟩ := (knownWithin_of_received h hreceived horder).2 o ho
      exact ⟨order, horder, rfl, Option.mem_some_iff.mp ho' ▸ hwithin⟩
    · rw [foldl_track_of_not_announced hann] at ho
      cases ho

/-- What rests and was announced is shown with at least its volume. -/
lemma shown_of_announced (h : Mealy.Along remember WellBehaved [] cmds)
    {received : List MarketEvent} (hreceived : received.Sublist (feedOf cmds)) {orderId : ℤ}
    (hann : Announced orderId received) {o : OpenOrder}
    (ho : (orderId, o) ∈ (MatchingEngineRouter.after cmds).openOrders) :
    ∃ o' ∈ (OrderBook.empty.applyAll received).openOrders.get orderId, o.Within o' := by
  rw [OrderBook.get_applyAll_empty]
  obtain ⟨order, horder, rfl⟩ := hann
  exact (knownWithin_of_received h hreceived horder).1 o ((mem_foldl_track_feedOf h).mpr ho)

end Feed

/-! ## Listeners that miss events -/

/-- **A lossy listener only ever shows too much.**  Whatever events of a well-behaved feed a
listener misses, every order it shows was announced to it, with the same ticker, side and price and
with at least the volume shown; every order that rests and was announced to it is shown with at
least the volume that rests; and of an order none of whose events it missed it shows exactly what
rests. -/
theorem lossy_listener [PriceSum] (cmds : List InboundCommand)
    (h : Mealy.Along remember WellBehaved [] cmds) (received : List MarketEvent)
    (hreceived : received.Sublist (feedOf cmds)) (orderId : ℤ) :
    (∀ o ∈ (OrderBook.empty.applyAll received).openOrders.get orderId, 0 < o.volume ∧
      ∃ order, .orderAdd order ∈ received ∧ order.orderId = orderId ∧
        o.Within (OpenOrder.ofAdd order)) ∧
    (Announced orderId received →
      ∀ o, (orderId, o) ∈ (MatchingEngineRouter.after cmds).openOrders →
        ∃ o' ∈ (OrderBook.empty.applyAll received).openOrders.get orderId, o.Within o') ∧
    ((received.filter fun event => event.Names orderId) =
        ((feedOf cmds).filter fun event => event.Names orderId) →
      ∀ o, o ∈ (OrderBook.empty.applyAll received).openOrders.get orderId ↔
        (orderId, o) ∈ (MatchingEngineRouter.after cmds).openOrders) := by
  refine ⟨fun o => announced_of_shown h hreceived,
    fun hann o => shown_of_announced h hreceived hann, fun hnames o => ?_⟩
  rw [OrderBook.get_applyAll_empty, ← foldl_track_filter, hnames, foldl_track_filter]
  exact mem_foldl_track_feedOf h

/-- The trade of the second order with the first is lost: the listener still shows 5 of the first,
of which 2 rest. -/
theorem lossy_listener_missing_trade :
    let cmds : List InboundCommand :=
      [.add ⟨1, 1, .aapl, .sell, 101, 5⟩, .add ⟨2, 2, .aapl, .buy, 102, 3⟩, .cancel ⟨2, 2, .aapl⟩]
    let received : List MarketEvent := [.orderAdd ⟨1, 1, .aapl, .sell, 101, 5⟩,
      .orderAdd ⟨2, 2, .aapl, .buy, 102, 3⟩, .orderCancel ⟨2, 2, .aapl⟩]
    Mealy.Along remember WellBehaved [] cmds ∧ received.Sublist (@feedOf PriceSum.int64 cmds) ∧
      (OrderBook.empty.applyAll received).openOrders.get 1 = some ⟨.aapl, .sell, 101, 5⟩ ∧
      ∃ o' ∈ (OrderBook.empty.applyAll received).openOrders.get 1,
        OpenOrder.Within ⟨.aapl, .sell, 101, 2⟩ o' := by
  intro cmds received
  refine ⟨by decide, by decide, by decide, ?_⟩
  exact (@lossy_listener PriceSum.int64 cmds (by decide) received (by decide) 1).2.1
    ⟨_, List.mem_cons_self .., rfl⟩ _ (by decide)

/-- **A late listener knows the orders announced since.**  A listener that joins a well-behaved feed
late, and misses nothing from then on, shows exactly the resting orders whose add events it
heard. -/
theorem late_listener [PriceSum] (cmds : List InboundCommand)
    (h : Mealy.Along remember WellBehaved [] cmds) (missed heard : List MarketEvent)
    (hfeed : feedOf cmds = missed ++ heard) (orderId : ℤ) (o : OpenOrder) :
    o ∈ (OrderBook.empty.applyAll heard).openOrders.get orderId ↔
      Announced orderId heard ∧
        (orderId, o) ∈ (MatchingEngineRouter.after cmds).openOrders := by
  rw [OrderBook.get_applyAll_empty, ← mem_foldl_track_feedOf h, hfeed, List.foldl_append]
  by_cases hann : Announced orderId heard
  · rw [foldl_track_of_announced hann (missed.foldl _ _)]
    exact (and_iff_right hann).symm
  · rw [foldl_track_of_not_announced hann]
    exact ⟨nofun, fun hand => absurd hand.1 hann⟩

/-- One that joins after the first add never learns of that order, but has the second. -/
theorem late_listener_second_order :
    let cmds : List InboundCommand :=
      [.add ⟨1, 1, .aapl, .sell, 101, 5⟩, .add ⟨2, 2, .aapl, .sell, 102, 3⟩]
    let heard : List MarketEvent := [.orderAdd ⟨2, 2, .aapl, .sell, 102, 3⟩]
    Mealy.Along remember WellBehaved [] cmds ∧
      ⟨.aapl, .sell, 102, 3⟩ ∈ (OrderBook.empty.applyAll heard).openOrders.get 2 := by
  intro cmds heard
  refine ⟨by decide, ?_⟩
  refine (@late_listener PriceSum.int64 cmds (by decide)
    [.orderAdd ⟨1, 1, .aapl, .sell, 101, 5⟩] heard (by decide) 2 _).mpr ⟨?_, by decide⟩
  exact ⟨_, List.mem_singleton_self _, rfl⟩

end ToyExchange
