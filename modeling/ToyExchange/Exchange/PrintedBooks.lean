import ToyExchange.Exchange.ToolChain
import ToyExchange.Tools.ListenerProgram

/-!
# The books on the screen

The last stage of the chain is what a person sees: the ladders that the listener prints.  The
listener has only the public events, gets them as datagrams among whatever else is sent to the
group, adds up volumes in dictionaries and sorts their keys.

The rows of a book of the exchange are its levels with their total volumes.  They are looked up as
the depth that the listener's levels are known to have (`represents_rows`), and their prices are in
order, so the sorted loop of the listener meets exactly these rows (`byPrice_eq`).  Hence at every
moment at which the listener has got the events of some commands, the next snapshot shows the books
after these commands (`Listener.prints_the_books`).
-/

namespace ToyExchange

/-! ## The rows of a book -/

/-- The prices and total volumes of one side of the book, best price first. -/
def MatchingEngine.rows (e : MatchingEngine) (s : Side) : List (ℤ × ℤ) :=
  (e.levels s).map fun x => (x.1, (x.2.map fun r => r.volume).sum)

namespace MatchingEngine

lemma map_fst_rows (e : MatchingEngine) (s : Side) :
    (e.rows s).map Prod.fst = (e.levels s).map Prod.fst := by
  unfold rows
  rw [List.map_map]
  rfl

/-- The rows are looked up as the depth of the book. -/
lemma represents_rows (e : MatchingEngine) (s : Side) : Represents (e.depth s) (e.rows s) := by
  have hnodup : ((e.rows s).map Prod.fst).Nodup := by
    rw [map_fst_rows]
    exact (e.sorted_levels s).nodup
  have hdepth : e.depth s = fun price =>
      ((e.rows s).find? fun x => x.1 = price).map Prod.snd := by
    funext price
    unfold depth rows
    rw [List.find?_map, Option.map_map]
    rfl
  rw [hdepth]
  exact Dict.represents_find hnodup

/-- The prices of the asks from the last to the first, and those of the bids. -/
lemma sorted_rows (e : MatchingEngine) :
    (((e.rows .sell).reverse).map Prod.fst).Pairwise (· > ·) ∧
      ((e.rows .buy).map Prod.fst).Pairwise (· > ·) := by
  rw [List.map_reverse, List.pairwise_reverse, map_fst_rows, map_fst_rows]
  exact ⟨e.sorted_levels .sell, e.sorted_levels .buy⟩

/-- Every row stands for a live order of its side at its price. -/
lemma exists_live_of_mem_rows {e : MatchingEngine} (he : e.NoEmptyLevel) {s : Side} {row : ℤ × ℤ}
    (hrow : row ∈ e.rows s) : ∃ o ∈ e.live s, o.price = row.1 := by
  obtain ⟨x, hx, rfl⟩ := List.mem_map.mp hrow
  obtain ⟨r, hr⟩ := List.exists_mem_of_ne_nil _ (he s x hx)
  exact ⟨LiveOrder.onSide s (x.1, r), mem_liveOf.mpr ⟨rfl, x.2, hx, hr⟩, rfl⟩

/-- The prices of the printed rows fall from the top to the bottom. -/
lemma Sound.descending {e : MatchingEngine} (he : e.Sound) :
    (((e.rows .sell).reverse ++ e.rows .buy).map Prod.fst).Pairwise (· > ·) := by
  rw [List.map_append, List.pairwise_append]
  refine ⟨e.sorted_rows.1, e.sorted_rows.2, fun ask hask bid hbid => ?_⟩
  obtain ⟨askRow, haskRow, rfl⟩ := List.mem_map.mp hask
  obtain ⟨bidRow, hbidRow, rfl⟩ := List.mem_map.mp hbid
  obtain ⟨o, ho, hprice⟩ :=
    exists_live_of_mem_rows he.noEmptyLevel (List.mem_reverse.mp haskRow)
  obtain ⟨o', ho', hprice'⟩ := exists_live_of_mem_rows he.noEmptyLevel hbidRow
  have hbefore := he.uncrossed .buy o' ho' o ho
  rwa [hprice, hprice'] at hbefore

/-- Every printed volume is positive. -/
lemma Sound.rows_pos {e : MatchingEngine} (he : e.Sound) {s : Side} {row : ℤ × ℤ}
    (hrow : row ∈ e.rows s) : 0 < row.2 := by
  obtain ⟨x, hx, rfl⟩ := List.mem_map.mp hrow
  refine List.sum_pos _ (fun volume hvolume => ?_) ?_
  · obtain ⟨r, hr, rfl⟩ := List.mem_map.mp hvolume
    exact he.volume_pos s (LiveOrder.onSide s (x.1, r)) (mem_liveOf.mpr ⟨rfl, x.2, hx, hr⟩)
  · rw [ne_eq, List.map_eq_nil_iff]
    exact he.noEmptyLevel s x hx

end MatchingEngine

/-! ## The ladders are the books -/

namespace Tools

/-- The loop over the sorted prices sees the rows of a list that falls in price. -/
lemma byPrice_eq {levels : Dict ℤ ℤ} {rows : List (ℤ × ℤ)} (h : Represents levels.get rows)
    (hsorted : (rows.map Prod.fst).Pairwise (· > ·)) : byPrice levels = rows := by
  refine levels.map_mergeSort_keys (fun a b c hab hbc => ?_) (fun a b => ?_)
    (fun a b hab hba => ?_) h (hsorted.imp fun hlt => decide_eq_true hlt.le) 0
  · simp only [decide_eq_true_eq] at hab hbc ⊢
    exact hbc.trans hab
  · simpa using le_total b a
  · simp only [decide_eq_true_eq] at hab hba
    exact le_antisymm hba hab

end Tools

/-- What a snapshot of the books of the exchange should look like. -/
def MatchingEngineRouter.snapshot (r : MatchingEngineRouter) (ts : List Char) :
    List (List Char) :=
  Tools.snapshot ts ((List.finRange instruments.length).flatMap fun i =>
    Tools.ladder (Tools.textOf (tickerAt i).chars) ((r.engines i).rows .buy)
      ((r.engines i).rows .sell).reverse)

namespace Tools

/-- A book with the live orders of the exchange is printed as the books of the exchange. -/
lemma Book.printSnapshot_of_perm {r : MatchingEngineRouter} {b : OrderBook}
    (hr : ∀ i, (r.engines i).NoEmptyLevel) (h : b.openOrders.entries.Perm r.openOrders)
    (ts : List Char) : (ofOrderBook b).printSnapshot ts = r.snapshot ts := by
  have hinstruments : instruments =
      (List.finRange ToyExchange.instruments.length).map fun i => textOf (tickerAt i).chars := by
    decide
  have hlisted : ∀ i, tickerAt i ∈ ToyExchange.instruments := fun i => List.get_mem _ i
  have hrows : ∀ i s, Represents (b.levelsOf (tickerAt i) s).get ((r.engines i).rows s) := by
    intro i s
    have hdepth : (b.levelsOf (tickerAt i) s).get = (r.engines i).depth s := by
      funext price
      rw [get_levelsOf_of_perm hr h (hlisted i) s price, MatchingEngineRouter.depth,
        place_eq_some.mpr rfl]
    rw [hdepth]
    exact (r.engines i).represents_rows s
  unfold Book.printSnapshot MatchingEngineRouter.snapshot
  rw [hinstruments, List.flatMap_map]
  congr 2
  funext i
  rw [levels_ofOrderBook]
  congr 1
  · exact byPrice_eq (hrows i .buy) (r.engines i).sorted_rows.2
  · exact byPrice_eq ((hrows i .sell).perm (List.reverse_perm _).symm) (r.engines i).sorted_rows.1

/-! ## What arrives -/

/-- The datagram is a message of a known type. -/
def isMarketEvent (data : List UInt8) : Bool :=
  match decodeMarketData (data.take 4096) with
  | .error _ | .ok (.unknown _) => false
  | .ok _ => true

/-- The datagram of a turn, if it is a message of a known type. -/
def ListenerTurn.event? (t : ListenerTurn) : Option (List UInt8) := t.datagram.filter isMarketEvent

/-- Other datagrams do not change the book. -/
lemma Book.foldl_apply_of_event?_eq_none {t : ListenerTurn} (h : t.event? = none) (b : Book) :
    t.message?.toList.foldl apply b = b := by
  unfold ListenerTurn.message? ListenerTurn.data
  unfold ListenerTurn.event? at h
  rcases hdatagram : t.datagram with - | data
  · rfl
  · rw [hdatagram, Option.filter_eq_none_iff] at h
    have hother : ¬ isMarketEvent data := h data rfl
    unfold isMarketEvent at hother
    rw [Option.map_some, Option.bind_some]
    rcases hdecode : decodeMarketData (data.take 4096) with exc | message
    · rfl
    · rw [hdecode] at hother
      rcases message with _ | _ | _ | raw
      · exact absurd rfl hother
      · exact absurd rfl hother
      · exact absurd rfl hother
      · rfl

/-- The message of an event is decoded. -/
lemma ListenerTurn.message?_of_encodes {t : ListenerTurn} {data : List UInt8} {event : MarketEvent}
    (h : t.event? = some data) (hencodes : Encodes data event) (hevent : event.Encodable) :
    t.message? = some (feedMessageOf event) := by
  obtain ⟨rest, rfl⟩ := hencodes
  obtain ⟨hlength, hdecode⟩ := decodeMarketData_encodeEvent rest hevent
  have hdatagram : t.datagram = some (encodeEvent rest event) := (Option.filter_eq_some_iff.mp h).1
  unfold message? data
  rw [hdatagram, Option.map_some, Option.bind_some, take_of_length_eq hlength, hdecode]
  rfl

/-- The book of the program follows the events that arrive. -/
lemma Book.foldl_messages {turns : List ListenerTurn} {events : List MarketEvent}
    (h : List.Forall₂ Encodes (turns.filterMap ListenerTurn.event?) events)
    (hevents : ∀ event ∈ events, event.Encodable) (b : OrderBook) :
    (turns.filterMap ListenerTurn.message?).foldl apply (ofOrderBook b) =
      ofOrderBook (b.applyAll events) := by
  induction turns generalizing events b with
  | nil =>
    cases h
    rfl
  | cons t turns ih =>
    rw [foldl_messages_cons]
    rcases ht : t.event? with - | data
    · rw [List.filterMap_cons_none ht] at h
      rw [foldl_apply_of_event?_eq_none ht]
      exact ih h hevents b
    · rw [List.filterMap_cons_some ht] at h
      rcases h with - | ⟨hencodes, htail⟩
      obtain ⟨hevent, hevents⟩ := List.forall_mem_cons.mp hevents
      rw [ListenerTurn.message?_of_encodes ht hencodes hevent]
      change List.foldl apply ((ofOrderBook b).apply _) _ = _
      rw [apply_ofOrderBook]
      exact ih htail hevents _

/-- **The screen shows the books of the exchange.**  Let a listener be started before the first of
some well-behaved commands with ASCII tickers, and let it get the datagrams of their events, in
order, among any other datagrams that are not messages of these types.  Then it is still running,
and the snapshot that it would print now has for each instrument the asks of the book from the
highest to the lowest and the bids from the highest to the lowest, each price with the total volume
that rests there.  Prices strictly fall from the first row to the last, and volumes are positive. -/
theorem Listener.prints_the_books [PriceSum] {cmds : List InboundCommand}
    (h : Mealy.Along remember WellBehaved [] cmds) (hascii : ∀ cmd ∈ cmds, cmd.event.Encodable)
    {turns : List ListenerTurn}
    (hturns : List.Forall₂ Encodes (turns.filterMap ListenerTurn.event?) (feedOf cmds))
    (interval start : ℚ) :
    ∃ s printed, (⟨.empty, start⟩ : Listener).loop interval turns = .ok (s, printed) ∧
      (∀ ts, s.book.printSnapshot ts = (MatchingEngineRouter.after cmds).snapshot ts) ∧
      ∀ i, let e := (MatchingEngineRouter.after cmds).engines i
        (((e.rows .sell).reverse ++ e.rows .buy).map Prod.fst).Pairwise (· > ·) ∧
        ∀ side, ∀ row ∈ e.rows side, 0 < row.2 := by
  have hfeeds := feeds_of_wellBehaved h
  obtain ⟨s, printed, hloop, hbook, -⟩ := Listener.loop_spec interval ⟨.empty, start⟩ turns
  refine ⟨s, printed, hloop, fun ts => ?_,
    fun i => ⟨(hfeeds.sound i).descending, fun side row => (hfeeds.sound i).rows_pos⟩⟩
  have hevents := Book.foldl_messages hturns
    (fun event hevent => encodable_of_mem_feedOf hascii hevent) OrderBook.empty
  rw [hbook]
  change ((turns.filterMap ListenerTurn.message?).foldl Book.apply
    (.ofOrderBook OrderBook.empty)).printSnapshot ts = _
  rw [hevents]
  exact Book.printSnapshot_of_perm (fun i => (hfeeds.sound i).noEmptyLevel)
    ((listen cmds).openOrders.represents.perm_of_same hfeeds.mirrors) ts

/-- Nothing arrives, then an empty datagram, then the events of three sells at two prices, of a buy
that takes 3 of the 7 offered at 101, and of a buy at 100: the rest of the asks is shown from the
top price down, and then the bid. -/
theorem Listener.prints_two_asks :
    let orders : List OrderAdd := [⟨1, 1, .aapl, .sell, 101000000, 5⟩,
      ⟨2, 3, .aapl, .sell, 103000000, 4⟩, ⟨3, 3, .aapl, .sell, 101000000, 2⟩,
      ⟨4, 2, .aapl, .buy, 102000000, 3⟩, ⟨5, 2, .aapl, .buy, 100000000, 6⟩]
    let cmds := orders.map InboundCommand.add
    let turns : List ListenerTurn := ⟨none, [], 1, []⟩ :: ⟨some [], [], 2, []⟩ ::
      (@feedOf PriceSum.int64 cmds).map fun event =>
        ⟨some (encodeEvent (fun _ => 0) event), [], 3, []⟩
    Mealy.Along remember WellBehaved [] cmds ∧
      ∃ s printed, (⟨.empty, 0⟩ : Listener).loop 2 turns = .ok (s, printed) ∧
        ((s.book.printSnapshot "12:00:00".toList).drop 3).take 4 =
          ["        ask      103.00  x4".toList, "        ask      101.00  x4".toList,
            "   ------------------------------".toList, "        bid      100.00  x6".toList] := by
  intro orders cmds turns
  have hcmds : Mealy.Along remember WellBehaved [] cmds := by decide
  have horders : ∀ order ∈ orders, order.ticker ∈ ToyExchange.instruments ∧
      SignedWord.InRange 64 order.orderId ∧ SignedWord.InRange 64 order.userId ∧
      SignedWord.InRange 64 order.price ∧ SignedWord.InRange 64 order.volume := by
    decide
  have hascii : ∀ cmd ∈ cmds, cmd.event.Encodable := by
    refine List.forall_mem_map.mpr fun order horder => ?_
    obtain ⟨hlisted, hwords⟩ := horders order horder
    exact MarketEvent.encodable_iff.mpr ⟨hwords, isAscii_of_mem_instruments _ hlisted⟩
  have hturns : List.Forall₂ Encodes (turns.filterMap ListenerTurn.event?)
      (@feedOf PriceSum.int64 cmds) := by
    have hevents : turns.filterMap ListenerTurn.event? =
        (@feedOf PriceSum.int64 cmds).map (encodeEvent fun _ => 0) := by
      decide +kernel
    rw [hevents, List.forall₂_map_left_iff, List.forall₂_same]
    exact fun event _ => ⟨_, rfl⟩
  obtain ⟨s, printed, hloop, hsnapshot, -⟩ :=
    @Listener.prints_the_books PriceSum.int64 cmds hcmds hascii turns hturns 2 0
  refine ⟨hcmds, s, printed, hloop, ?_⟩
  rw [hsnapshot]
  decide +kernel

end Tools

end ToyExchange
