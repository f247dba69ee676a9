import ToyExchange.Workers.Fills

/-!
# Volumes in 64 bits

Volumes and positions are stored in 64-bit words.  The subtractions of `Match` stay in range, and so
do the negation of the volume in `ApplyFill` and the absolute value of the change, because the
volumes of trades are positive and no larger than the volumes that came in.  What `ApplyFill` does
with the position is another matter: positions accumulate, and nothing bounds them.  The sum of the
position and the change can leave the range, and the absolute value of the position is out of range
if the position is the least integer.

`volumesInRange_iff` says that this is all there is to check: every operation stays in range exactly
as long as every user's exact position in every ticker does, and no further fill meets a position of
`-2 ^ 63`.  `position_overflows` is a run that leaves the range with four orders.
-/

namespace ToyExchange

open SignedWord

/-- The changes of one user's position in one ticker. -/
def deltasOf (fills : List Fill) (user : Fin marketParticipantCount) (ticker : Ticker) : List ℤ :=
  (fills.filter fun f => f.user = user ∧ f.ticker = ticker).map Fill.signedDelta

/-- The true signed sum of a user's fills in a ticker. -/
def netVolume (fills : List Fill) (user : Fin marketParticipantCount) (ticker : Ticker) : ℤ :=
  (deltasOf fills user ticker).sum

/-- The position in a 64-bit word after the fills: each one adds its change to what is stored. -/
def storedVolume (fills : List Fill) (user : Fin marketParticipantCount) (ticker : Ticker) : ℤ :=
  (deltasOf fills user ticker).foldl (fun stored d => wrap 64 (stored + wrap 64 d)) 0

/-- The results of the 64-bit operations of `ApplyFill` on volumes, where it finds the position
`oldVolume`: the negation for a sell, the absolute values of the position and of its change, which
both branches take, and the new position. -/
def Fill.results (f : Fill) (oldVolume : ℤ) : List ℤ :=
  (match f.side with
    | .buy => []
    | .sell => [-f.tradeVolume]) ++
  [(oldVolume.natAbs : ℤ), (f.signedDelta.natAbs : ℤ), oldVolume + f.signedDelta]

section Net

variable {user : Fin marketParticipantCount} {ticker : Ticker}

lemma netVolume_append (fills fills' : List Fill) :
    netVolume (fills ++ fills') user ticker =
      netVolume fills user ticker + netVolume fills' user ticker := by
  unfold netVolume deltasOf
  rw [List.filter_append, List.map_append, List.sum_append]

lemma netVolume_singleton (f : Fill) :
    netVolume [f] user ticker =
      if f.user = user ∧ f.ticker = ticker then f.signedDelta else 0 := by
  unfold netVolume deltasOf
  by_cases h : f.user = user ∧ f.ticker = ticker
  · simp [h]
  · simp [h]

/-- What is stored is the true sum, wrapped. -/
lemma storedVolume_eq_wrap (fills : List Fill) :
    storedVolume fills user ticker = wrap 64 (netVolume fills user ticker) := by
  have hfold := foldl_wrap 64 (deltasOf fills user ticker) 0
  rw [zero_add] at hfold
  exact hfold

/-- A call of `ApplyFill` changes one user's position in one ticker. -/
lemma UserRegistry.position_applyFill (r : UserRegistry) (f : Fill) :
    ((r.applyFill f).users user).position ticker =
      (r.users user).position ticker +
        if f.user = user ∧ f.ticker = ticker then f.signedDelta else 0 := by
  rw [applyFill, users_modify]
  by_cases huser : user = f.user
  · subst huser
    rw [if_pos rfl, User.position_applyFill]
    simp only [true_and, eq_comm (a := ticker)]
    rfl
  · rw [if_neg huser, if_neg fun h => huser h.1.symm, add_zero]

/-- Fills change a user's position by their true signed sum. -/
lemma UserRegistry.position_foldl (r : UserRegistry) (fills : List Fill) :
    ((fills.foldl applyFill r).users user).position ticker =
      (r.users user).position ticker + netVolume fills user ticker := by
  induction fills generalizing r with
  | nil => exact (add_zero _).symm
  | cons f fills ih =>
    rw [List.foldl_cons, ih, position_applyFill, ← netVolume_singleton, add_assoc,
      ← netVolume_append]
    rfl

/-- The position of a user after fills is their true signed sum. -/
lemma position_eq_netVolume (fills : List Fill) :
    ((fills.foldl UserRegistry.applyFill .fresh).users user).position ticker =
      netVolume fills user ticker := by
  rw [UserRegistry.position_foldl]
  exact zero_add _

/-- Marking to market changes no position. -/
lemma UserRegistry.position_markToMarket (r : UserRegistry)
    (maker taker : Fin marketParticipantCount) (t : Ticker) (mid : Option ℤ) :
    ((r.markToMarket maker taker t mid).users user).position ticker =
      (r.users user).position ticker := by
  have hmodify : ∀ (r : UserRegistry) (i : Fin marketParticipantCount) (mid : ℤ),
      ((r.modify i fun u => u.refreshUnrealizedPnl t mid).users user).position ticker =
        (r.users user).position ticker := by
    intro r i mid
    rw [users_modify]
    split_ifs
    · exact User.position_refreshUnrealizedPnl _ _ _ _
    · rfl
  cases mid with
  | none => rfl
  | some mid => exact (hmodify _ taker mid).trans (hmodify r maker mid)

/-- After trades were settled, up to the first one that throws, a user's position is the true signed
sum of the fills. -/
theorem position_settleAll (r : UserRegistry) (log : List (Trade × Option ℤ)) :
    ((r.settleAll log).users user).position ticker =
      (r.users user).position ticker + netVolume (fillsOf (log.map Prod.fst)) user ticker := by
  induction log generalizing r with
  | nil => exact (add_zero _).symm
  | cons x log ih =>
    obtain ⟨t, mid⟩ := x
    have hthrows := r.threw_settle_iff t mid
    change _ = _ + netVolume (if t.fills = [] then [] else t.fills ++ _) user ticker
    rw [UserRegistry.settleAll]
    cases hthrew : (r.settle t mid).threw with
    | true =>
      rw [if_pos rfl, if_pos (hthrows.mp hthrew), UserRegistry.settle_of_throws hthrew]
      exact (add_zero _).symm
    | false =>
      obtain ⟨maker, taker, -, -, hregistry⟩ := UserRegistry.settle_eq_fills hthrew
      have hne : t.fills ≠ [] := fun hnil => by simp [hthrows.mpr hnil] at hthrew
      rw [if_neg Bool.false_ne_true, if_neg hne, ih, hregistry, UserRegistry.position_markToMarket,
        UserRegistry.position_foldl, netVolume_append, add_assoc]

/-- With a positive volume in range, the results are in range if the absolute value of the position
and the new position are. -/
lemma Fill.inRange_results_iff {f : Fill} (hpos : 0 < f.tradeVolume)
    (hvol : InRange 64 f.tradeVolume) (oldVolume : ℤ) :
    (∀ x ∈ f.results oldVolume, InRange 64 x) ↔
      InRange 64 oldVolume.natAbs ∧ InRange 64 (oldVolume + f.signedDelta) := by
  have hneg := inRange_neg hpos hvol
  have habs : (f.signedDelta.natAbs : ℤ) = f.tradeVolume := by
    unfold signedDelta
    cases f.side with
    | buy => exact Int.natAbs_of_nonneg hpos.le
    | sell => exact (congrArg Nat.cast (Int.natAbs_neg _)).trans (Int.natAbs_of_nonneg hpos.le)
  unfold results
  rw [habs]
  cases f.side with
  | buy => simp [hvol]
  | sell => simp [hvol, hneg]

end Net

/-! ## Whole runs -/

section Runs

variable [PriceSum]

/-- The calls of `ApplyFill` made for the trades of a sequence of commands. -/
def fillsAfter (cmds : List InboundCommand) : List Fill :=
  fillsOf (MatchingEngineRouter.tradesOf cmds)

/-- Every 64-bit operation on volumes stays in range, and what is stored is right. -/
structure VolumesInRange (cmds : List InboundCommand) : Prop where
  /-- The subtractions of `Match`. -/
  differences : ∀ pre cmd, pre ++ [cmd] <+: cmds →
    ∀ x ∈ (MatchingEngineRouter.after pre).differences cmd, InRange 64 x
  /-- The negations, the absolute values and the sums of `ApplyFill`. -/
  results : ∀ pre f, pre ++ [f] <+: fillsAfter cmds →
    ∀ x ∈ f.results (((pre.foldl UserRegistry.applyFill .fresh).users f.user).position f.ticker),
      InRange 64 x
  /-- Each stored position is the true signed sum of the user's fills. -/
  stored : ∀ pre, pre <+: fillsAfter cmds → ∀ user ticker,
    storedVolume pre user ticker = netVolume pre user ticker
  /-- After the settlement of any first trades, whatever mid prices are read for them, the stored
  position is the exact one of the registry. -/
  settled : ∀ log : List (Trade × Option ℤ),
    log.map Prod.fst <+: MatchingEngineRouter.tradesOf cmds → ∀ user ticker,
      storedVolume (fillsOf (log.map Prod.fst)) user ticker =
        ((UserRegistry.fresh.settleAll log).users user).position ticker

variable {cmds : List InboundCommand}

omit [PriceSum] in
/-- A volume of 64 bits is below the bound. -/
lemma volumeBelow_of_inRange (hvol : ∀ order, .add order ∈ cmds → InRange 64 order.volume) :
    ∀ cmd ∈ cmds, cmd.VolumeBelow (2 ^ 63) := by
  intro cmd hcmd
  cases cmd with
  | add order =>
    obtain ⟨-, hhigh⟩ := hvol order hcmd
    change order.volume < 2 ^ 63
    omega
  | cancel request => trivial

/-- The subtractions of `Match` stay in range. -/
lemma differences_inRange (hvol : ∀ order, .add order ∈ cmds → InRange 64 order.volume)
    {pre : List InboundCommand} {cmd : InboundCommand} (hpre : pre ++ [cmd] <+: cmds) :
    ∀ x ∈ (MatchingEngineRouter.after pre).differences cmd, InRange 64 x := by
  have hbelow := volumeBelow_of_inRange hvol
  intro x hx
  obtain ⟨hnonneg, hlt⟩ := MatchingEngineRouter.mem_differences
    (fun c hc => hbelow c (hpre.subset (List.mem_append_left _ hc)))
    (hbelow cmd (hpre.subset (List.mem_append_right _ (List.mem_singleton.mpr rfl)))) x hx
  exact inRange_of_nonneg hnonneg (by omega)

/-- The volume of a fill is positive and in range. -/
lemma tradeVolume_inRange (hvol : ∀ order, .add order ∈ cmds → InRange 64 order.volume)
    {f : Fill} (hf : f ∈ fillsAfter cmds) : 0 < f.tradeVolume ∧ InRange 64 f.tradeVolume := by
  obtain ⟨t, ht, hft⟩ := exists_of_mem_fillsOf hf
  have hpos := MatchingEngineRouter.volume_pos_of_mem_tradesOf cmds t ht
  have hlt := MatchingEngineRouter.volume_lt_of_mem_tradesOf (volumeBelow_of_inRange hvol) t ht
  rw [tradeVolume_of_mem_fills hft]
  exact ⟨hpos, inRange_of_nonneg hpos.le (by omega)⟩

/-- The operations of one call of `ApplyFill` in a run. -/
lemma inRange_results_iff_netVolume
    (hvol : ∀ order, .add order ∈ cmds → InRange 64 order.volume) {pre : List Fill} {f : Fill}
    (hpre : pre ++ [f] <+: fillsAfter cmds) :
    (∀ x ∈ f.results (((pre.foldl UserRegistry.applyFill .fresh).users f.user).position f.ticker),
      InRange 64 x) ↔
      InRange 64 (netVolume pre f.user f.ticker).natAbs ∧
        InRange 64 (netVolume (pre ++ [f]) f.user f.ticker) := by
  have hf : f ∈ fillsAfter cmds :=
    hpre.subset (List.mem_append_right _ (List.mem_singleton.mpr rfl))
  obtain ⟨hpos, hrange⟩ := tradeVolume_inRange hvol hf
  rw [Fill.inRange_results_iff hpos hrange, position_eq_netVolume, netVolume_append,
    netVolume_singleton, if_pos ⟨rfl, rfl⟩]

/-- **Volumes stay in 64 bits exactly as long as the positions do.**  For commands with 64-bit
volumes and any ids, every operation on volumes stays in range and every stored position is the true
signed sum of the user's fills, if and only if after each fill every user's true position in every
ticker is in range, and no position is `-2 ^ 63` when a further fill of its user and ticker is
applied. -/
theorem volumesInRange_iff (cmds : List InboundCommand)
    (hvol : ∀ order, .add order ∈ cmds → InRange 64 order.volume) :
    VolumesInRange cmds ↔
      (∀ pre, pre <+: fillsAfter cmds → ∀ user ticker, InRange 64 (netVolume pre user ticker)) ∧
      ∀ pre f, pre ++ [f] <+: fillsAfter cmds → netVolume pre f.user f.ticker ≠ -2 ^ 63 := by
  constructor
  · intro h
    have hnet : ∀ pre, pre <+: fillsAfter cmds → ∀ user ticker,
        InRange 64 (netVolume pre user ticker) := by
      intro pre hpre user ticker
      rw [← wrap_eq_self_iff, ← storedVolume_eq_wrap]
      exact h.stored pre hpre user ticker
    refine ⟨hnet, fun pre f hpre => ?_⟩
    have hold := hnet pre ((List.prefix_append pre [f]).trans hpre) f.user f.ticker
    have habs := ((inRange_results_iff_netVolume hvol hpre).mp (h.results pre f hpre)).1
    have hleast := (inRange_natAbs_iff hold).mp habs
    omega
  · rintro ⟨hnet, hleast⟩
    have hstored : ∀ pre, pre <+: fillsAfter cmds → ∀ user ticker,
        storedVolume pre user ticker = netVolume pre user ticker := by
      intro pre hpre user ticker
      rw [storedVolume_eq_wrap]
      exact wrap_of_inRange (hnet pre hpre user ticker)
    refine ⟨fun pre cmd hpre => differences_inRange hvol hpre, fun pre f hpre => ?_, hstored,
      fun log hlog user ticker => ?_⟩
    · have hold := hnet pre ((List.prefix_append pre [f]).trans hpre) f.user f.ticker
      have hne := hleast pre f hpre
      refine (inRange_results_iff_netVolume hvol hpre).mpr
        ⟨(inRange_natAbs_iff hold).mpr (by omega), hnet (pre ++ [f]) hpre f.user f.ticker⟩
    · rw [hstored _ (prefix_fillsOf hlog), position_settleAll]
      exact (zero_add _).symm

end Runs

/-- A sale of ten shares and two purchases by one user. -/
theorem volumesInRange_ten_shares :
    let cmds : List InboundCommand :=
      [.add ⟨1, 1, .aapl, .sell, 100, 10⟩, .add ⟨2, 2, .aapl, .buy, 100, 4⟩,
        .add ⟨3, 2, .aapl, .buy, 100, 6⟩]
    (∀ order, .add order ∈ cmds → InRange 64 order.volume) ∧
      (@VolumesInRange PriceSum.int64 cmds ↔
        (∀ pre, pre <+: @fillsAfter PriceSum.int64 cmds →
          ∀ user ticker, InRange 64 (netVolume pre user ticker)) ∧
        ∀ pre f, pre ++ [f] <+: @fillsAfter PriceSum.int64 cmds →
          netVolume pre f.user f.ticker ≠ -2 ^ 63) := by
  intro cmds
  have hvol : ∀ order, .add order ∈ cmds → InRange 64 order.volume := by
    intro order horder
    simp only [cmds, List.mem_cons, InboundCommand.add.injEq, List.not_mem_nil,
      or_false] at horder
    rcases horder with rfl | rfl | rfl
    · decide
    · decide
    · decide
  exact ⟨hvol, @volumesInRange_iff PriceSum.int64 cmds hvol⟩

/-- User 2 buys the largest 64-bit volume twice: the stored position is a short one. -/
theorem position_overflows :
    let most : ℤ := 9223372036854775807
    let cmds : List InboundCommand :=
      [.add ⟨1, 1, .aapl, .sell, 100, most⟩, .add ⟨2, 2, .aapl, .buy, 100, most⟩,
        .add ⟨3, 1, .aapl, .sell, 100, most⟩, .add ⟨4, 2, .aapl, .buy, 100, most⟩]
    let fills := @fillsAfter PriceSum.int64 cmds
    (∀ cmd ∈ cmds, ∃ order, cmd = .add order ∧ InRange 64 order.volume ∧
        (UserRegistry.get order.userId).isSome) ∧
      netVolume fills ⟨2, by decide⟩ .aapl = 18446744073709551614 ∧
      storedVolume fills ⟨2, by decide⟩ .aapl = -2 ∧
      ¬ @VolumesInRange PriceSum.int64 cmds := by
  intro most cmds fills
  have hnet : netVolume fills ⟨2, by decide⟩ .aapl = 18446744073709551614 := by decide
  have hstored : storedVolume fills ⟨2, by decide⟩ .aapl = -2 := by decide
  refine ⟨?_, hnet, hstored, fun h => ?_⟩
  · intro cmd hcmd
    simp only [cmds, List.mem_cons, List.not_mem_nil, or_false] at hcmd
    rcases hcmd with rfl | rfl | rfl | rfl
    · exact ⟨_, rfl, by decide⟩
    · exact ⟨_, rfl, by decide⟩
    · exact ⟨_, rfl, by decide⟩
    · exact ⟨_, rfl, by decide⟩
  · have hsame := @VolumesInRange.stored PriceSum.int64 cmds h fills (List.prefix_refl fills)
      ⟨2, by decide⟩ .aapl
    rw [hnet, hstored] at hsame
    exact absurd hsame (by decide)

end ToyExchange
