import ToyExchange.Engine.Router
import ToyExchange.Foundations.SignedWord

/-!
# The volumes of trades

No trade is empty, and none is larger than the live order it fills: a drain takes positive amounts
from live orders, which hold positive volumes (`volume_pos_of_mem_tradesOf`).

`Match` subtracts each traded volume from what remains of the incoming order and from the resting
order.  `levelDifferences` and `bookDifferences` list the results in the order of the loops.  They
lie between zero and the larger of the two orders, so none of them leaves the range of the
volumes that came in (`mem_differences`).
-/

namespace ToyExchange

/-! ## The subtractions of the matching loops -/

/-- The results of the subtractions of the inner loop: for each fill, what remains of the incoming
order and what remains of the resting one. -/
def levelDifferences : PriceLevel → ℤ → List ℤ
  | [], _ => []
  | resting :: level, remaining =>
    if 0 < remaining then
      let traded := min remaining resting.volume
      (remaining - traded) :: (resting.volume - traded) ::
        if resting.volume - traded = 0 then levelDifferences level (remaining - traded) else []
    else []

/-- The results of the subtractions of the outer loop. -/
def bookDifferences (priceCrosses : ℤ → ℤ → Bool) (incoming : OrderAdd) :
    List (ℤ × PriceLevel) → ℤ → OrderIndex → List ℤ
  | [], _, _ => []
  | (price, level) :: book, remaining, index =>
    if 0 < remaining then
      if priceCrosses incoming.price price then
        let m := matchLevel incoming price level remaining index
        levelDifferences level remaining ++
          if m.level.isEmpty then
            bookDifferences priceCrosses incoming book m.remaining m.orderIndex
          else []
      else []
    else []

section Differences

variable {bound : ℤ} {level : PriceLevel} {remaining : ℤ} {incoming : OrderAdd} {price : ℤ}
  {index : OrderIndex} {priceCrosses : ℤ → ℤ → Bool}

/-- The results of the inner loop are not negative and below every bound of the volumes. -/
lemma mem_levelDifferences (hlevel : ∀ r ∈ level, 0 < r.volume ∧ r.volume < bound)
    (hlt : remaining < bound) : ∀ x ∈ levelDifferences level remaining, 0 ≤ x ∧ x < bound := by
  induction level generalizing remaining with
  | nil => nofun
  | cons resting level ih =>
    obtain ⟨⟨hpos, hbound⟩, htail⟩ := List.forall_mem_cons.mp hlevel
    intro x hx
    rw [levelDifferences] at hx
    split_ifs at hx
    · rcases List.mem_cons.mp hx with rfl | hx
      · omega
      rcases List.mem_cons.mp hx with rfl | hx
      · omega
      split_ifs at hx
      · exact ih htail (by omega) x hx
      · cases hx
    · cases hx

/-- The inner loop does not add to what remains. -/
lemma matchLevel_remaining_le (hlevel : ∀ r ∈ level, 0 < r.volume) :
    (matchLevel incoming price level remaining index).remaining ≤ remaining := by
  induction level generalizing remaining index with
  | nil => exact le_rfl
  | cons resting level ih =>
    obtain ⟨hhead, htail⟩ := List.forall_mem_cons.mp hlevel
    by_cases hpos : 0 < remaining
    · rcases le_or_gt resting.volume remaining with hle | hlt
      · rw [matchLevel_cons_of_le hpos hle]
        exact (ih htail).trans (by omega)
      · rw [matchLevel_cons_of_lt hpos hlt]
        exact hpos.le
    · rw [matchLevel_of_not_pos hpos]

/-- The results of the outer loop likewise. -/
lemma mem_bookDifferences {book : List (ℤ × PriceLevel)}
    (hbook : ∀ e ∈ book, ∀ r ∈ e.2, 0 < r.volume ∧ r.volume < bound) (hlt : remaining < bound) :
    ∀ x ∈ bookDifferences priceCrosses incoming book remaining index, 0 ≤ x ∧ x < bound := by
  induction book generalizing remaining index with
  | nil => nofun
  | cons e book ih =>
    obtain ⟨price, level⟩ := e
    obtain ⟨hlevel, htail⟩ := List.forall_mem_cons.mp hbook
    have hle : (matchLevel incoming price level remaining index).remaining ≤ remaining :=
      matchLevel_remaining_le fun r hr => (hlevel r hr).1
    intro x hx
    rw [bookDifferences] at hx
    split_ifs at hx
    · rcases List.mem_append.mp hx with hx | hx
      · exact mem_levelDifferences hlevel hlt x hx
      split_ifs at hx
      · exact ih htail (hle.trans_lt hlt) x hx
      · cases hx
    · cases hx
    · cases hx

end Differences

/-- An add of a volume below the bound, or a cancel. -/
def InboundCommand.VolumeBelow (bound : ℤ) : InboundCommand → Prop
  | .add order => order.volume < bound
  | .cancel _ => True

namespace MatchingEngine

/-- The results of the subtractions that `Match` makes for a command. -/
def differences (e : MatchingEngine) : InboundCommand → List ℤ
  | .add order =>
    bookDifferences (fun limit price => order.side.crosses limit price) order
      (e.levels order.side.opposite) order.volume e.orderIndex
  | .cancel _ => []

/-- Every live volume is below the bound. -/
def VolumesBelow (bound : ℤ) (e : MatchingEngine) : Prop := ∀ s, ∀ o ∈ e.live s, o.volume < bound

variable {bound : ℤ} {e : MatchingEngine}

lemma volumesBelow_empty : empty.VolumesBelow bound := by
  intro s o ho
  cases s <;> simp [live, levels, empty] at ho

/-- No subtraction leaves the range from zero to the bound. -/
lemma mem_differences (he : e.Sound) (h : e.VolumesBelow bound) {cmd : InboundCommand}
    (hcmd : cmd.VolumeBelow bound) : ∀ x ∈ e.differences cmd, 0 ≤ x ∧ x < bound := by
  cases cmd with
  | add order =>
    refine mem_bookDifferences (fun entry hentry r hr => ?_) hcmd
    have hlive : LiveOrder.onSide order.side.opposite (entry.1, r) ∈ e.live order.side.opposite :=
      mem_liveOf.mpr ⟨rfl, entry.2, hentry, hr⟩
    exact ⟨he.volume_pos _ _ hlive, h _ _ hlive⟩
  | cancel request => nofun

variable [PriceSum]

/-- A command whose volume is below the bound keeps the live volumes below it. -/
lemma volumesBelow_step (he : e.Sound) (h : e.VolumesBelow bound) {cmd : InboundCommand}
    (hcmd : cmd.VolumeBelow bound) : (e.step cmd).1.VolumesBelow bound := by
  intro s o ho
  cases cmd with
  | add order =>
    have hbelow : order.volume < bound := hcmd
    rcases order.side.eq_or_eq_opposite s with rfl | rfl
    · rcases mem_live_side_onOrderAdd he.noEmptyLevel ho with ho | ⟨-, rfl⟩
      · exact h _ o ho
      · have hleft : (e.fill order).left ≤ order.volume := Stock.left_le (he.volume_pos _)
        exact hleft.trans_lt hbelow
    · change o ∈ (e.onOrderAdd order).1.live _ at ho
      rw [live_opposite_onOrderAdd he.noEmptyLevel] at ho
      refine Stock.forall_rest (P := fun o : LiveOrder => o.volume < bound) (h _)
        (fun o v ho hv _ => ?_) o ho
      exact (sub_lt_self o.volume hv).trans ho
  | cancel request => exact h s o ((live_onOrderCancel_sublist e request s).mem ho)

/-- A trade has positive volume, and no more than the live order it fills. -/
lemma volume_of_mem_step (he : e.Sound) {cmd : InboundCommand} {t : Trade}
    (ht : t ∈ (e.step cmd).2) : 0 < t.volume ∧ ∃ s, ∃ o ∈ e.live s, t.volume ≤ o.volume := by
  cases cmd with
  | add order =>
    change t ∈ (e.onOrderAdd order).2 at ht
    rw [trades_onOrderAdd he.noEmptyLevel] at ht
    obtain ⟨x, hx, rfl⟩ := List.mem_map.mp ht
    exact ⟨Stock.taken_pos (he.volume_pos _) hx, _, x.1, (Stock.taken_mem hx).1,
      Stock.taken_le hx⟩
  | cancel request => cases ht

end MatchingEngine

namespace MatchingEngineRouter

/-- The results of the subtractions that `Match` makes for a command. -/
def differences (r : MatchingEngineRouter) (cmd : InboundCommand) : List ℤ :=
  match place cmd.ticker with
  | none => []
  | some i => (r.engines i).differences cmd

variable [PriceSum] {bound : ℤ} {cmds : List InboundCommand}

/-- The live volumes of a run are below every bound of the volumes of its commands. -/
theorem volumesBelow_after (h : ∀ cmd ∈ cmds, cmd.VolumeBelow bound) (i : Fin instruments.length) :
    ((after cmds).engines i).VolumesBelow bound := by
  induction cmds using List.reverseRecOn generalizing i with
  | nil => exact MatchingEngine.volumesBelow_empty
  | append_singleton cmds cmd ih =>
    obtain ⟨hpre, hcmd⟩ := List.forall_mem_append.mp h
    rw [after_concat]
    refine (forall_engines_step (P := fun _ e => e.Sound ∧ e.VolumesBelow bound) cmd
      (fun j e he => ?_) (fun j => ⟨sound_engines cmds j, ih hpre j⟩) i).2
    exact ⟨MatchingEngine.sound_step he.1 cmd,
      MatchingEngine.volumesBelow_step he.1 he.2 (hcmd cmd (List.mem_singleton.mpr rfl))⟩

/-- No subtraction of a run leaves the range from zero to a bound of the volumes. -/
theorem mem_differences (h : ∀ cmd ∈ cmds, cmd.VolumeBelow bound) {cmd : InboundCommand}
    (hcmd : cmd.VolumeBelow bound) : ∀ x ∈ (after cmds).differences cmd, 0 ≤ x ∧ x < bound := by
  unfold differences
  cases place cmd.ticker with
  | none => nofun
  | some i =>
    exact MatchingEngine.mem_differences (sound_engines cmds i) (volumesBelow_after h i) hcmd

/-- A trade has positive volume, and no more than a live order. -/
lemma volume_of_mem_step {r : MatchingEngineRouter} (hr : ∀ i, (r.engines i).Sound)
    {cmd : InboundCommand} {t : Trade} (ht : t ∈ (r.step cmd).2) :
    0 < t.volume ∧ ∃ i s, ∃ o ∈ (r.engines i).live s, t.volume ≤ o.volume := by
  cases hplace : place cmd.ticker with
  | none =>
    rw [step_of_unlisted r cmd hplace] at ht
    cases ht
  | some i =>
    rw [step_of_place r cmd hplace] at ht
    obtain ⟨hpos, hmaker⟩ := MatchingEngine.volume_of_mem_step (hr i) ht
    exact ⟨hpos, i, hmaker⟩

/-- No trade of a run is empty. -/
theorem volume_pos_of_mem_tradesOf (cmds : List InboundCommand) :
    ∀ t ∈ tradesOf cmds, 0 < t.volume :=
  forall_mem_tradesOf fun pre _ _ _ ht => (volume_of_mem_step (sound_engines pre) ht).1

/-- The trades of a run are below every bound of the volumes of its commands. -/
theorem volume_lt_of_mem_tradesOf (h : ∀ cmd ∈ cmds, cmd.VolumeBelow bound) :
    ∀ t ∈ tradesOf cmds, t.volume < bound := by
  refine forall_mem_tradesOf fun pre cmd hpre t ht => ?_
  have hbelow : ∀ cmd ∈ pre, cmd.VolumeBelow bound := fun c hc =>
    h c (hpre.subset (List.mem_append_left _ hc))
  obtain ⟨-, i, s, o, ho, hle⟩ := volume_of_mem_step (sound_engines pre) ht
  exact hle.trans_lt (volumesBelow_after hbelow i s o ho)

end MatchingEngineRouter

end ToyExchange
