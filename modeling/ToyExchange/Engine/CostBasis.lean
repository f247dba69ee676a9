import ToyExchange.Engine.Accounting
import Mathlib.Tactic.Linarith

/-!
# The average cost as a cost basis

A position was opened by one fill: the latest one that took it from flat, or through zero, to the
sign it has now (`LatestOpening`).  The average cost of the position depends on that fill and the
later ones only.

Between two fills after the opening one the position keeps its sign (`LatestOpening.steady`), so a
later fill either goes in the direction of the position and rolls the cost forward, or reduces the
position and keeps the cost (`applyFill_avgCost_of_along`, `applyFill_avgCost_of_against`).  Hence
the cost stays between the prices of the opening fill and of the later ones in its direction.  If
all later fills go in that direction then nothing is realized after the opening, and the accounting
identity gives the cost as a weighted average, in which the order of the fills does not matter.
-/

namespace ToyExchange

lemma holdingAfter_append (fills later : List Execution) :
    holdingAfter (fills ++ later) = (holdingAfter fills).applyFills later :=
  Holding.applyFills_append _ fills later

lemma volume_holdingAfter_concat (fills : List Execution) (x : Execution) :
    (holdingAfter (fills ++ [x])).volume = (holdingAfter fills).volume + x.signedDelta := by
  rw [holdingAfter_append]
  exact Holding.applyFill_volume _ _ _ _

/-- A fill of signed volume `delta` takes the position from flat, or through zero, to the sign
`s`. -/
def Opens (s position delta : ℤ) : Prop := position.sign ≠ s ∧ (position + delta).sign = s

/-- The fill `k` is the latest of the fills that opened a position of the sign that the position
has in the end: the fills before it are `pre`, those after it `post`. -/
structure LatestOpening (fills pre : List Execution) (k : Execution) (post : List Execution) :
    Prop where
  split : fills = pre ++ k :: post
  opens : Opens (holdingAfter fills).volume.sign (holdingAfter pre).volume k.signedDelta
  latest : ∀ mid j rest, post = mid ++ j :: rest →
    ¬ Opens (holdingAfter fills).volume.sign (holdingAfter (pre ++ k :: mid)).volume j.signedDelta

/-! ## The opening fill -/

/-- A position that is not flat was opened by some fill, and by a latest one. -/
lemma exists_latest_opens {s : ℤ} (hs : s ≠ 0) {fills : List Execution}
    (hsign : (holdingAfter fills).volume.sign = s) :
    ∃ pre k post, fills = pre ++ k :: post ∧ Opens s (holdingAfter pre).volume k.signedDelta ∧
      ∀ mid j rest, post = mid ++ j :: rest →
        ¬ Opens s (holdingAfter (pre ++ k :: mid)).volume j.signedDelta := by
  -- from the last fill backwards: either it opened the position, or it found it open
  induction fills using List.reverseRecOn with
  | nil => exact absurd hsign.symm hs
  | append_singleton fills x ih =>
    by_cases hbefore : (holdingAfter fills).volume.sign = s
    · obtain ⟨pre, k, post, rfl, hopens, hlatest⟩ := ih hbefore
      refine ⟨pre, k, post ++ [x], by simp, hopens, ?_⟩
      intro mid j rest hsplit
      rcases List.eq_nil_or_concat rest with rfl | ⟨rest, y, rfl⟩
      · rw [List.append_singleton_inj] at hsplit
        rw [← hsplit.1]
        exact fun h => h.1 hbefore
      · apply hlatest mid j rest
        rw [List.concat_eq_append, ← List.cons_append, ← List.append_assoc,
          List.append_singleton_inj] at hsplit
        exact hsplit.1
    · refine ⟨fills, x, [], rfl, ⟨hbefore, ?_⟩, by simp⟩
      rw [← volume_holdingAfter_concat]
      exact hsign

lemma exists_latestOpening {fills : List Execution} (hopen : (holdingAfter fills).volume ≠ 0) :
    ∃ pre k post, LatestOpening fills pre k post := by
  have hs : (holdingAfter fills).volume.sign ≠ 0 := fun h => hopen (Int.sign_eq_zero_iff_zero.mp h)
  obtain ⟨pre, k, post, hsplit, hopens, hlatest⟩ := exists_latest_opens hs rfl
  exact ⟨pre, k, post, hsplit, hopens, hlatest⟩

/-- After each fill from the opening one on, the position has the sign that it has in the end. -/
lemma LatestOpening.steady {fills pre post : List Execution} {k : Execution}
    (h : LatestOpening fills pre k post) {mid rest : List Execution} (hpost : post = mid ++ rest) :
    (holdingAfter (pre ++ k :: mid)).volume.sign = (holdingAfter fills).volume.sign := by
  -- backwards from the end: a fill that does not open found the sign that it left
  induction rest generalizing mid with
  | nil => rw [h.split, hpost, List.append_nil]
  | cons j rest ih =>
    have hnext : post = mid ++ [j] ++ rest := by rw [hpost, List.append_assoc]; rfl
    have hafter := ih hnext
    rw [← List.cons_append, ← List.append_assoc, volume_holdingAfter_concat] at hafter
    by_contra hbefore
    exact h.latest mid j rest hpost ⟨hbefore, hafter⟩

/-! ## The cost, fill by fill -/

lemma Execution.natAbs_signedDelta (x : Execution) (hx : 0 < x.tradeVolume) :
    (x.signedDelta.natAbs : ℤ) = x.tradeVolume := by
  unfold signedDelta Side.signedDelta
  cases x.side <;> dsimp only <;> omega

/-- The sign of a position, for linear arithmetic. -/
lemma sign_cases (n : ℤ) : n.sign = 1 ∧ 0 < n ∨ n.sign = 0 ∧ n = 0 ∨ n.sign = -1 ∧ n < 0 := by
  rcases lt_trichotomy n 0 with hn | hn | hn
  · exact Or.inr (Or.inr ⟨Int.sign_eq_neg_one_of_neg hn, hn⟩)
  · exact Or.inr (Or.inl ⟨by rw [hn]; rfl, hn⟩)
  · exact Or.inl ⟨Int.sign_eq_one_of_pos hn, hn⟩

namespace Holding

variable {h : Holding} {x : Execution} {s : ℤ}

/-- The fill that opens a position sets the cost to its price. -/
lemma applyFill_avgCost_of_opens (hs : s ≠ 0) (hx : 0 < x.tradeVolume)
    (hopens : Opens s h.volume x.signedDelta) :
    (h.applyFill x.side x.execPrice x.tradeVolume).avgCost = x.execUsd := by
  apply applyFill_avgCost_of_open hx
  obtain ⟨hbefore, hafter⟩ := hopens
  change h.volume = 0 ∨ ¬ SameDirection h.volume x.signedDelta ∧
    h.volume.natAbs < x.signedDelta.natAbs
  have hcases := sign_cases h.volume
  have hcases' := sign_cases (h.volume + x.signedDelta)
  unfold SameDirection
  omega

/-- A fill in the direction of the position extends it. -/
lemma sameDirection_of_along (hsign : h.volume.sign = s)
    (halong : x.signedDelta.sign = s) : SameDirection h.volume x.signedDelta := by
  have hcases := sign_cases h.volume
  have hcases' := sign_cases x.signedDelta
  unfold SameDirection
  omega

/-- The cost rolled forward lies between the old cost and the price of the fill. -/
lemma rolledCost_between (h : Holding) {d : ℤ} (hd : d ≠ 0) (e : ℚ) :
    min h.avgCost e ≤ h.rolledCost d e ∧ h.rolledCost d e ≤ max h.avgCost e := by
  have hold : (0 : ℚ) ≤ h.volume.natAbs := Nat.cast_nonneg _
  have hnew : (0 : ℚ) < d.natAbs := Nat.cast_pos.mpr (Int.natAbs_pos.mpr hd)
  have hsum : (0 : ℚ) < h.volume.natAbs + d.natAbs := add_pos_of_nonneg_of_pos hold hnew
  unfold rolledCost
  constructor
  · rw [le_div_iff₀ hsum, mul_add]
    exact add_le_add (mul_le_mul_of_nonneg_right (min_le_left _ _) hold)
      (mul_le_mul_of_nonneg_right (min_le_right _ _) hnew.le)
  · rw [div_le_iff₀ hsum, mul_add]
    exact add_le_add (mul_le_mul_of_nonneg_right (le_max_left _ _) hold)
      (mul_le_mul_of_nonneg_right (le_max_right _ _) hnew.le)

/-- A fill in the direction of the position moves the cost towards its own price. -/
lemma applyFill_avgCost_of_along (hx : 0 < x.tradeVolume) (hsign : h.volume.sign = s)
    (halong : x.signedDelta.sign = s) :
    min h.avgCost x.execUsd ≤ (h.applyFill x.side x.execPrice x.tradeVolume).avgCost ∧
      (h.applyFill x.side x.execPrice x.tradeVolume).avgCost ≤ max h.avgCost x.execUsd := by
  rw [applyFill_of_sameDirection hx (sameDirection_of_along hsign halong)]
  exact rolledCost_between h (x.side.signedDelta_ne_zero hx) _

/-- A fill against the position that leaves its sign keeps the cost. -/
lemma applyFill_avgCost_of_against (hx : 0 < x.tradeVolume) (hsign : h.volume.sign = s)
    (hafter : (h.volume + x.signedDelta).sign = s) (hagainst : x.signedDelta.sign ≠ s) :
    (h.applyFill x.side x.execPrice x.tradeVolume).avgCost = h.avgCost := by
  have hdelta : x.signedDelta ≠ 0 := x.side.signedDelta_ne_zero hx
  have hcases := sign_cases h.volume
  have hcases' := sign_cases x.signedDelta
  have hcases'' := sign_cases (h.volume + x.signedDelta)
  apply applyFill_avgCost_of_reduce
  · change ¬ SameDirection h.volume x.signedDelta
    unfold SameDirection
    omega
  · change x.signedDelta.natAbs < h.volume.natAbs
    omega

/-! ## The cost after the opening fill -/

/-- Fills between which the position keeps the sign `s`. -/
def Steady (s : ℤ) (h : Holding) (fills : List Execution) : Prop :=
  ∀ mid rest, fills = mid ++ rest → (h.applyFills mid).volume.sign = s

lemma Steady.sign {fills : List Execution} (hsteady : Steady s h fills) : h.volume.sign = s :=
  hsteady [] fills rfl

lemma Steady.tail {fills : List Execution} (hsteady : Steady s h (x :: fills)) :
    Steady s (h.applyFill x.side x.execPrice x.tradeVolume) fills := by
  intro mid rest hfills
  exact hsteady (x :: mid) rest (congrArg (x :: ·) hfills)

/-- As long as the position keeps its sign, the cost stays between the prices of a window of
fills if it was there before, and if the window has the fills in the direction of the
position. -/
lemma avgCost_between {fills : List Execution} (hpos : ∀ x ∈ fills, 0 < x.tradeVolume)
    (hsteady : Steady s h fills) {window : List Execution}
    (hcost : ∃ f ∈ window, ∃ g ∈ window, f.execUsd ≤ h.avgCost ∧ h.avgCost ≤ g.execUsd) :
    ∃ f ∈ window ++ fills.filter (fun x => x.signedDelta.sign = s),
      ∃ g ∈ window ++ fills.filter (fun x => x.signedDelta.sign = s),
        f.execUsd ≤ (h.applyFills fills).avgCost ∧ (h.applyFills fills).avgCost ≤ g.execUsd := by
  induction fills generalizing h window with
  | nil => simpa using hcost
  | cons x fills ih =>
    obtain ⟨hx, hfills⟩ := List.forall_mem_cons.mp hpos
    obtain ⟨f, hf, g, hg, hle, hge⟩ := hcost
    rw [applyFills_cons]
    by_cases halong : x.signedDelta.sign = s
    · -- the fill joins the window
      have hroll := applyFill_avgCost_of_along hx hsteady.sign halong
      have hwindow : window ++ (x :: fills).filter (fun x => x.signedDelta.sign = s) =
          window ++ [x] ++ fills.filter (fun x => x.signedDelta.sign = s) := by
        rw [List.filter_cons_of_pos (by simpa using halong), List.append_assoc]
        rfl
      rw [hwindow]
      apply ih hfills hsteady.tail
      have hxmem : x ∈ window ++ [x] := List.mem_append_right _ (List.mem_singleton_self x)
      have hlow : ∃ f ∈ window ++ [x],
          f.execUsd ≤ (h.applyFill x.side x.execPrice x.tradeVolume).avgCost := by
        rcases min_le_iff.mp hroll.1 with hmin | hmin
        · exact ⟨f, List.mem_append_left _ hf, hle.trans hmin⟩
        · exact ⟨x, hxmem, hmin⟩
      have hhigh : ∃ g ∈ window ++ [x],
          (h.applyFill x.side x.execPrice x.tradeVolume).avgCost ≤ g.execUsd := by
        rcases le_max_iff.mp hroll.2 with hmax | hmax
        · exact ⟨g, List.mem_append_left _ hg, hmax.trans hge⟩
        · exact ⟨x, hxmem, hmax⟩
      obtain ⟨f', hf', hlow⟩ := hlow
      obtain ⟨g', hg', hhigh⟩ := hhigh
      exact ⟨f', hf', g', hg', hlow, hhigh⟩
    · have hafter : (h.volume + x.signedDelta).sign = s := by
        rw [← hsteady.tail.sign, applyFill_volume]
        rfl
      have hkept := applyFill_avgCost_of_against hx hsteady.sign hafter halong
      rw [List.filter_cons_of_neg (by simpa using halong)]
      apply ih hfills hsteady.tail
      rw [hkept]
      exact ⟨f, hf, g, hg, hle, hge⟩

/-- Fills in the direction of the position keep its sign. -/
lemma sign_applyFills_of_along {fills : List Execution} (hsign : h.volume.sign = s)
    (halong : ∀ x ∈ fills, x.signedDelta.sign = s) : (h.applyFills fills).volume.sign = s := by
  induction fills generalizing h with
  | nil => exact hsign
  | cons x fills ih =>
    obtain ⟨hxalong, halong⟩ := List.forall_mem_cons.mp halong
    refine ih ?_ halong
    rw [applyFill_volume]
    change (h.volume + x.signedDelta).sign = s
    have hcases := sign_cases h.volume
    have hcases' := sign_cases x.signedDelta
    have hcases'' := sign_cases (h.volume + x.signedDelta)
    omega

/-- Fills in the direction of the position realize nothing. -/
lemma realizedPnl_applyFills_of_along {fills : List Execution}
    (hpos : ∀ x ∈ fills, 0 < x.tradeVolume) (hsign : h.volume.sign = s)
    (halong : ∀ x ∈ fills, x.signedDelta.sign = s) :
    (h.applyFills fills).realizedPnl = h.realizedPnl := by
  induction fills generalizing h with
  | nil => rfl
  | cons x fills ih =>
    obtain ⟨hx, hfills⟩ := List.forall_mem_cons.mp hpos
    obtain ⟨hxalong, halong⟩ := List.forall_mem_cons.mp halong
    have hnext : (h.applyFill x.side x.execPrice x.tradeVolume).volume.sign = s :=
      sign_applyFills_of_along hsign (List.forall_mem_singleton.mpr hxalong)
    rw [applyFills_cons, ih hfills hnext halong,
      applyFill_realizedPnl_of_sameDirection hx (sameDirection_of_along hsign hxalong)]

/-- The cost after fills in the direction of the position: the average of the position before and
of the fills, weighted by volume. -/
lemma avgCost_applyFills_of_along (hs : s ≠ 0) {fills : List Execution}
    (hpos : ∀ x ∈ fills, 0 < x.tradeVolume) (hsign : h.volume.sign = s)
    (halong : ∀ x ∈ fills, x.signedDelta.sign = s) :
    (h.applyFills fills).avgCost =
      (h.volume.natAbs * h.avgCost + (fills.map fun x => (x.tradeVolume : ℚ) * x.execUsd).sum) /
        (h.volume.natAbs + (fills.map fun x => (x.tradeVolume : ℚ)).sum) := by
  have hdelta : ∀ x ∈ fills, x.signedDelta = s * x.tradeVolume := by
    intro x hx
    rw [← halong x hx, ← x.natAbs_signedDelta (hpos x hx), Int.sign_mul_natAbs]
  have hold : (h.volume : ℚ) = s * h.volume.natAbs := by
    rw [← hsign, ← Int.cast_natCast, ← Int.cast_mul, Int.sign_mul_natAbs]
  have hvolume : ((h.applyFills fills).volume : ℚ) =
      s * (h.volume.natAbs + (fills.map fun x => (x.tradeVolume : ℚ)).sum) := by
    have hsum : (fills.map Execution.signedDelta).sum =
        s * (fills.map Execution.tradeVolume).sum := by
      rw [List.map_congr_left hdelta, List.sum_map_mul_left]
    rw [volume_applyFills, hsum, Int.cast_add, Int.cast_mul, hold, Int.cast_list_sum,
      List.map_map, mul_add]
    rfl
  have hpaid : (fills.map fun x => (x.signedDelta : ℚ) * (0 - x.execUsd)).sum =
      -s * (fills.map fun x => (x.tradeVolume : ℚ) * x.execUsd).sum := by
    rw [← List.sum_map_mul_left]
    congr 1
    apply List.map_congr_left
    intro x hx
    rw [hdelta x hx, Int.cast_mul]
    ring
  -- nothing is realized, so the identity at the mark price zero is one about the cost
  have hkept := realizedPnl_applyFills_of_along hpos hsign halong
  rw [realizedPnl_eq, realizedPnl_eq, worth_applyFills h hpos, hpaid, hvolume, hold] at hkept
  have htotal : (s : ℚ) * (h.volume.natAbs + (fills.map fun x => (x.tradeVolume : ℚ)).sum) ≠ 0 := by
    rw [← hvolume, Int.cast_ne_zero]
    intro hflat
    have hsign' := sign_applyFills_of_along hsign halong
    rw [hflat] at hsign'
    exact hs hsign'.symm
  have hs' : (s : ℚ) ≠ 0 := Int.cast_ne_zero.mpr hs
  rw [eq_div_iff (right_ne_zero_of_mul htotal)]
  apply mul_left_cancel₀ hs'
  linarith

end Holding

/-! ## The cost basis of a history -/

/-- A flat position has no cost. -/
lemma avgCost_of_flat {fills : List Execution} (hflat : (holdingAfter fills).volume = 0) :
    (holdingAfter fills).avgCost = 0 := by
  rcases List.eq_nil_or_concat fills with rfl | ⟨fills, x, rfl⟩
  · rfl
  · rw [List.concat_eq_append, holdingAfter_append] at hflat ⊢
    exact Holding.applyFill_avgCost_of_flat hflat

namespace LatestOpening

variable {fills pre post : List Execution} {k : Execution}

/-- The holding after the opening fill and some of the later ones. -/
lemma holdingAfter_mid (pre : List Execution) (k : Execution) (mid : List Execution) :
    holdingAfter (pre ++ k :: mid) = (holdingAfter (pre ++ [k])).applyFills mid := by
  rw [← holdingAfter_append, List.append_assoc]
  rfl

/-- The opening fill sets the cost to its price. -/
lemma avgCost_opening (h : LatestOpening fills pre k post) (hk : 0 < k.tradeVolume)
    (hopen : (holdingAfter fills).volume.sign ≠ 0) :
    (holdingAfter (pre ++ [k])).avgCost = k.execUsd := by
  rw [holdingAfter_append]
  exact Holding.applyFill_avgCost_of_opens hopen hk h.opens

/-- The position keeps its sign through the later fills. -/
lemma steady_later (h : LatestOpening fills pre k post) :
    Holding.Steady (holdingAfter fills).volume.sign (holdingAfter (pre ++ [k])) post := by
  intro mid rest hpost
  rw [← holdingAfter_mid]
  exact h.steady hpost

end LatestOpening

/-- **The average cost is a cost basis.**  A flat position has no cost.  Otherwise there is a
latest fill that opened the position, and from it on: the cost lies between the lowest and the
highest price of the opening fill and the later ones in the direction of the position; a fill that
reduces the position keeps the cost; and if no fill reduces it, the cost is the average of the part
of the opening fill that opened the position and of the later fills, weighted by volume, in
whatever order these came. -/
theorem cost_basis {fills : List Execution} (hpos : ∀ x ∈ fills, 0 < x.tradeVolume) :
    ((holdingAfter fills).volume = 0 → (holdingAfter fills).avgCost = 0) ∧
      ((holdingAfter fills).volume ≠ 0 →
        (∃ pre k post, LatestOpening fills pre k post) ∧
        ∀ pre k post, LatestOpening fills pre k post →
          let s := (holdingAfter fills).volume.sign
          let window := k :: post.filter fun x => x.signedDelta.sign = s
          (∃ f ∈ window, ∃ g ∈ window, f.execUsd ≤ (holdingAfter fills).avgCost ∧
            (holdingAfter fills).avgCost ≤ g.execUsd) ∧
          (∀ mid j rest, post = mid ++ j :: rest → j.signedDelta.sign ≠ s →
            (holdingAfter (pre ++ k :: mid ++ [j])).avgCost =
              (holdingAfter (pre ++ k :: mid)).avgCost) ∧
          ((∀ j ∈ post, j.signedDelta.sign = s) → ∀ post', post'.Perm post →
            (holdingAfter (pre ++ k :: post')).avgCost =
              (((holdingAfter pre).volume + k.signedDelta).natAbs * k.execUsd +
                  (post.map fun j => (j.tradeVolume : ℚ) * j.execUsd).sum) /
                (((holdingAfter pre).volume + k.signedDelta).natAbs +
                  (post.map fun j => (j.tradeVolume : ℚ)).sum))) := by
  refine ⟨avgCost_of_flat, fun hopen => ⟨exists_latestOpening hopen, ?_⟩⟩
  intro pre k post h s window
  have hs : s ≠ 0 := fun hzero => hopen (Int.sign_eq_zero_iff_zero.mp hzero)
  have hsplit : ∀ x ∈ pre ++ k :: post, 0 < x.tradeVolume := h.split ▸ hpos
  have hk : 0 < k.tradeVolume := hsplit k (by simp)
  have hpost : ∀ x ∈ post, 0 < x.tradeVolume := fun x hx => hsplit x (by simp [hx])
  have hcost := h.avgCost_opening hk hs
  have hfills : holdingAfter fills = (holdingAfter (pre ++ [k])).applyFills post := by
    rw [← LatestOpening.holdingAfter_mid, ← h.split]
  refine ⟨?_, ?_, ?_⟩
  · rw [hfills]
    have hstart : ∃ f ∈ [k], ∃ g ∈ [k], f.execUsd ≤ (holdingAfter (pre ++ [k])).avgCost ∧
        (holdingAfter (pre ++ [k])).avgCost ≤ g.execUsd :=
      ⟨k, List.mem_singleton_self k, k, List.mem_singleton_self k, hcost.ge, hcost.le⟩
    exact Holding.avgCost_between hpost h.steady_later hstart
  · intro mid j rest hmid hagainst
    have hj : 0 < j.tradeVolume := hpost j (by simp [hmid])
    have hnext : post = mid ++ [j] ++ rest := by rw [hmid, List.append_assoc]; rfl
    have hafter := h.steady hnext
    rw [← List.cons_append, ← List.append_assoc, volume_holdingAfter_concat] at hafter
    rw [holdingAfter_append]
    exact Holding.applyFill_avgCost_of_against hj (h.steady hmid) hafter hagainst
  · intro halong post' hperm
    have hsum : ∀ F : Execution → ℚ, (post'.map F).sum = (post.map F).sum :=
      fun F => (hperm.map F).sum_eq
    rw [LatestOpening.holdingAfter_mid, Holding.avgCost_applyFills_of_along hs
      (fun x hx => hpost x (hperm.mem_iff.mp hx)) h.steady_later.sign
      (fun x hx => halong x (hperm.mem_iff.mp hx)), hcost, volume_holdingAfter_concat, hsum, hsum]

/-- A long position is reversed and then extended: its cost basis starts with the reversing
fill. -/
theorem cost_basis_reversal :
    let fills : List Execution := [⟨.buy, 100, 10⟩, ⟨.sell, 90, 14⟩, ⟨.sell, 120, 2⟩]
    LatestOpening fills [⟨.buy, 100, 10⟩] ⟨.sell, 90, 14⟩ [⟨.sell, 120, 2⟩] ∧
      (holdingAfter fills).avgCost = (4 * toUsd 90 + 2 * toUsd 120) / (4 + 2) := by
  intro fills
  have hpos : ∀ x ∈ fills, 0 < x.tradeVolume := by decide
  have hlatest : LatestOpening fills [⟨.buy, 100, 10⟩] ⟨.sell, 90, 14⟩ [⟨.sell, 120, 2⟩] := by
    refine ⟨rfl, ⟨by decide, by decide⟩, ?_⟩
    intro mid j rest hmid
    obtain ⟨rfl, rfl, rfl⟩ : mid = [] ∧ j = ⟨.sell, 120, 2⟩ ∧ rest = [] := by
      cases mid with
      | nil => simpa [eq_comm] using hmid
      | cons m mid => simp at hmid
    exact fun h => h.1 (by decide)
  have h := ((cost_basis hpos).2 (by decide)).2 _ _ _ hlatest
  have hcost := h.2.2 (by decide) _ (List.Perm.refl _)
  have hopening : ((holdingAfter [⟨.buy, 100, 10⟩]).volume +
      (⟨.sell, 90, 14⟩ : Execution).signedDelta).natAbs = 4 := by decide
  rw [hopening] at hcost
  refine ⟨hlatest, hcost.trans ?_⟩
  simp [Execution.execUsd]

end ToyExchange
