import Mathlib.Data.List.Basic
import Mathlib.Algebra.Order.Group.Nat

/-!
# Framing a stream

A stream of bytes carries messages of a fixed size `n`, one behind the other.  `blocks n l` are the
messages that are complete in the bytes `l` and `remainder n l` are the bytes behind them, the
beginning of a message that is not complete.

A receiver that keeps only the remainder needs nothing else: what more bytes complete depends on
the bytes before only through their remainder (`blocks_append`).  So a stream
may be cut anywhere, and the messages are those of the whole stream.
-/

namespace Framing

variable {β : Type*} {n : ℕ}

/-- The consecutive blocks of `n` bytes of a stream. -/
def blocks (n : ℕ) (l : List β) : List (List β) :=
  (List.range (l.length / n)).map fun i => (l.drop (n * i)).take n

/-- The bytes behind the last complete block. -/
def remainder (n : ℕ) (l : List β) : List β := l.drop (n * (l.length / n))

lemma length_remainder (n : ℕ) (l : List β) : (remainder n l).length = l.length % n := by
  unfold remainder
  rw [List.length_drop]
  exact (Nat.mod_eq_sub_mul_div).symm

lemma length_remainder_lt (hn : 0 < n) (l : List β) : (remainder n l).length < n := by
  rw [length_remainder]
  exact Nat.mod_lt _ hn

/-- Every block is full. -/
lemma length_of_mem_blocks {l block : List β} (h : block ∈ blocks n l) : block.length = n := by
  obtain ⟨i, hi, rfl⟩ := List.mem_map.mp h
  have hend : n * (i + 1) ≤ l.length :=
    (Nat.mul_le_mul_left n (List.mem_range.mp hi)).trans (Nat.mul_div_le _ _)
  rw [Nat.mul_add, Nat.mul_one] at hend
  rw [List.length_take, List.length_drop]
  omega

/-- Bytes that do not fill a block have no blocks. -/
lemma blocks_of_lt {l : List β} (h : l.length < n) : blocks n l = [] := by
  unfold blocks
  rw [Nat.div_eq_of_lt h]
  rfl

lemma remainder_of_lt {l : List β} (h : l.length < n) : remainder n l = l := by
  unfold remainder
  rw [Nat.div_eq_of_lt h, Nat.mul_zero, List.drop_zero]

/-- A block in front of a stream is its first block. -/
lemma blocks_cons (hn : 0 < n) {block : List β} (hblock : block.length = n) (l : List β) :
    blocks n (block ++ l) = block :: blocks n l := by
  have hcount : (block ++ l).length / n = l.length / n + 1 := by
    rw [List.length_append, hblock, Nat.add_comm, Nat.add_div_right _ hn]
  unfold blocks
  rw [hcount, List.range_succ_eq_map, List.map_cons, List.map_map]
  congr 1
  · rw [Nat.mul_zero, List.drop_zero, ← hblock, List.take_left]
  · refine List.map_congr_left fun i _ => ?_
    rw [Function.comp_apply, Nat.succ_eq_add_one, Nat.mul_add, Nat.mul_one, Nat.add_comm,
      ← List.drop_drop, ← hblock, List.drop_left]

lemma remainder_cons (hn : 0 < n) {block : List β} (hblock : block.length = n) (l : List β) :
    remainder n (block ++ l) = remainder n l := by
  have hcount : (block ++ l).length / n = l.length / n + 1 := by
    rw [List.length_append, hblock, Nat.add_comm, Nat.add_div_right _ hn]
  unfold remainder
  rw [hcount, Nat.mul_add, Nat.mul_one, Nat.add_comm, ← List.drop_drop]
  conv_lhs => rw [← hblock, List.drop_left, hblock]

/-- The blocks of a stream and of what follows it. -/
theorem blocks_append (hn : 0 < n) (l more : List β) :
    blocks n (l ++ more) = blocks n l ++ blocks n (remainder n l ++ more) ∧
      remainder n (l ++ more) = remainder n (remainder n l ++ more) := by
  induction hlength : l.length using Nat.strong_induction_on generalizing l with
  | _ k ih =>
    rcases lt_or_ge l.length n with hshort | hlong
    · rw [blocks_of_lt hshort, remainder_of_lt hshort]
      exact ⟨rfl, rfl⟩
    · -- take the first block off
      have hblock : (l.take n).length = n := by
        rw [List.length_take, min_eq_left hlong]
      have hsplit : l = l.take n ++ l.drop n := (List.take_append_drop n l).symm
      have hrest : (l.drop n).length < k := by
        rw [List.length_drop]
        omega
      obtain ⟨hblocks, hremainder⟩ := ih _ hrest (l.drop n) rfl
      have hfirst : blocks n l = l.take n :: blocks n (l.drop n) := by
        conv_lhs => rw [hsplit]
        exact blocks_cons hn hblock _
      have hbehind : remainder n l = remainder n (l.drop n) := by
        conv_lhs => rw [hsplit]
        exact remainder_cons hn hblock _
      have hmore : l ++ more = l.take n ++ (l.drop n ++ more) := by
        rw [← List.append_assoc, ← hsplit]
      rw [hmore, blocks_cons hn hblock, remainder_cons hn hblock, hblocks, hremainder, hfirst,
        hbehind]
      exact ⟨rfl, rfl⟩

/-- Full blocks one after the other are cut into these blocks. -/
lemma blocks_flatten (hn : 0 < n) {messages : List (List β)}
    (h : ∀ message ∈ messages, message.length = n) : blocks n messages.flatten = messages := by
  induction messages with
  | nil => exact blocks_of_lt hn
  | cons message messages ih =>
    obtain ⟨hmessage, hmessages⟩ := List.forall_mem_cons.mp h
    rw [List.flatten_cons, blocks_cons hn hmessage, ih hmessages]

/-- More of a stream has more blocks. -/
lemma blocks_mono (hn : 0 < n) {l l' : List β} (h : l <+: l') : blocks n l <+: blocks n l' := by
  obtain ⟨more, rfl⟩ := h
  exact ⟨_, (blocks_append hn l more).1.symm⟩

/-- Bytes that do not complete the block. -/
lemma append_of_lt {l more : List β} (h : (remainder n l ++ more).length < n) :
    blocks n (l ++ more) = blocks n l ∧ remainder n (l ++ more) = remainder n l ++ more := by
  obtain ⟨hblocks, hremainder⟩ := blocks_append (Nat.zero_lt_of_lt h) l more
  rw [blocks_of_lt h, List.append_nil] at hblocks
  rw [remainder_of_lt h] at hremainder
  exact ⟨hblocks, hremainder⟩

/-- Bytes that complete the block. -/
lemma append_of_eq (hn : 0 < n) {l more : List β} (h : (remainder n l ++ more).length = n) :
    blocks n (l ++ more) = blocks n l ++ [remainder n l ++ more] ∧
      remainder n (l ++ more) = [] := by
  obtain ⟨hblocks, hremainder⟩ := blocks_append hn l more
  have hone := blocks_cons hn h []
  have hnone := remainder_cons hn h []
  rw [blocks_of_lt (l := []) hn, List.append_nil] at hone
  rw [remainder_of_lt (l := []) hn, List.append_nil] at hnone
  rw [hone] at hblocks
  rw [hnone] at hremainder
  exact ⟨hblocks, hremainder⟩

end Framing
