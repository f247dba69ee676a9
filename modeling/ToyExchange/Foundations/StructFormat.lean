import ToyExchange.Foundations.Bytes

/-!
# Packed records by format string

The part of a `struct` module that packs little-endian records without padding: a format string is
a `<` and then, for each member, `q` for a signed 64-bit integer, `B` for an unsigned byte or `16s`
for sixteen bytes; a count before another code repeats it.  `pack` fails on a value that does not
fit its member, and `unpack` on bytes of the wrong size.

Values that fit are packed one behind the other and read back unchanged (`pack_of_fits`), and the
members of a record lie at the offsets that the sizes before them add up to (`unpackAll_slice`).
-/

namespace StructFormat

open Bytes

/-- What a member of a record holds. -/
inductive Member where
  /-- `q`. -/
  | int64
  /-- `B`. -/
  | uint8
  /-- `s` with its count. -/
  | bytes (size : ℕ)
deriving DecidableEq

/-- What is packed into a member, and what comes out. -/
inductive Value where
  | int (z : ℤ)
  | bytes (bs : List UInt8)
deriving DecidableEq

/-- The members that a code with an optional count stands for. -/
def membersOf (count : Option ℕ) : Char → Option (List Member)
  | 'q' => some (List.replicate (count.getD 1) .int64)
  | 'B' => some (List.replicate (count.getD 1) .uint8)
  | 's' => some [.bytes (count.getD 1)]
  | _ => none

/-- Read codes, with the count read so far. -/
def parseCodes (count : Option ℕ) : List Char → Option (List Member)
  | [] => if count.isSome then none else some []
  | ch :: chars =>
    if ch.isDigit then parseCodes (some (10 * count.getD 0 + (ch.toNat - '0'.toNat))) chars
    else
      match membersOf count ch, parseCodes none chars with
      | some members, some rest => some (members ++ rest)
      | _, _ => none

/-- The members of a format string. -/
def parse (format : String) : Option (List Member) :=
  match format.toList with
  | '<' :: codes => parseCodes none codes
  | _ => none

/-- The number of bytes of a member. -/
def Member.size : Member → ℕ
  | .int64 => 8
  | .uint8 => 1
  | .bytes n => n

/-- The number of bytes of a record. -/
def calcsize (members : List Member) : ℕ := (members.map Member.size).sum

/-- The bytes of one member. -/
def packMember : Member → Value → Option (List UInt8)
  | .int64, .int z => if SignedWord.InRange 64 z then some (encodeInt 8 z) else none
  | .uint8, .int z => if 0 ≤ z ∧ z < 256 then some (leBytes 1 z.toNat) else none
  | .bytes n, .bytes bs => some (padded n (bs.take n))
  | _, _ => none

/-- The bytes of a record. -/
def pack : List Member → List Value → Option (List UInt8)
  | [], [] => some []
  | member :: members, value :: values =>
    match packMember member value, pack members values with
    | some bs, some rest => some (bs ++ rest)
    | _, _ => none
  | _, _ => none

/-- What one member holds. -/
def unpackMember : Member → List UInt8 → Value
  | .int64, bs => .int (decodeInt bs)
  | .uint8, bs => .int (leNat bs)
  | .bytes _, bs => .bytes bs

/-- What the members of a record hold, one behind the other. -/
def unpackAll : List Member → List UInt8 → List Value
  | [], _ => []
  | member :: members, bs =>
    unpackMember member (bs.take member.size) :: unpackAll members (bs.drop member.size)

/-- What a record holds, if the bytes are those of one. -/
def unpack (members : List Member) (bs : List UInt8) : Option (List Value) :=
  if bs.length = calcsize members then some (unpackAll members bs) else none

/-! ## Round trips -/

/-- The value is one of the member, and byte strings have its size. -/
def Fits : Member → Value → Prop
  | .int64, .int z => SignedWord.InRange 64 z
  | .uint8, .int z => 0 ≤ z ∧ z < 256
  | .bytes n, .bytes bs => bs.length = n
  | _, _ => False

/-- The bytes of a value that fits are those of the member, and it is read back from them. -/
lemma packMember_of_fits {member : Member} {value : Value} (h : Fits member value) :
    ∃ bs, packMember member value = some bs ∧ bs.length = member.size ∧
      unpackMember member bs = value := by
  cases member with
  | int64 =>
    cases value with
    | bytes bs => exact h.elim
    | int z =>
      have hrange : SignedWord.InRange (8 * 8) z := h
      refine ⟨encodeInt 8 z, if_pos h, length_encodeInt 8 z, ?_⟩
      exact congrArg Value.int (decodeInt_encodeInt hrange)
  | uint8 =>
    cases value with
    | bytes bs => exact h.elim
    | int z =>
      obtain ⟨hnonneg, hlt⟩ := h
      refine ⟨leBytes 1 z.toNat, if_pos ⟨hnonneg, hlt⟩, length_leBytes 1 _, ?_⟩
      have hvalue : ((leNat (leBytes 1 z.toNat) : ℕ) : ℤ) = z := by
        rw [leNat_leBytes]
        omega
      exact congrArg Value.int hvalue
  | bytes n =>
    cases value with
    | int z => exact h.elim
    | bytes bs =>
      have hlength : bs.length = n := h
      have hpadded : padded n (bs.take n) = bs := by
        unfold padded
        rw [← hlength, List.take_length, Nat.sub_self, List.replicate_zero, List.append_nil]
      exact ⟨bs, congrArg some hpadded, hlength, rfl⟩

/-- Values that fit are packed into the bytes of a record and read back from them. -/
theorem pack_of_fits {members : List Member} {values : List Value}
    (h : List.Forall₂ Fits members values) :
    ∃ bs, pack members values = some bs ∧ bs.length = calcsize members ∧
      unpackAll members bs = values := by
  induction h with
  | nil => exact ⟨[], rfl, rfl, rfl⟩
  | @cons member value members values hfits _ ih =>
    obtain ⟨bs, hpack, hlength, hunpack⟩ := packMember_of_fits hfits
    obtain ⟨rest, hpackRest, hlengthRest, hunpackRest⟩ := ih
    refine ⟨bs ++ rest, ?_, ?_, ?_⟩
    · simp only [pack, hpack, hpackRest]
    · rw [List.length_append, hlength, hlengthRest]
      rfl
    · rw [unpackAll, ← hlength, List.take_left, List.drop_left, hunpack, hunpackRest]

/-- What the members of a record hold that starts at an offset. -/
def unpackAt (off : ℕ) : List Member → List UInt8 → List Value
  | [], _ => []
  | member :: members, m =>
    unpackMember member (slice off member.size m) :: unpackAt (off + member.size) members m

/-- Unpacking a slice reads the members at their offsets. -/
theorem unpackAll_slice {members : List Member} {n : ℕ} (h : calcsize members ≤ n) (off : ℕ)
    (m : List UInt8) : unpackAll members (slice off n m) = unpackAt off members m := by
  induction members generalizing off n with
  | nil => rfl
  | cons member members ih =>
    have hsize : calcsize (member :: members) = member.size + calcsize members := rfl
    have htake : (slice off n m).take member.size = slice off member.size m := by
      unfold slice
      rw [List.take_take, min_eq_left (by omega)]
    have hdrop : (slice off n m).drop member.size =
        slice (off + member.size) (n - member.size) m := by
      unfold slice
      rw [List.drop_take, List.drop_drop]
    rw [unpackAll, unpackAt, htake, hdrop, ih (by omega)]

/-- Each part has the size of its member. -/
abbrev SizesMatch (members : List Member) (parts : List (List UInt8)) : Prop :=
  List.Forall₂ (fun member bs => bs.length = member.size) members parts

/-- Parts of the sizes of the members are together as long as the record. -/
lemma SizesMatch.length_flatten {members : List Member} {parts : List (List UInt8)}
    (h : SizesMatch members parts) : parts.flatten.length = calcsize members := by
  induction h with
  | nil => rfl
  | cons hlength _ ih =>
    rw [List.flatten_cons, List.length_append, hlength, ih]
    rfl

/-- Each member holds what its part stands for. -/
lemma SizesMatch.unpackAll_flatten {members : List Member} {parts : List (List UInt8)}
    (h : SizesMatch members parts) :
    unpackAll members parts.flatten = List.zipWith unpackMember members parts := by
  induction h with
  | nil => rfl
  | cons hlength _ ih =>
    rw [unpackAll, List.flatten_cons, ← hlength, List.take_left, List.drop_left, ih]
    rfl

/-- A record is unpacked from the front of what it is the front of. -/
theorem SizesMatch.unpack_take {members : List Member} {parts : List (List UInt8)}
    (h : SizesMatch members parts) (rest : List UInt8) :
    unpack members ((parts.flatten ++ rest).take (calcsize members)) =
      some (List.zipWith unpackMember members parts) := by
  rw [← h.length_flatten, List.take_left, unpack, if_pos h.length_flatten, h.unpackAll_flatten]

end StructFormat
