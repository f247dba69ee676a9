import ToyExchange.Foundations.Rounding
import Mathlib.Data.List.DropRight

/-!
# Numbers printed with some significant digits

`general p` prints a number with `p` significant digits as `%g` does: the nearest number with so
many digits, ties to even, in fixed notation or with an exponent, and without trailing zeros.

`read` reads such texts.  Dropping trailing zeros does not change what is read (`mantissa_strip`),
nor does the choice between the notations, so what is read is the rounded number
(`read_general`), which is off by at most half a unit of its last digit (`abs_rounded_sub_le`).
Texts of numbers have no characters but digits and a few signs (`Numeric`), so they can be separated
by others.
-/

namespace DecimalText

open Rounding

/-! ## Printing -/

/-- The fraction without its trailing zeros. -/
def strip (fraction : List Char) : List Char := fraction.rdropWhile fun ch => ch = '0'

/-- The digits before and behind the point, which is left out if nothing is behind it. -/
def pointed (whole fraction : List Char) : List Char :=
  if strip fraction = [] then whole else whole ++ '.' :: strip fraction

/-- The exponent with its sign and at least two digits. -/
def exponentText (e : ℤ) : List Char :=
  'e' :: (if e < 0 then '-' else '+') ::
    ((if e.natAbs < 10 then ['0'] else []) ++ Nat.toDigits 10 e.natAbs)

/-- The `p` digits nearest to a positive number, and the exponent of the first one. -/
def significand (p : ℕ) (x : ℚ) : ℕ × ℤ :=
  let e := Int.log 10 x
  let n := (nearestEven (x / 10 ^ (e + 1 - p))).toNat
  if n = 10 ^ p then (10 ^ (p - 1), e + 1) else (n, e)

/-- The digits of a positive number with the exponent of the first one. -/
def place (p : ℕ) (digits : List Char) (e : ℤ) : List Char :=
  if e < -4 ∨ p ≤ e then pointed (digits.take 1) (digits.drop 1) ++ exponentText e
  else if 0 ≤ e then pointed (digits.take (e.toNat + 1)) (digits.drop (e.toNat + 1))
  else pointed ['0'] (List.replicate (-e - 1).toNat '0' ++ digits)

/-- An integer. -/
def intText (n : ℤ) : List Char := (if n < 0 then ['-'] else []) ++ Nat.toDigits 10 n.natAbs

/-- A number as `%g` prints it.  The sign of a zero is not part of the number. -/
def general (p : ℕ) (negativeZero : Bool) (x : ℚ) : List Char :=
  if x = 0 then (if negativeZero then ['-', '0'] else ['0'])
  else
    let s := significand p |x|
    (if x < 0 then ['-'] else []) ++ place p (Nat.toDigits 10 s.1) s.2

/-! ## Reading -/

/-- The number with these digits before and behind the point. -/
def mantissa (whole fraction : List Char) : ℚ :=
  Nat.ofDigitChars 10 (whole ++ fraction) 0 * 10 ^ (-(fraction.length : ℤ))

/-- The factor that an exponent stands for. -/
def readExponent : List Char → ℚ
  | 'e' :: '-' :: digits => 10 ^ (-(Nat.ofDigitChars 10 digits 0 : ℤ))
  | 'e' :: '+' :: digits => 10 ^ (Nat.ofDigitChars 10 digits 0 : ℤ)
  | _ => 1

/-- Read a number without a sign. -/
def readUnsigned (text : List Char) : ℚ :=
  let whole := text.takeWhile Char.isDigit
  match text.dropWhile Char.isDigit with
  | '.' :: rest =>
    mantissa whole (rest.takeWhile Char.isDigit) * readExponent (rest.dropWhile Char.isDigit)
  | rest => mantissa whole [] * readExponent rest

/-- Read a number. -/
def read : List Char → ℚ
  | '-' :: text => -readUnsigned text
  | text => readUnsigned text

/-- Read an integer. -/
def readInt : List Char → ℤ
  | '-' :: digits => -(Nat.ofDigitChars 10 digits 0 : ℤ)
  | digits => Nat.ofDigitChars 10 digits 0

/-! ## Digits -/

/-- The text consists of digits. -/
def Digits (text : List Char) : Prop := ∀ ch ∈ text, ch.isDigit

lemma digits_toDigits (n : ℕ) : Digits (Nat.toDigits 10 n) :=
  fun _ hch => Nat.isDigit_of_mem_toDigits (by decide) (by decide) hch

lemma Digits.append {a b : List Char} (ha : Digits a) (hb : Digits b) : Digits (a ++ b) :=
  fun ch hch => (List.mem_append.mp hch).elim (ha ch) (hb ch)

lemma Digits.of_sublist {a b : List Char} (hb : Digits b) (h : a.Sublist b) : Digits a :=
  fun ch hch => hb ch (h.subset hch)

lemma Digits.take {text : List Char} (h : Digits text) (k : ℕ) : Digits (text.take k) :=
  h.of_sublist (List.take_sublist _ _)

lemma Digits.drop {text : List Char} (h : Digits text) (k : ℕ) : Digits (text.drop k) :=
  h.of_sublist (List.drop_sublist _ _)

lemma Digits.strip {fraction : List Char} (h : Digits fraction) :
    Digits (DecimalText.strip fraction) :=
  h.of_sublist (List.rdropWhile_prefix _ _).sublist

lemma digits_replicate_zero (n : ℕ) : Digits (List.replicate n '0') := by
  intro ch hch
  rw [List.eq_of_mem_replicate hch]
  decide

/-- A fraction is what is left of it and zeros. -/
lemma exists_strip (fraction : List Char) :
    ∃ n, fraction = strip fraction ++ List.replicate n '0' := by
  refine ⟨(fraction.rtakeWhile fun ch => ch = '0').length, ?_⟩
  have hzeros : fraction.rtakeWhile (fun ch => ch = '0') =
      List.replicate (fraction.rtakeWhile fun ch => ch = '0').length '0' :=
    List.eq_replicate_iff.mpr
      ⟨rfl, fun ch hch => by simpa using List.mem_rtakeWhile_imp hch⟩
  unfold strip
  rw [← hzeros, List.rdropWhile_append_rtakeWhile]

/-- Trailing zeros do not count. -/
lemma mantissa_strip (whole fraction : List Char) :
    mantissa whole (strip fraction) = mantissa whole fraction := by
  obtain ⟨n, hn⟩ := exists_strip fraction
  have hdigits : Nat.ofDigitChars 10 (whole ++ fraction) 0 =
      10 ^ n * Nat.ofDigitChars 10 (whole ++ strip fraction) 0 := by
    rw [← Nat.ofDigitChars_replicate_zero, ← Nat.ofDigitChars_append, List.append_assoc, ← hn]
  have hlength : (fraction.length : ℤ) = (strip fraction).length + n := by
    conv_lhs => rw [hn, List.length_append, List.length_replicate]
    push_cast
    rfl
  have hten : (10 : ℚ) ^ n * 10 ^ (-(n : ℤ)) = 1 := by
    rw [zpow_neg, zpow_natCast]
    exact mul_inv_cancel₀ (by positivity)
  unfold mantissa
  rw [hdigits, hlength, neg_add, zpow_add₀ (by norm_num)]
  push_cast
  calc (Nat.ofDigitChars 10 (whole ++ strip fraction) 0 : ℚ) * 10 ^ (-((strip fraction).length : ℤ))
      = Nat.ofDigitChars 10 (whole ++ strip fraction) 0 * 10 ^ (-((strip fraction).length : ℤ)) *
          (10 ^ n * 10 ^ (-(n : ℤ))) := by rw [hten, mul_one]
    _ = 10 ^ n * Nat.ofDigitChars 10 (whole ++ strip fraction) 0 *
          (10 ^ (-((strip fraction).length : ℤ)) * 10 ^ (-(n : ℤ))) := by ring

/-- The digits of a number, cut at the point. -/
lemma mantissa_toDigits {p k n : ℕ} (hlength : (Nat.toDigits 10 n).length = p) (hk : k ≤ p) :
    mantissa ((Nat.toDigits 10 n).take k) ((Nat.toDigits 10 n).drop k) =
      n * 10 ^ ((k : ℤ) - p) := by
  unfold mantissa
  rw [List.take_append_drop, Nat.ofDigitChars_ten_toDigits, List.length_drop, hlength]
  congr 2
  omega

/-- The digits of a number behind zeros. -/
lemma mantissa_zeros {p k n : ℕ} (hlength : (Nat.toDigits 10 n).length = p) :
    mantissa ['0'] (List.replicate k '0' ++ Nat.toDigits 10 n) = n * 10 ^ (-(k : ℤ) - p) := by
  have hzeros : ['0'] ++ (List.replicate k '0' ++ Nat.toDigits 10 n) =
      List.replicate (k + 1) '0' ++ Nat.toDigits 10 n := by
    rw [List.replicate_succ]
    rfl
  unfold mantissa
  rw [hzeros, Nat.ofDigitChars_append, Nat.ofDigitChars_replicate_zero, mul_zero,
    Nat.ofDigitChars_ten_toDigits, List.length_append, List.length_replicate, hlength]
  congr 2
  push_cast
  ring

/-! ## Reading what was printed -/

lemma readExponent_nil : readExponent [] = 1 := rfl

lemma readExponent_exponentText (e : ℤ) : readExponent (exponentText e) = 10 ^ e := by
  have hvalue : Nat.ofDigitChars 10
      ((if e.natAbs < 10 then ['0'] else []) ++ Nat.toDigits 10 e.natAbs) 0 = e.natAbs := by
    rw [Nat.ofDigitChars_append]
    split_ifs
    · exact Nat.ofDigitChars_ten_toDigits
    · exact Nat.ofDigitChars_ten_toDigits
  unfold exponentText
  by_cases he : e < 0
  · rw [if_pos he, readExponent, hvalue]
    congr 1
    omega
  · rw [if_neg he, readExponent, hvalue]
    congr 1
    omega

/-- The tail of a text cannot be part of the digits before it. -/
def Ends (tail : List Char) : Prop := ∀ ch ∈ tail.head?, ¬ ch.isDigit ∧ ch ≠ '.'

lemma ends_exponentText (e : ℤ) : Ends (exponentText e) := by
  intro ch hch
  obtain rfl : 'e' = ch := Option.some.inj hch
  decide

lemma takeWhile_isDigit {digits tail : List Char} (hdigits : Digits digits)
    (htail : ∀ ch ∈ tail.head?, ¬ ch.isDigit) :
    (digits ++ tail).takeWhile Char.isDigit = digits ∧
      (digits ++ tail).dropWhile Char.isDigit = tail := by
  rw [List.takeWhile_append_of_pos hdigits, List.dropWhile_append_of_pos hdigits]
  rcases tail with - | ⟨ch, tail⟩
  · exact ⟨List.append_nil _, rfl⟩
  · have hch := htail ch rfl
    rw [List.takeWhile_cons_of_neg hch, List.dropWhile_cons_of_neg hch]
    exact ⟨List.append_nil _, rfl⟩

lemma readUnsigned_pointed {whole fraction tail : List Char} (hwhole : Digits whole)
    (hfraction : Digits fraction) (htail : Ends tail) :
    readUnsigned (pointed whole fraction ++ tail) =
      mantissa whole fraction * readExponent tail := by
  have hend : ∀ ch ∈ tail.head?, ¬ ch.isDigit := fun ch hch => (htail ch hch).1
  rw [← mantissa_strip]
  unfold pointed readUnsigned
  split_ifs with hnil
  · obtain ⟨htake, hdrop⟩ := takeWhile_isDigit hwhole hend
    rw [htake, hdrop, hnil]
    rcases tail with - | ⟨ch, tail⟩
    · rfl
    · have hpoint := (htail ch rfl).2
      split
      · next heq => exact absurd (List.cons.inj heq).1 hpoint
      · rfl
  · have hpoint : ∀ ch ∈ ('.' :: (strip fraction ++ tail)).head?, ¬ ch.isDigit := by
      intro ch hch
      obtain rfl : '.' = ch := Option.some.inj hch
      decide
    obtain ⟨htake, hdrop⟩ := takeWhile_isDigit hwhole hpoint
    obtain ⟨htake', hdrop'⟩ := takeWhile_isDigit hfraction.strip hend
    rw [List.append_assoc, List.cons_append, htake, hdrop]
    change mantissa whole ((strip fraction ++ tail).takeWhile Char.isDigit) *
      readExponent ((strip fraction ++ tail).dropWhile Char.isDigit) = _
    rw [htake', hdrop']

/-- Wherever the point is put, the number is read. -/
lemma readUnsigned_place {p n : ℕ} (hp : 0 < p) (hlength : (Nat.toDigits 10 n).length = p)
    (e : ℤ) : readUnsigned (place p (Nat.toDigits 10 n) e) = n * 10 ^ (e + 1 - p) := by
  have hdigits := digits_toDigits n
  have hnil : Ends [] := fun ch hch => by cases hch
  unfold place
  split_ifs with hlarge hwhole
  · rw [readUnsigned_pointed (hdigits.take 1) (hdigits.drop 1) (ends_exponentText e),
      readExponent_exponentText, mantissa_toDigits hlength hp, mul_assoc,
      ← zpow_add₀ (by norm_num)]
    congr 2
    push_cast
    ring
  · rw [← List.append_nil (pointed _ _),
      readUnsigned_pointed (hdigits.take _) (hdigits.drop _) hnil,
      mantissa_toDigits hlength (by omega), readExponent_nil, mul_one]
    congr 2
    omega
  · have hzero : Digits ['0'] := digits_replicate_zero 1
    rw [← List.append_nil (pointed _ _),
      readUnsigned_pointed hzero ((digits_replicate_zero _).append hdigits) hnil,
      mantissa_zeros hlength, readExponent_nil, mul_one]
    congr 2
    omega

/-- What has digits before the point starts with a digit. -/
lemma isDigit_of_head?_pointed {whole fraction tail : List Char} (hne : whole ≠ [])
    (hwhole : Digits whole) {ch : Char} (h : ch ∈ (pointed whole fraction ++ tail).head?) :
    ch.isDigit := by
  have hhead : (pointed whole fraction ++ tail).head? = whole.head? := by
    unfold pointed
    split_ifs
    · exact List.head?_append_of_ne_nil _ hne
    · rw [List.append_assoc, List.head?_append_of_ne_nil _ hne]
  rw [hhead] at h
  exact hwhole ch (List.mem_of_head? h)

/-- What is printed starts with a digit. -/
lemma isDigit_of_head?_place {p n : ℕ} (e : ℤ) {ch : Char}
    (h : ch ∈ (place p (Nat.toDigits 10 n) e).head?) : ch.isDigit := by
  have hdigits := digits_toDigits n
  have hne : ∀ k, (Nat.toDigits 10 n).take (k + 1) ≠ [] := by
    intro k hnil
    rw [List.take_eq_nil_iff] at hnil
    exact hnil.elim (by omega) Nat.toDigits_ne_nil
  unfold place at h
  split_ifs at h
  · exact isDigit_of_head?_pointed (hne 0) (hdigits.take 1) h
  · rw [← List.append_nil (pointed _ _)] at h
    exact isDigit_of_head?_pointed (hne _) (hdigits.take _) h
  · rw [← List.append_nil (pointed _ _)] at h
    exact isDigit_of_head?_pointed (List.cons_ne_nil _ _) (digits_replicate_zero 1) h

/-- A text that starts with a digit has no sign. -/
lemma read_of_head {text : List Char} (h : ∀ ch ∈ text.head?, ch.isDigit) :
    read text = readUnsigned text := by
  unfold read
  split
  · exact absurd (h '-' rfl) (by decide)
  · rfl

/-! ## Rounding -/

/-- The number that is printed for another one. -/
def rounded (p : ℕ) (x : ℚ) : ℚ :=
  let s := significand p |x|
  if x = 0 then 0
  else if x < 0 then -(s.1 * 10 ^ (s.2 + 1 - p)) else s.1 * 10 ^ (s.2 + 1 - p)

section Significand

variable {p : ℕ} {x : ℚ}

/-- In units of the last digit a positive number is between two powers of ten. -/
lemma div_unit_mem (hp : 0 < p) (hx : 0 < x) :
    10 ^ (p - 1) ≤ x / 10 ^ (Int.log 10 x + 1 - p) ∧
      x / 10 ^ (Int.log 10 x + 1 - p) < 10 ^ p := by
  have hself := Int.zpow_log_le_self (b := 10) (by decide) hx
  have hlt := Int.lt_zpow_succ_log_self (b := 10) (by decide) x
  rw [Nat.cast_ofNat] at hself hlt
  have hunit : (0 : ℚ) < 10 ^ (Int.log 10 x + 1 - p) := zpow_pos (by norm_num) _
  constructor
  · rw [le_div_iff₀ hunit, ← zpow_natCast, ← zpow_add₀ (by norm_num)]
    convert hself using 2
    omega
  · rw [div_lt_iff₀ hunit, ← zpow_natCast, ← zpow_add₀ (by norm_num)]
    convert hlt using 2
    omega

/-- Half a unit of the last digit is a small part of the number. -/
lemma unit_le (hx : 0 < x) :
    (10 : ℚ) ^ (Int.log 10 x + 1 - p) ≤ 10 ^ (1 - p : ℤ) * x := by
  have hself := Int.zpow_log_le_self (b := 10) (by decide) hx
  rw [Nat.cast_ofNat] at hself
  calc (10 : ℚ) ^ (Int.log 10 x + 1 - p) = 10 ^ (1 - p : ℤ) * 10 ^ Int.log 10 x := by
        rw [← zpow_add₀ (by norm_num)]
        congr 1
        ring
    _ ≤ 10 ^ (1 - p : ℤ) * x := mul_le_mul_of_nonneg_left hself (zpow_pos (by norm_num) _).le

/-- The digits are those of a number between two powers of ten, near the number. -/
lemma significand_spec (hp : 0 < p) (hx : 0 < x) :
    10 ^ (p - 1) ≤ (significand p x).1 ∧ (significand p x).1 < 10 ^ p ∧
      |((significand p x).1 : ℚ) * 10 ^ ((significand p x).2 + 1 - p) - x| ≤
        10 ^ (1 - p : ℤ) / 2 * x := by
  obtain ⟨hlow, hhigh⟩ := div_unit_mem hp hx
  have hnearest := nearest_nearestEven (x / 10 ^ (Int.log 10 x + 1 - p))
  have hunit : (0 : ℚ) < 10 ^ (Int.log 10 x + 1 - p) := zpow_pos (by norm_num) _
  have hle := hnearest.le_of_le (m := 10 ^ (p - 1)) (by exact_mod_cast hlow)
  have hge := hnearest.ge_of_ge (m := 10 ^ p) (by exact_mod_cast hhigh.le)
  have hnat : ((nearestEven (x / 10 ^ (Int.log 10 x + 1 - p))).toNat : ℤ) =
      nearestEven (x / 10 ^ (Int.log 10 x + 1 - p)) :=
    Int.toNat_of_nonneg (le_trans (by positivity) hle)
  unfold significand
  dsimp only
  generalize hn : (nearestEven (x / 10 ^ (Int.log 10 x + 1 - p))).toNat = n at hnat
  rw [← hnat] at hle hge
  have hnear : |(n : ℚ) * 10 ^ (Int.log 10 x + 1 - p) - x| ≤ 10 ^ (1 - p : ℤ) / 2 * x := by
    have herror : |((nearestEven (x / 10 ^ (Int.log 10 x + 1 - p)) : ℤ) : ℚ) -
        x / 10 ^ (Int.log 10 x + 1 - p)| ≤ 1 / 2 := hnearest
    rw [← hnat, Int.cast_natCast] at herror
    calc |(n : ℚ) * 10 ^ (Int.log 10 x + 1 - p) - x|
        = |(n : ℚ) - x / 10 ^ (Int.log 10 x + 1 - p)| * 10 ^ (Int.log 10 x + 1 - p) := by
          rw [← abs_of_pos hunit, ← abs_mul, sub_mul, abs_of_pos hunit,
            div_mul_cancel₀ _ hunit.ne']
      _ ≤ 1 / 2 * 10 ^ (Int.log 10 x + 1 - p) := mul_le_mul_of_nonneg_right herror hunit.le
      _ ≤ 10 ^ (1 - p : ℤ) / 2 * x := by linarith [unit_le (p := p) hx]
  split_ifs with hcarry
  · -- rounding up has given one digit more
    refine ⟨le_rfl, Nat.pow_lt_pow_right (by decide) (by omega), ?_⟩
    convert hnear using 3
    rw [hcarry]
    push_cast
    rw [← zpow_natCast, ← zpow_natCast, ← zpow_add₀ (by norm_num), ← zpow_add₀ (by norm_num)]
    congr 1
    omega
  · refine ⟨by exact_mod_cast hle, lt_of_le_of_ne (by exact_mod_cast hge) hcarry, hnear⟩

lemma length_toDigits_significand (hp : 0 < p) (hx : 0 < x) :
    (Nat.toDigits 10 (significand p x).1).length = p := by
  obtain ⟨hlow, hhigh, -⟩ := significand_spec hp hx
  have hle := (Nat.length_toDigits_le_iff (by decide) hp).mpr hhigh
  rcases Nat.lt_or_ge 1 p with hlarge | hone
  · have hnot := mt (Nat.length_toDigits_le_iff (k := p - 1) (by decide) (by omega)).mp
      (not_lt.mpr hlow)
    omega
  · have hne := List.length_pos_iff.mpr (Nat.toDigits_ne_nil (n := (significand p x).1) (b := 10))
    omega

end Significand

/-- What is printed is read as the rounded number. -/
theorem read_general {p : ℕ} (hp : 0 < p) (negativeZero : Bool) (x : ℚ) :
    read (general p negativeZero x) = rounded p x := by
  unfold general rounded
  dsimp only
  split_ifs with hzero hminus hneg
  · decide +kernel
  · decide +kernel
  · have hlength := length_toDigits_significand hp (abs_pos.mpr hzero)
    rw [List.singleton_append, read, readUnsigned_place hp hlength]
  · have hlength := length_toDigits_significand hp (abs_pos.mpr hzero)
    rw [List.nil_append, read_of_head fun ch hch => isDigit_of_head?_place _ hch,
      readUnsigned_place hp hlength]

/-- Rounding is off by at most half a unit of the last digit. -/
theorem abs_rounded_sub_le {p : ℕ} (hp : 0 < p) (x : ℚ) :
    |rounded p x - x| ≤ 10 ^ (1 - p : ℤ) / 2 * |x| := by
  unfold rounded
  dsimp only
  split_ifs with hzero hneg
  · rw [hzero, sub_zero, abs_zero, mul_zero]
  · obtain ⟨-, -, hspec⟩ := significand_spec hp (abs_pos.mpr hzero)
    rw [abs_of_neg hneg] at hspec ⊢
    rwa [← abs_neg, neg_sub, sub_neg_eq_add, add_comm, ← sub_neg_eq_add]
  · obtain ⟨-, -, hspec⟩ := significand_spec hp (abs_pos.mpr hzero)
    rw [abs_of_nonneg (not_lt.mp hneg)] at hspec ⊢
    exact hspec

/-- What is printed is read as the integer. -/
theorem readInt_intText (n : ℤ) : readInt (intText n) = n := by
  unfold intText
  split_ifs with hneg
  · rw [List.singleton_append, readInt, Nat.ofDigitChars_ten_toDigits]
    omega
  · rw [List.nil_append]
    unfold readInt
    split
    · next digits heq =>
      have hsign : '-' ∈ Nat.toDigits 10 n.natAbs := heq ▸ List.mem_cons_self ..
      exact absurd (digits_toDigits _ _ hsign) (by decide)
    · rw [Nat.ofDigitChars_ten_toDigits]
      omega

/-! ## The characters of numbers -/

/-- The text has only characters of numbers. -/
def Numeric (text : List Char) : Prop := ∀ ch ∈ text, ch.isDigit ∨ ch ∈ ['-', '.', 'e', '+']

lemma Digits.numeric {text : List Char} (h : Digits text) : Numeric text :=
  fun ch hch => .inl (h ch hch)

lemma Numeric.append {a b : List Char} (ha : Numeric a) (hb : Numeric b) : Numeric (a ++ b) :=
  fun ch hch => (List.mem_append.mp hch).elim (ha ch) (hb ch)

lemma numeric_singleton (ch : Char) (h : ch ∈ ['-', '.', 'e', '+']) : Numeric [ch] := by
  intro ch' hch'
  rw [List.mem_singleton.mp hch']
  exact .inr h

lemma Numeric.not_mem {text : List Char} (h : Numeric text) {ch : Char} (hdigit : ¬ ch.isDigit)
    (hsign : ch ∉ ['-', '.', 'e', '+']) : ch ∉ text :=
  fun hch => (h ch hch).elim hdigit hsign

lemma numeric_intText (n : ℤ) : Numeric (intText n) := by
  unfold intText
  split_ifs
  · exact (numeric_singleton _ (by decide)).append (digits_toDigits _).numeric
  · exact (digits_toDigits _).numeric

lemma numeric_exponentText (e : ℤ) : Numeric (exponentText e) := by
  have hsign : Numeric [if e < 0 then '-' else '+'] := by
    split_ifs
    · exact numeric_singleton _ (by decide)
    · exact numeric_singleton _ (by decide)
  have hzero : Digits (if e.natAbs < 10 then ['0'] else []) := by
    split_ifs
    · exact digits_replicate_zero 1
    · exact digits_replicate_zero 0
  exact (numeric_singleton 'e' (by decide)).append
    (hsign.append (hzero.append (digits_toDigits _)).numeric)

lemma numeric_pointed {whole fraction : List Char} (hwhole : Digits whole)
    (hfraction : Digits fraction) : Numeric (pointed whole fraction) := by
  unfold pointed
  split_ifs
  · exact hwhole.numeric
  · exact hwhole.numeric.append ((numeric_singleton '.' (by decide)).append
      hfraction.strip.numeric)

lemma numeric_place {digits : List Char} (hdigits : Digits digits) (p : ℕ) (e : ℤ) :
    Numeric (place p digits e) := by
  unfold place
  split_ifs
  · exact (numeric_pointed (hdigits.take _) (hdigits.drop _)).append (numeric_exponentText e)
  · exact numeric_pointed (hdigits.take _) (hdigits.drop _)
  · exact numeric_pointed (digits_replicate_zero 1) ((digits_replicate_zero _).append hdigits)

lemma numeric_general (p : ℕ) (negativeZero : Bool) (x : ℚ) :
    Numeric (general p negativeZero x) := by
  have hsign : Numeric ['-'] := numeric_singleton _ (by decide)
  have hplace : ∀ (n : ℕ) (e : ℤ), Numeric (place p (Nat.toDigits 10 n) e) := fun n e =>
    numeric_place (digits_toDigits n) p e
  unfold general
  dsimp only
  split_ifs
  · exact hsign.append (digits_replicate_zero 1).numeric
  · exact (digits_replicate_zero 1).numeric
  · exact hsign.append (hplace _ _)
  · exact hplace _ _

end DecimalText
