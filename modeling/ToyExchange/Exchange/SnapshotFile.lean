import ToyExchange.Foundations.DecimalText
import ToyExchange.Foundations.Separated
import ToyExchange.Tools.Wire
import ToyExchange.Workers.Snapshot

/-!
# The file of the snapshot

`WriteSnapshot` leaves the accounts as text: a line for each row, with commas between the fields.
Amounts of money are printed as a stream does without being told otherwise, with six significant
digits.

Reading the file splits it into lines and the lines into fields.  Texts of numbers and the tickers
that are listed have neither commas nor line ends in them, so the fields are found again, and a
number is read as it was printed.  So a reader gets the rows back, the amounts up to five parts in a
million (`snapshot_file_reads_back`).
-/

namespace ToyExchange

open DecimalText Separated

/-! ## Writing -/

/-- The fields of a row as they are printed.  A zero may have a minus sign, which the row does not
tell. -/
def SnapshotRow.fields (negativeZero : Fin 3 → Bool) (row : SnapshotRow) : List (List Char) :=
  [intText row.userId, Tools.textOf row.ticker.chars, intText row.position,
    general 6 (negativeZero 0) row.avgCost, general 6 (negativeZero 1) row.realizedPnl,
    general 6 (negativeZero 2) row.unrealizedPnl]

/-- The line of a row. -/
def SnapshotRow.line (negativeZero : Fin 3 → Bool) (row : SnapshotRow) : List Char :=
  [','].intercalate (row.fields negativeZero)

/-- The first line of the file. -/
def snapshotHeader : List Char :=
  "userId,ticker,position,avgCost,realizedPnl,unrealizedPnl".toList

/-- `WriteSnapshot`: what the file holds, or the exception if it cannot be opened. -/
def UserRegistry.writeSnapshotFile (r : UserRegistry) (path : String) (opens : Bool)
    (iteration : Fin marketParticipantCount → List Ticker)
    (negativeZero : SnapshotRow → Fin 3 → Bool) : Except String (List Char) :=
  if opens then
    .ok (terminated '\n' (snapshotHeader ::
      (r.writeSnapshot iteration).map fun row => row.line (negativeZero row)))
  else .error ("UserRegistry::WriteSnapshot: failed to open " ++ path)

/-! ## Reading -/

/-- What a line of the file says. -/
structure SnapshotLine where
  userId : ℤ
  ticker : List Char
  position : ℤ
  avgCost : ℚ
  realizedPnl : ℚ
  unrealizedPnl : ℚ

/-- Read a line. -/
def readLine (line : List Char) : Option SnapshotLine :=
  match line.splitOn ',' with
  | [userId, ticker, position, avgCost, realizedPnl, unrealizedPnl] =>
    some ⟨readInt userId, ticker, readInt position, read avgCost, read realizedPnl,
      read unrealizedPnl⟩
  | _ => none

/-- Read what comes after the first line. -/
def readSnapshot (file : List Char) : List (Option SnapshotLine) :=
  ((file.splitOn '\n').tail.dropLast).map readLine

/-- The printed amount is off by at most five parts in a million. -/
def PrintedAs (x printed : ℚ) : Prop := |printed - x| ≤ |x| * (5 / 10 ^ 6)

/-- The line says what the row does, up to the rounding of the amounts. -/
structure SnapshotRow.Shows (row : SnapshotRow) (line : SnapshotLine) : Prop where
  userId : line.userId = row.userId
  ticker : line.ticker = Tools.textOf row.ticker.chars
  position : line.position = row.position
  avgCost : PrintedAs row.avgCost line.avgCost
  realizedPnl : PrintedAs row.realizedPnl line.realizedPnl
  unrealizedPnl : PrintedAs row.unrealizedPnl line.unrealizedPnl

/-! ## Reading what was written -/

/-- Commas and line ends. -/
def IsMark (ch : Char) : Prop := ch = ',' ∨ ch = '\n'

/-- There are no marks in a number. -/
lemma not_mem_of_numeric {text : List Char} (h : Numeric text) {ch : Char} (hch : IsMark ch) :
    ch ∉ text := by
  rcases hch with rfl | rfl
  · exact h.not_mem (by decide) (by decide)
  · exact h.not_mem (by decide) (by decide)

/-- There are no marks in a listed ticker. -/
lemma not_mem_textOf {ticker : Ticker} (h : ticker ∈ instruments) {ch : Char} (hch : IsMark ch) :
    ch ∉ Tools.textOf ticker.chars := by
  have hlisted : ∀ t ∈ instruments,
      ',' ∉ Tools.textOf t.chars ∧ '\n' ∉ Tools.textOf t.chars := by decide
  rcases hch with rfl | rfl
  · exact (hlisted ticker h).1
  · exact (hlisted ticker h).2

/-- A printed amount is near the amount. -/
lemma printedAs_rounded (x : ℚ) : PrintedAs x (rounded 6 x) := by
  have hnear := abs_rounded_sub_le (p := 6) (by decide) x
  norm_num at hnear
  unfold PrintedAs
  linarith

namespace SnapshotRow

variable (negativeZero : Fin 3 → Bool) {row : SnapshotRow}

/-- What is read from the line of a row. -/
def printed (row : SnapshotRow) : SnapshotLine :=
  ⟨row.userId, Tools.textOf row.ticker.chars, row.position, rounded 6 row.avgCost,
    rounded 6 row.realizedPnl, rounded 6 row.unrealizedPnl⟩

lemma shows_printed (row : SnapshotRow) : row.Shows row.printed where
  userId := rfl
  ticker := rfl
  position := rfl
  avgCost := printedAs_rounded _
  realizedPnl := printedAs_rounded _
  unrealizedPnl := printedAs_rounded _

/-- There are no marks in the fields. -/
lemma not_mem_fields (h : row.ticker ∈ instruments) {ch : Char} (hch : IsMark ch) :
    ∀ field ∈ row.fields negativeZero, ch ∉ field := by
  unfold fields
  simp only [List.forall_mem_cons, List.not_mem_nil, false_imp_iff, forall_const, and_true]
  exact ⟨not_mem_of_numeric (numeric_intText _) hch, not_mem_textOf h hch,
    not_mem_of_numeric (numeric_intText _) hch, not_mem_of_numeric (numeric_general _ _ _) hch,
    not_mem_of_numeric (numeric_general _ _ _) hch, not_mem_of_numeric (numeric_general _ _ _) hch⟩

/-- There is no line end in a line. -/
lemma not_mem_line (h : row.ticker ∈ instruments) : '\n' ∉ row.line negativeZero := by
  intro hmem
  rcases mem_intercalate hmem with hcomma | ⟨field, hfield, hmem⟩
  · exact absurd hcomma (by decide)
  · exact not_mem_fields negativeZero h (.inr rfl) field hfield hmem

/-- The fields of a line are found and read. -/
lemma readLine_line (h : row.ticker ∈ instruments) :
    readLine (row.line negativeZero) = some row.printed := by
  have hsplit : (row.line negativeZero).splitOn ',' = row.fields negativeZero :=
    List.splitOn_intercalate ',' (not_mem_fields negativeZero h (.inl rfl))
      (List.cons_ne_nil _ _)
  unfold readLine
  rw [hsplit]
  unfold fields
  dsimp only
  rw [readInt_intText, readInt_intText, read_general (by decide), read_general (by decide),
    read_general (by decide)]
  rfl

end SnapshotRow

namespace UserRegistry

/-- The tickers of the rows are among those iterated. -/
lemma ticker_mem_of_mem_writeSnapshot {r : UserRegistry}
    {iteration : Fin marketParticipantCount → List Ticker} {row : SnapshotRow}
    (h : row ∈ r.writeSnapshot iteration) : ∃ i, row.ticker ∈ iteration i := by
  obtain ⟨i, -, hrow⟩ := List.mem_flatMap.mp h
  obtain ⟨ticker, hticker, hrow⟩ := List.mem_filterMap.mp hrow
  obtain ⟨holding, -, rfl⟩ := Option.map_eq_some_iff.mp hrow
  exact ⟨i, hticker⟩

/-- **The file of the snapshot can be read back.**  For every registry with holdings in listed
tickers only, in whatever order the maps are iterated: the lines of the file after the first one,
split at commas, are in order the rows of the snapshot, with user ids, tickers and positions as they
are and every amount up to five parts in a million. -/
theorem snapshot_file_reads_back (r : UserRegistry)
    {iteration : Fin marketParticipantCount → List Ticker}
    (hlisted : ∀ i, ∀ ticker ∈ iteration i, ticker ∈ instruments) (path : String)
    (negativeZero : SnapshotRow → Fin 3 → Bool) :
    ∃ file lines, r.writeSnapshotFile path true iteration negativeZero = .ok file ∧
      readSnapshot file = lines.map some ∧
      List.Forall₂ SnapshotRow.Shows (r.writeSnapshot iteration) lines := by
  have hrow : ∀ row ∈ r.writeSnapshot iteration, row.ticker ∈ instruments := by
    intro row hmem
    obtain ⟨i, hticker⟩ := ticker_mem_of_mem_writeSnapshot hmem
    exact hlisted i _ hticker
  refine ⟨_, (r.writeSnapshot iteration).map SnapshotRow.printed, if_pos rfl, ?_, ?_⟩
  · have hlines : ∀ line ∈ snapshotHeader ::
        (r.writeSnapshot iteration).map (fun row => row.line (negativeZero row)),
        '\n' ∉ line := by
      rw [List.forall_mem_cons]
      refine ⟨by decide, fun line hline => ?_⟩
      obtain ⟨row, hmem, rfl⟩ := List.mem_map.mp hline
      exact SnapshotRow.not_mem_line _ (hrow row hmem)
    unfold readSnapshot
    rw [splitOn_terminated hlines, List.cons_append, List.tail_cons, List.dropLast_concat,
      List.map_map, List.map_map]
    exact List.map_congr_left fun row hmem => SnapshotRow.readLine_line _ (hrow row hmem)
  · rw [List.forall₂_map_right_iff, List.forall₂_same]
    exact fun row _ => row.shows_printed

/-- A short position of 10 with a zero that has a minus sign. -/
theorem snapshot_file_of_one_holding :
    let r : UserRegistry := ⟨fun i => ⟨(i : ℕ), fun ticker =>
      if (i : ℕ) = 1 ∧ ticker = .aapl then some ⟨-10, 203 / 2, 1000000 / 3, 0⟩ else none⟩⟩
    let iteration : Fin marketParticipantCount → List Ticker :=
      fun i => if (i : ℕ) = 1 then [.aapl] else []
    ∃ file lines, r.writeSnapshotFile "inventory_snapshot.csv" true iteration
        (fun _ _ => true) = .ok file ∧
      "1,AAPL,-10,101.5,333333,-0".toList ∈ file.splitOn '\n' ∧
      readSnapshot file = lines.map some ∧
      List.Forall₂ SnapshotRow.Shows (r.writeSnapshot iteration) lines := by
  intro r iteration
  have hlisted : ∀ i, ∀ ticker ∈ iteration i, ticker ∈ instruments := by
    intro i ticker hticker
    have hmem : ticker ∈ if (i : ℕ) = 1 then [Ticker.aapl] else [] := hticker
    split_ifs at hmem
    · rw [List.mem_singleton.mp hmem]
      decide
    · cases hmem
  obtain ⟨file, lines, hfile, hread, hshows⟩ := snapshot_file_reads_back r hlisted
    "inventory_snapshot.csv" fun _ _ => true
  refine ⟨file, lines, hfile, ?_, hread, hshows⟩
  obtain rfl := Except.ok.inj hfile
  decide +kernel

end UserRegistry

end ToyExchange
