import ToyExchange.Net.Sessions

/-!
# Ticker fields without a NUL

The field of a ticker has one byte more than a ticker has characters, for a NUL.  Nothing makes a
client send that NUL.  `strnlen` then counts all the bytes of the field, which exceeds the capacity
of a ticker, and the constructor throws (`decodeTicker_eq_none_iff`).

`decodeInboundMessage_eq_none_iff` carries this to messages of any type, and
`gateway_throws_iff` to the gateway: its thread is left by an exception exactly if some client has
sent a complete message with such a field.
-/

namespace ToyExchange

open Bytes Framing

/-- The bytes of the ticker in an inbound message.  Both members of the union have them in the same
place. -/
def tickerField (message : List UInt8) : List UInt8 := slice 17 wireTickerSize message

lemma ticker_load_orderAdd (message : List UInt8) :
    (WireOrderAdd.load 1 message).ticker = tickerField message := rfl

lemma ticker_load_orderCancel (message : List UInt8) :
    (WireOrderCancel.load 1 message).ticker = tickerField message := rfl

lemma length_tickerField {message : List UInt8}
    (hlength : message.length = inboundWireMessageSize) :
    (tickerField message).length = maxTickerLength + 1 := by
  apply length_slice
  rw [hlength]
  decide

/-- The string in a ticker field fits into a ticker exactly if it is terminated. -/
lemma length_cString_le_iff {field : List UInt8} (hlength : field.length = maxTickerLength + 1) :
    (cString field).length ≤ maxTickerLength ↔ 0 ∈ field := by
  rw [← length_cString_lt_iff, hlength, Nat.lt_succ_iff]

lemma decodeTicker_eq_none_iff {field : List UInt8} (hlength : field.length = maxTickerLength + 1) :
    decodeTicker field = none ↔ 0 ∉ field := by
  unfold decodeTicker
  rw [dite_eq_right_iff, ← length_cString_le_iff hlength]
  simp

/-- Decoding a message throws exactly if its ticker is not terminated, whatever its type and its
other bytes are. -/
lemma decodeInboundMessage_eq_none_iff {message : List UInt8}
    (hlength : message.length = inboundWireMessageSize) :
    decodeInboundMessage message = none ↔ 0 ∉ tickerField message := by
  rw [← decodeTicker_eq_none_iff (length_tickerField hlength)]
  unfold decodeInboundMessage decodeOrderAdd decodeOrderCancel
  rw [ticker_load_orderAdd, ticker_load_orderCancel]
  split_ifs <;> simp

namespace Gateway

/-- Decoding has thrown exactly if a complete message of some session cannot be decoded. -/
lemma thrown_iff_exists_block {g : Gateway} {s : Sessions} (h : Framed g s) :
    (∃ fd, g.control = .thrown fd) ↔
      ∃ session, ∃ block ∈ blocks inboundWireMessageSize (s.bytes session),
        decodeInboundMessage block = none := by
  constructor
  · rintro ⟨fd, hthrown⟩
    exact ⟨s.current fd, exists_block_of_thrown h hthrown⟩
  · rintro ⟨⟨fd, k⟩, block, hblock, hnone⟩
    by_contra hnot
    have hrunning : ∀ fd, g.control ≠ .thrown fd := fun fd hthrown => hnot ⟨fd, hthrown⟩
    have hmem : none ∈ (blocks inboundWireMessageSize (s.bytes (fd, k))).map
        decodeInboundMessage := List.mem_map.mpr ⟨block, hblock, hnone⟩
    -- the commands of a session, and the one in hand, are decoded commands
    by_cases hk : k = s.generation fd
    · have hdecoded := (h fd).decoded
      rw [due_eq_pending hrunning, ← List.map_append] at hdecoded
      rw [hk] at hmem
      change none ∈ (blocks inboundWireMessageSize (s.bytes (s.current fd))).map
        decodeInboundMessage at hmem
      rw [hdecoded] at hmem
      simp at hmem
    · rw [(h fd).earlier k hk] at hmem
      simp at hmem

/-- **What stops the gateway.**  A message of the right size is decoded exactly if its ticker field
has a NUL, and that is when the length of its string is within the capacity of a ticker.  On every
run of the gateway, decoding has thrown exactly if some client has sent a complete message whose
ticker field has no NUL. -/
theorem gateway_throws_iff (message : List UInt8) (inputs : List GatewayInput) :
    (message.length = inboundWireMessageSize →
      ((cString (tickerField message)).length ≤ maxTickerLength ↔ 0 ∈ tickerField message) ∧
      ((∃ cmd, decodeInboundMessage message = some cmd) ↔ 0 ∈ tickerField message)) ∧
    ((∃ fd, (after inputs).control = .thrown fd) ↔
      ∃ session, ∃ block ∈
        blocks inboundWireMessageSize ((Sessions.ofCalls (calls inputs)).bytes session),
        0 ∉ tickerField block) := by
  constructor
  · intro hlength
    refine ⟨length_cString_le_iff (length_tickerField hlength), ?_⟩
    rw [← Option.isSome_iff_exists, ← not_iff_not, ← decodeInboundMessage_eq_none_iff hlength]
    simp
  · rw [thrown_iff_exists_block (framed_after inputs)]
    apply exists_congr
    intro session
    apply exists_congr
    intro block
    apply and_congr_right
    intro hblock
    exact decodeInboundMessage_eq_none_iff (length_of_mem_blocks hblock)

/-- An add whose ticker field is sixteen letters cannot be decoded, and a client that sends it stops
the gateway. -/
theorem gateway_stopped_by_message :
    let message : List UInt8 :=
      0 :: List.replicate 16 0 ++ List.replicate 16 0x41 ++ List.replicate 17 0
    message.length = inboundWireMessageSize ∧
      (cString (tickerField message)).length = maxTickerLength + 1 ∧
      decodeInboundMessage message = none ∧
      (after [.accept 5, .readFrom 5, .read (.data message)]).control = .thrown 5 := by
  refine ⟨by decide, by decide, by decide, by rfl⟩

end Gateway

end ToyExchange
