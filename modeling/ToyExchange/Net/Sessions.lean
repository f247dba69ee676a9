import ToyExchange.Net.Gateway
import ToyExchange.Foundations.Framing

/-!
# Sessions of the gateway

A descriptor that was closed may be returned by `accept4` again.  A session is one lifetime of a
descriptor: the descriptor and how many connections it has stood for before.  `Sessions` is what an
observer of the calls knows: the bytes that were read in each session, and the commands on the queue
with the session that each comes from.

The invariant `FramedAt` ties the gateway to the sessions of a descriptor.  The commands of a
session are the decoded blocks of its bytes, and the buffer of an open connection holds the bytes
behind the last complete block.  It is kept by the four things that the thread does: it accepts a
connection (`FramedAt.accept`), receives bytes (`FramedAt.receive`), pushes a command
(`FramedAt.push`), or moves on and perhaps closes connections (`FramedAt.move`).  What it does for
one descriptor leaves the others alone (`FramedAt.other`).
-/

namespace ToyExchange

open Framing

/-! ## What an observer knows -/

/-- The sessions of a gateway. -/
structure Sessions where
  /-- How many connections with this descriptor were accepted. -/
  generation : ℤ → ℕ
  /-- The bytes that were read in a session. -/
  bytes : ℤ × ℕ → List UInt8
  /-- The commands on the queue, each with its session. -/
  queue : List ((ℤ × ℕ) × InboundCommand)

namespace Sessions

/-- Nothing has happened. -/
def initial : Sessions := ⟨fun _ => 0, fun _ => [], []⟩

/-- The last session with a descriptor. -/
def current (s : Sessions) (fd : ℤ) : ℤ × ℕ := (fd, s.generation fd)

/-- The commands of a session, in the order of the queue. -/
def commands (s : Sessions) (session : ℤ × ℕ) : List InboundCommand :=
  (s.queue.filter fun entry => entry.1 = session).map Prod.snd

/-- The observer sees a call. -/
def observe (s : Sessions) : GatewayCall → Sessions
  | .accepted fd =>
    { s with generation := Function.update s.generation fd (s.generation fd + 1) }
  | .received fd bs =>
    { s with bytes := Function.update s.bytes (s.current fd) (s.bytes (s.current fd) ++ bs) }
  | .pushed fd cmd => { s with queue := s.queue ++ [(s.current fd, cmd)] }

/-- What an observer of the calls knows in the end. -/
def ofCalls (calls : List GatewayCall) : Sessions := calls.foldl observe initial

/-- Bytes that are received come last in the current session of the descriptor. -/
lemma bytes_received (s : Sessions) (fd : ℤ) (bs : List UInt8) :
    (s.observe (.received fd bs)).bytes (s.current fd) = s.bytes (s.current fd) ++ bs :=
  Function.update_self ..

/-- No other session receives them. -/
lemma bytes_received_of_ne (s : Sessions) {fd : ℤ} {bs : List UInt8} {session : ℤ × ℕ}
    (h : session ≠ s.current fd) :
    (s.observe (.received fd bs)).bytes session = s.bytes session :=
  Function.update_of_ne h ..

/-- A pushed command is the last one of its session. -/
lemma commands_pushed (s : Sessions) (fd : ℤ) (cmd : InboundCommand) (session : ℤ × ℕ) :
    (s.observe (.pushed fd cmd)).commands session =
      s.commands session ++ if s.current fd = session then [cmd] else [] := by
  unfold commands observe
  rw [List.filter_append, List.map_append]
  congr 1
  by_cases h : s.current fd = session
  · simp [h]
  · simp [h]

end Sessions

/-- The commands that were pushed, in order. -/
def pushedCommands (calls : List GatewayCall) : List InboundCommand :=
  calls.filterMap fun
    | .pushed _ cmd => some cmd
    | _ => none

/-- The queue of the observer is the queue. -/
lemma queue_ofCalls (calls : List GatewayCall) :
    (Sessions.ofCalls calls).queue.map Prod.snd = pushedCommands calls := by
  induction calls using List.reverseRecOn with
  | nil => rfl
  | append_singleton calls call ih =>
    unfold Sessions.ofCalls pushedCommands at ih ⊢
    rw [List.foldl_append, List.filterMap_append, ← ih]
    cases call with
    | accepted fd => exact (List.append_nil _).symm
    | received fd bs => exact (List.append_nil _).symm
    | pushed fd cmd => exact List.map_append

/-! ## The invariant -/

namespace Gateway

/-- What has become of the block that was completed last but not yet pushed. -/
def due (g : Gateway) (fd : ℤ) : List (Option InboundCommand) :=
  match g.control with
  | .dispatching fd' cmd _ => if fd' = fd then [some cmd] else []
  | .thrown fd' => if fd' = fd then [none] else []
  | _ => []

/-- The thread is in `ReadFrom` for the descriptor. -/
def Busy (g : Gateway) (fd : ℤ) : Prop :=
  match g.control with
  | .reading fd' => fd' = fd
  | .dispatching fd' _ _ => fd' = fd
  | _ => False

end Gateway

/-- The commands and the buffer of a descriptor are those of the bytes of its sessions. -/
structure FramedAt (g : Gateway) (s : Sessions) (fd : ℤ) : Prop where
  /-- Nothing was read or pushed in a session that has not begun. -/
  fresh : ∀ k, s.generation fd < k → s.bytes (fd, k) = [] ∧ s.commands (fd, k) = []
  /-- The commands of an earlier session are its decoded blocks. -/
  earlier : ∀ k, k ≠ s.generation fd →
    (blocks inboundWireMessageSize (s.bytes (fd, k))).map decodeInboundMessage =
      (s.commands (fd, k)).map some
  /-- The commands of the current session are its decoded blocks, up to the block in hand. -/
  decoded : (blocks inboundWireMessageSize (s.bytes (s.current fd))).map decodeInboundMessage =
    (s.commands (s.current fd)).map some ++ g.due fd
  /-- The buffer of an open connection holds the beginning of a block. -/
  held : ∀ c, g.connections fd = some c → g.due fd = [] →
    c.contents = remainder inboundWireMessageSize (s.bytes (s.current fd)) ∧
      c.filled = (remainder inboundWireMessageSize (s.bytes (s.current fd))).length
  /-- Behind a block in hand nothing was read. -/
  whole : g.due fd ≠ [] → remainder inboundWireMessageSize (s.bytes (s.current fd)) = []
  /-- The thread reads from an open connection. -/
  open_of_busy : g.Busy fd → ∃ c, g.connections fd = some c

/-- Every descriptor is framed. -/
def Framed (g : Gateway) (s : Sessions) : Prop := ∀ fd, FramedAt g s fd

lemma framed_initial : Framed .initial .initial := by
  intro fd
  have hblocks : blocks inboundWireMessageSize ([] : List UInt8) = [] := blocks_of_lt (by decide)
  refine ⟨fun _ _ => ⟨rfl, rfl⟩, ?_, ?_, ?_, fun h => absurd rfl h, False.elim⟩
  · intro k _
    exact congrArg (List.map decodeInboundMessage) hblocks
  · exact congrArg (List.map decodeInboundMessage) hblocks
  · intro c hc
    cases hc

namespace FramedAt

variable {g g' : Gateway} {s s' : Sessions} {fd : ℤ}

/-- With no block in hand the commands of a session are its decoded blocks. -/
lemma decoded_of_due (h : FramedAt g s fd) (hdue : g.due fd = []) (k : ℕ) :
    (blocks inboundWireMessageSize (s.bytes (fd, k))).map decodeInboundMessage =
      (s.commands (fd, k)).map some := by
  by_cases hk : k = s.generation fd
  · have hdecoded := h.decoded
    rw [hdue, List.append_nil] at hdecoded
    rw [hk]
    exact hdecoded
  · exact h.earlier k hk

/-- The thread moves on without a call that the observer sees. -/
lemma move (h : FramedAt g s fd) (hdue : g'.due fd = g.due fd)
    (hconnections : ∀ c, g'.connections fd = some c → g.connections fd = some c)
    (hbusy : g'.Busy fd → ∃ c, g'.connections fd = some c) : FramedAt g' s fd where
  fresh := h.fresh
  earlier := h.earlier
  decoded := by
    rw [hdue]
    exact h.decoded
  held c hc hnone := by
    rw [hdue] at hnone
    exact h.held c (hconnections c hc) hnone
  whole hsome := by
    rw [hdue] at hsome
    exact h.whole hsome
  open_of_busy := hbusy

/-- A call for another descriptor. -/
lemma other (h : FramedAt g s fd) (hconnections : g'.connections fd = g.connections fd)
    (hdue : g'.due fd = g.due fd) (hbusy : ¬ g'.Busy fd)
    (hgeneration : s'.generation fd = s.generation fd)
    (hbytes : ∀ k, s'.bytes (fd, k) = s.bytes (fd, k))
    (hcommands : ∀ k, s'.commands (fd, k) = s.commands (fd, k)) : FramedAt g' s' fd := by
  have hcurrent : s'.current fd = s.current fd := by
    unfold Sessions.current
    rw [hgeneration]
  have hstream : s'.bytes (s'.current fd) = s.bytes (s.current fd) := by
    rw [hcurrent]
    exact hbytes _
  refine ⟨?_, ?_, ?_, ?_, ?_, fun h => absurd h hbusy⟩
  · intro k hk
    rw [hgeneration] at hk
    rw [hbytes, hcommands]
    exact h.fresh k hk
  · intro k hk
    rw [hgeneration] at hk
    rw [hbytes, hcommands]
    exact h.earlier k hk
  · rw [hstream, hcurrent, hdue]
    exact h.decoded.trans (congrArg (·.map some ++ _) (hcommands _).symm)
  · rw [hstream, hconnections, hdue]
    exact h.held
  · rw [hstream, hdue]
    exact h.whole

/-- A connection is accepted: its session begins with an empty buffer. -/
lemma accept (h : FramedAt g s fd) (hdue : g.due fd = []) (hbusy : ¬ g.Busy fd) :
    FramedAt (g.acceptConnection fd) (s.observe (.accepted fd)) fd := by
  have hgeneration : (s.observe (.accepted fd)).generation fd = s.generation fd + 1 :=
    Function.update_self ..
  have hcurrent : (s.observe (.accepted fd)).current fd = (fd, s.generation fd + 1) := by
    unfold Sessions.current
    rw [hgeneration]
  have hdue' : (g.acceptConnection fd).due fd = [] := hdue
  obtain ⟨hbytes, hcommands⟩ := h.fresh (s.generation fd + 1) (Nat.lt_succ_self _)
  have hstream : (s.observe (.accepted fd)).bytes ((s.observe (.accepted fd)).current fd) = [] := by
    rw [hcurrent]
    exact hbytes
  refine ⟨?_, ?_, ?_, ?_, fun hsome => absurd hdue' hsome, fun h => absurd h hbusy⟩
  · intro k hk
    rw [hgeneration] at hk
    exact h.fresh k (by omega)
  · intro k _
    exact h.decoded_of_due hdue k
  · rw [hstream, hcurrent, hdue', List.append_nil]
    exact congrArg (·.map some) hcommands.symm
  · intro c hc _
    have hself : (g.acceptConnection fd).connections fd = some .empty := Function.update_self ..
    rw [hself] at hc
    obtain rfl := Option.some.inj hc
    rw [hstream]
    exact ⟨rfl, rfl⟩

/-- What the bytes that a connection receives make of the stream, whose beginning of a block it
holds. -/
lemma cut_receive {c c' : Connection} {stream bs : List UInt8}
    (hcontents : c.contents = remainder inboundWireMessageSize stream)
    (hfilled : c.filled = (remainder inboundWireMessageSize stream).length)
    (hreceive : c.receive? bs = some c') :
    if c'.filled = inboundWireMessageSize then
      blocks inboundWireMessageSize (stream ++ bs) =
          blocks inboundWireMessageSize stream ++ [c'.buffer] ∧
        remainder inboundWireMessageSize (stream ++ bs) = []
    else
      blocks inboundWireMessageSize (stream ++ bs) = blocks inboundWireMessageSize stream ∧
        c'.contents = remainder inboundWireMessageSize (stream ++ bs) ∧
        c'.filled = (remainder inboundWireMessageSize (stream ++ bs)).length := by
  obtain ⟨hcontents', hfilled', hle⟩ := Connection.receive?_eq_some hreceive
  rw [hcontents] at hcontents'
  have hlength : (remainder inboundWireMessageSize stream ++ bs).length = c'.filled := by
    rw [List.length_append, ← hfilled, hfilled']
  split_ifs with hfull
  · obtain ⟨hblocks, hremainder⟩ := append_of_eq (by decide) (hlength.trans hfull)
    rw [← hcontents', Connection.contents_of_full hfull] at hblocks
    exact ⟨hblocks, hremainder⟩
  · have hlt : (remainder inboundWireMessageSize stream ++ bs).length < inboundWireMessageSize := by
      rw [hlength]
      exact lt_of_le_of_ne hle hfull
    obtain ⟨hblocks, hremainder⟩ := append_of_lt hlt
    rw [hremainder]
    exact ⟨hblocks, hcontents', hlength.symm⟩

/-- Bytes are received: they complete a block, which is then in hand, or they do not. -/
lemma receive (h : FramedAt g s fd) (hnone : g.due fd = []) {c c' : Connection}
    (hc : g.connections fd = some c) {bs : List UInt8} (hreceive : c.receive? bs = some c')
    (hconnections : g'.connections fd = some c')
    (hdue : g'.due fd = if c'.filled = inboundWireMessageSize then
      [decodeInboundMessage c'.buffer] else []) :
    FramedAt g' (s.observe (.received fd bs)) fd := by
  obtain ⟨hcontents, hfilled⟩ := h.held c hc hnone
  have hcut := cut_receive hcontents hfilled hreceive
  have hstream : (s.observe (.received fd bs)).bytes ((s.observe (.received fd bs)).current fd) =
      s.bytes (s.current fd) ++ bs := s.bytes_received fd bs
  have hearlier : ∀ k, k ≠ s.generation fd →
      (s.observe (.received fd bs)).bytes (fd, k) = s.bytes (fd, k) := by
    intro k hk
    exact s.bytes_received_of_ne fun heq => hk (Prod.mk.inj heq).2
  refine ⟨?_, ?_, ?_, ?_, ?_, fun _ => ⟨c', hconnections⟩⟩
  · intro k hk
    rw [hearlier k (ne_of_gt hk)]
    exact h.fresh k hk
  · intro k hk
    rw [hearlier k hk]
    exact h.earlier k hk
  · have hdecoded := h.decoded
    rw [hnone, List.append_nil] at hdecoded
    rw [hstream, hdue]
    split_ifs at hcut ⊢ with hfull
    · rw [hcut.1, List.map_append]
      exact congrArg (· ++ _) hdecoded
    · rw [hcut.1, List.append_nil]
      exact hdecoded
  · intro c'' hc'' hnone'
    rw [hconnections] at hc''
    obtain rfl := Option.some.inj hc''
    rw [hdue] at hnone'
    rw [hstream]
    split_ifs at hcut hnone' with hfull
    exact hcut.2
  · intro hsome
    rw [hdue] at hsome
    rw [hstream]
    split_ifs at hcut hsome with hfull
    · exact hcut.2
    · exact absurd rfl hsome

/-- A command is pushed: no block is in hand any more. -/
lemma push (h : FramedAt g s fd) {cmd : InboundCommand} (hsome : g.due fd = [some cmd])
    {c : Connection} (hconnections : g'.connections fd = some c.reset) (hdue : g'.due fd = []) :
    FramedAt g' (s.observe (.pushed fd cmd)) fd := by
  have hwhole : remainder inboundWireMessageSize (s.bytes (s.current fd)) = [] := by
    apply h.whole
    rw [hsome]
    exact List.cons_ne_nil _ _
  have hearlier : ∀ k, k ≠ s.generation fd →
      (s.observe (.pushed fd cmd)).commands (fd, k) = s.commands (fd, k) := by
    intro k hk
    have hne : s.current fd ≠ (fd, k) := fun heq => hk (Prod.mk.inj heq).2.symm
    rw [Sessions.commands_pushed, if_neg hne, List.append_nil]
  refine ⟨?_, ?_, ?_, ?_, fun hsome' => absurd hdue hsome', fun _ => ⟨_, hconnections⟩⟩
  · intro k hk
    rw [hearlier k (ne_of_gt hk)]
    exact h.fresh k hk
  · intro k hk
    rw [hearlier k hk]
    exact h.earlier k hk
  · have hdecoded := h.decoded
    rw [hsome] at hdecoded
    change (blocks _ (s.bytes (s.current fd))).map _ =
      ((s.observe (.pushed fd cmd)).commands (s.current fd)).map some ++ _
    rw [hdue, List.append_nil, Sessions.commands_pushed, if_pos rfl, List.map_append]
    exact hdecoded
  · intro c' hc' _
    rw [hconnections] at hc'
    obtain rfl := Option.some.inj hc'
    change _ = remainder _ (s.bytes (s.current fd)) ∧
      _ = (remainder _ (s.bytes (s.current fd))).length
    rw [hwhole]
    exact ⟨rfl, rfl⟩

end FramedAt

/-! ## Runs -/

namespace Gateway

variable {g : Gateway} {s : Sessions}

/-- The thread leaves an iteration of `ReadFrom` without a block in hand. -/
lemma due_next {fd : ℤ} {drained : Bool} (hcontrol : g.control = .next fd drained) (fd' : ℤ) :
    g.due fd' = [] := by
  unfold due
  rw [hcontrol]
  cases drained <;> rfl

lemma eq_of_busy_next {fd fd' : ℤ} {drained : Bool} (hcontrol : g.control = .next fd drained)
    (hbusy : g.Busy fd') : fd' = fd := by
  unfold Busy at hbusy
  rw [hcontrol] at hbusy
  cases drained with
  | true => exact hbusy.elim
  | false => exact Eq.symm hbusy

/-- A full buffer is in hand, decoded. -/
lemma due_afterReceive {fd : ℤ} {c : Connection} {drained : Bool}
    (hcontrol : g.control = .afterReceive fd c drained) :
    g.due fd =
      if c.filled = inboundWireMessageSize then [decodeInboundMessage c.buffer] else [] := by
  unfold Control.afterReceive at hcontrol
  split_ifs at hcontrol ⊢ with hfull
  · unfold due
    rw [hcontrol]
    cases decodeInboundMessage c.buffer <;> exact if_pos rfl
  · exact due_next hcontrol fd

lemma due_afterReceive_of_ne {fd fd' : ℤ} {c : Connection} {drained : Bool}
    (hcontrol : g.control = .afterReceive fd c drained) (hne : fd' ≠ fd) : g.due fd' = [] := by
  unfold Control.afterReceive at hcontrol
  split_ifs at hcontrol with hfull
  · unfold due
    rw [hcontrol]
    cases decodeInboundMessage c.buffer <;> exact if_neg hne.symm
  · exact due_next hcontrol fd'

lemma eq_of_busy_afterReceive {fd fd' : ℤ} {c : Connection} {drained : Bool}
    (hcontrol : g.control = .afterReceive fd c drained) (hbusy : g.Busy fd') : fd' = fd := by
  unfold Control.afterReceive at hcontrol
  split_ifs at hcontrol with hfull
  · unfold Busy at hbusy
    rw [hcontrol] at hbusy
    cases hdecode : decodeInboundMessage c.buffer with
    | some cmd =>
      rw [hdecode] at hbusy
      exact Eq.symm hbusy
    | none =>
      rw [hdecode] at hbusy
      exact hbusy.elim
  · exact eq_of_busy_next hcontrol hbusy

/-- Where the thread stands, no block is in hand. -/
lemma due_of_waiting (hwaiting : g.control = .waiting) (fd : ℤ) : g.due fd = [] := by
  unfold due
  rw [hwaiting]

lemma due_of_reading {fd : ℤ} (hreading : g.control = .reading fd) (fd' : ℤ) : g.due fd' = [] := by
  unfold due
  rw [hreading]

/-- What `read` returns keeps the invariant. -/
lemma framed_onRead (h : Framed g s) {fd : ℤ} (hreading : g.control = .reading fd) {c : Connection}
    (hc : g.connections fd = some c) (result : ReadResult) :
    Framed (g.onRead fd c result).1 ((g.onRead fd c result).2.foldl Sessions.observe s) := by
  have hdue := due_of_reading hreading
  have hclose : Framed { g.closeConnection fd with control := .waiting } s := by
    intro fd'
    refine (h fd').move (hdue fd').symm ?_ False.elim
    intro c' hc'
    change Function.update g.connections fd none fd' = some c' at hc'
    rw [Function.update_apply] at hc'
    split_ifs at hc'
    exact hc'
  cases result with
  | wouldBlock =>
    intro fd'
    exact (h fd').move (hdue fd').symm (fun _ hc' => hc') False.elim
  | endOfStream => exact hclose
  | failed => exact hclose
  | data bs =>
    cases hreceive : c.receive? bs with
    | none =>
      simp only [onRead, hreceive]
      exact h
    | some c' =>
      simp only [onRead, hreceive]
      intro fd'
      by_cases hfd : fd' = fd
      · subst hfd
        apply (h fd').receive (hdue fd') hc hreceive
        · exact Function.update_self ..
        · exact due_afterReceive rfl
      · apply (h fd').other
        · exact Function.update_of_ne hfd ..
        · exact (due_afterReceive_of_ne rfl hfd).trans (hdue fd').symm
        · exact fun hbusy => hfd (eq_of_busy_afterReceive rfl hbusy)
        · rfl
        · intro k
          exact s.bytes_received_of_ne fun heq => hfd (Prod.mk.inj heq).1
        · intro k
          rfl

/-- An accepted connection keeps the invariant. -/
lemma framed_accept (h : Framed g s) (hwaiting : g.control = .waiting) (fd : ℤ) :
    Framed (g.acceptConnection fd) (s.observe (.accepted fd)) := by
  intro fd'
  have hbusy : ¬ g.Busy fd' := by
    unfold Busy
    rw [hwaiting]
    exact id
  by_cases hfd : fd' = fd
  · subst hfd
    exact (h fd').accept (due_of_waiting hwaiting fd') hbusy
  · apply (h fd').other
    · exact Function.update_of_ne hfd ..
    · rfl
    · exact hbusy
    · exact Function.update_of_ne hfd ..
    · intro k
      rfl
    · intro k
      rfl

/-- A pushed command keeps the invariant. -/
lemma framed_push (h : Framed g s) {fd : ℤ} {cmd : InboundCommand} {drained : Bool}
    (hdispatching : g.control = .dispatching fd cmd drained) (c : Connection) :
    Framed { g.setConnection fd c.reset with control := .next fd drained }
      (s.observe (.pushed fd cmd)) := by
  have hdue : ∀ fd', g.due fd' = if fd = fd' then [some cmd] else [] := by
    intro fd'
    unfold due
    rw [hdispatching]
  intro fd'
  by_cases hfd : fd' = fd
  · subst hfd
    apply (h fd').push
    · rw [hdue, if_pos rfl]
    · exact Function.update_self ..
    · exact due_next rfl fd'
  · apply (h fd').other
    · exact Function.update_of_ne hfd ..
    · rw [hdue, if_neg (Ne.symm hfd)]
      exact due_next rfl fd'
    · exact fun hbusy => hfd (eq_of_busy_next rfl hbusy)
    · rfl
    · intro k
      rfl
    · intro k
      have hne : s.current fd ≠ (fd', k) := fun heq => hfd (Prod.mk.inj heq).1.symm
      rw [Sessions.commands_pushed, if_neg hne, List.append_nil]

/-- A step of the thread keeps the invariant. -/
lemma framed_step (h : Framed g s) (input : GatewayInput) :
    Framed (g.step input).1 ((g.step input).2.foldl Sessions.observe s) := by
  unfold step
  split
  · case _ fd hcontrol => exact framed_accept h hcontrol fd
  · case _ fd hcontrol =>
    cases hc : g.connections fd with
    | none => exact h
    | some c =>
      intro fd'
      refine (h fd').move (due_of_waiting hcontrol fd').symm (fun _ hc' => hc') ?_
      rintro rfl
      exact ⟨c, hc⟩
  · case _ hcontrol =>
    intro fd'
    exact (h fd').move (due_of_waiting hcontrol fd').symm (fun _ hc' => nomatch hc') False.elim
  · case _ fd result hcontrol =>
    cases hc : g.connections fd with
    | none => exact h
    | some c => exact framed_onRead h hcontrol hc result
  · case _ fd cmd drained hcontrol =>
    cases hc : g.connections fd with
    | none => exact h
    | some c => exact framed_push h hcontrol c
  · exact h

/-- The invariant holds after any inputs. -/
theorem framed_after (inputs : List GatewayInput) :
    Framed (after inputs) (Sessions.ofCalls (calls inputs)) := by
  induction inputs using List.reverseRecOn with
  | nil => exact framed_initial
  | append_singleton inputs input ih =>
    unfold after calls Sessions.ofCalls at ih ⊢
    rw [Mealy.run_concat_fst, Mealy.run_concat_snd, List.foldl_append]
    exact framed_step ih input

/-! ## Chunks do not matter -/

/-- The command that waits for room on the queue. -/
def pending (g : Gateway) (fd : ℤ) : List InboundCommand :=
  match g.control with
  | .dispatching fd' cmd _ => if fd' = fd then [cmd] else []
  | _ => []

/-- Unless decoding has thrown, a block in hand is a command that waits. -/
lemma due_eq_pending (h : ∀ fd, g.control ≠ .thrown fd) (fd : ℤ) :
    g.due fd = (g.pending fd).map some := by
  unfold due pending
  cases hcontrol : g.control with
  | waiting => rfl
  | reading fd' => rfl
  | stopped => rfl
  | thrown fd' => exact absurd hcontrol (h fd')
  | dispatching fd' cmd drained =>
    change (if fd' = fd then [some cmd] else []) = (if fd' = fd then [cmd] else []).map some
    split_ifs <;> rfl

lemma pending_of_idle (h : ∀ fd cmd drained, g.control ≠ .dispatching fd cmd drained) (fd : ℤ) :
    g.pending fd = [] := by
  unfold pending
  split
  · case _ fd' cmd drained hcontrol => exact absurd hcontrol (h fd' cmd drained)
  · rfl

/-- Decoding throws only on a complete block of some session. -/
lemma exists_block_of_thrown (h : Framed g s) {fd : ℤ} (hthrown : g.control = .thrown fd) :
    ∃ block ∈ blocks inboundWireMessageSize (s.bytes (s.current fd)),
      decodeInboundMessage block = none := by
  have hdue : g.due fd = [none] := by
    unfold due
    rw [hthrown]
    exact if_pos rfl
  have hmem : none ∈ (blocks inboundWireMessageSize (s.bytes (s.current fd))).map
      decodeInboundMessage := by
    rw [(h fd).decoded, hdue]
    exact List.mem_append_right _ (List.mem_singleton_self _)
  obtain ⟨block, hblock, hnone⟩ := List.mem_map.mp hmem
  exact ⟨block, hblock, hnone⟩

/-- A thread that calls `read` has room in its buffer. -/
lemma filled_lt_of_reading (h : Framed g s) {fd : ℤ} (hreading : g.control = .reading fd) :
    ∃ c, g.connections fd = some c ∧ c.filled < inboundWireMessageSize := by
  have hbusy : g.Busy fd := by
    unfold Busy
    rw [hreading]
  obtain ⟨c, hc⟩ := (h fd).open_of_busy hbusy
  obtain ⟨-, hfilled⟩ := (h fd).held c hc (due_of_reading hreading fd)
  refine ⟨c, hc, ?_⟩
  rw [hfilled]
  exact length_remainder_lt (by decide) _

/-- Framing does not depend on how bytes arrive: in whatever chunks they are read, with whatever
calls for other connections in between, and with descriptors that are closed and used again.

A thread that calls `read` has room in its buffer.  The queue is made of the commands of the
sessions.  And if every complete block of every session can be decoded, then decoding has not
thrown, and the commands of each session, with the one that waits for room on the queue, are its
decoded blocks in order; the bytes behind the last complete block have led to nothing. -/
theorem framing_ignores_chunks (inputs : List GatewayInput) :
    (∀ fd, (after inputs).control = .reading fd →
      ∃ c, (after inputs).connections fd = some c ∧ c.filled < inboundWireMessageSize) ∧
    (Sessions.ofCalls (calls inputs)).queue.map Prod.snd = pushedCommands (calls inputs) ∧
    ((∀ session, ∀ block ∈
        blocks inboundWireMessageSize ((Sessions.ofCalls (calls inputs)).bytes session),
        decodeInboundMessage block ≠ none) →
      (∀ fd, (after inputs).control ≠ .thrown fd) ∧
      (∀ fd k, (blocks inboundWireMessageSize
            ((Sessions.ofCalls (calls inputs)).bytes (fd, k))).map decodeInboundMessage =
          ((Sessions.ofCalls (calls inputs)).commands (fd, k) ++
            if k = (Sessions.ofCalls (calls inputs)).generation fd then (after inputs).pending fd
            else []).map some) ∧
      ((∀ fd cmd drained, (after inputs).control ≠ .dispatching fd cmd drained) →
        ∀ session, (blocks inboundWireMessageSize
            ((Sessions.ofCalls (calls inputs)).bytes session)).map decodeInboundMessage =
          ((Sessions.ofCalls (calls inputs)).commands session).map some)) := by
  have hframed := framed_after inputs
  refine ⟨?_, queue_ofCalls _, ?_⟩
  · intro fd hreading
    exact filled_lt_of_reading hframed hreading
  · intro hdecodes
    have hthrown : ∀ fd, (after inputs).control ≠ .thrown fd := by
      intro fd hthrown
      obtain ⟨block, hblock, hnone⟩ := exists_block_of_thrown hframed hthrown
      exact hdecodes _ block hblock hnone
    refine ⟨hthrown, ?_, ?_⟩
    · intro fd k
      by_cases hk : k = (Sessions.ofCalls (calls inputs)).generation fd
      · rw [if_pos hk, List.map_append, ← due_eq_pending hthrown, hk]
        exact (hframed fd).decoded
      · rw [if_neg hk, List.append_nil]
        exact (hframed fd).earlier k hk
    · intro hidle session
      obtain ⟨fd, k⟩ := session
      refine (hframed fd).decoded_of_due ?_ k
      rw [due_eq_pending hthrown, pending_of_idle hidle]
      rfl

-- Three bytes are lost with their connection; the next one with this descriptor sends a cancel in
-- two chunks, and the queue is full at first.
example :
    (Sessions.ofCalls (calls
      [.accept 5, .readFrom 5, .read (.data [7, 7, 7]), .readFrom 5, .read .endOfStream,
        .accept 5, .readFrom 5, .read (.data (1 :: List.replicate 19 0)), .readFrom 5,
        .read (.data (List.replicate 30 0)), .push false, .push true])).queue =
      [((5, 2), .cancel ⟨0, 0, ⟨[], by decide⟩⟩)] := by
  decide +kernel

end Gateway

end ToyExchange
