import ToyExchange.Net.Wire
import ToyExchange.Foundations.Mealy
import Mathlib.Logic.Function.Basic

/-!
# The gateway

One thread accepts connections and reads from them.  Each connection has a buffer of the size of one
message, which `read` fills from where the last `read` has stopped.  When it is full, the message is
decoded and its command pushed onto the queue of the matching engine, and the buffer is filled from
the start again.

The thread is a machine whose inputs are what its system calls return, in any order.  `Control` is
where the thread stands: only a thread that is `reading` calls `read`.  A result that the call at
this point cannot return leaves the machine as it is.  The outputs are the calls that have had an
effect, in order.
-/

namespace ToyExchange

open Bytes

/-! ## Connections -/

/-- The receive buffer of a connection and how many of its bytes are filled. -/
structure Connection where
  buffer : List UInt8
  filled : ℕ
  /-- The buffer is an array of the size of one message. -/
  length_buffer : buffer.length = inboundWireMessageSize

namespace Connection

/-- A new connection. -/
def empty : Connection where
  buffer := List.replicate inboundWireMessageSize 0
  filled := 0
  length_buffer := List.length_replicate

/-- How many bytes are asked for. -/
def remaining (c : Connection) : ℕ := inboundWireMessageSize - c.filled

/-- The filled bytes. -/
def contents (c : Connection) : List UInt8 := c.buffer.take c.filled

/-- The filled bytes and more stay within the buffer. -/
lemma filled_add_le {c : Connection} {bs : List UInt8}
    (h : bs ≠ [] ∧ bs.length ≤ c.remaining) : c.filled + bs.length ≤ c.buffer.length := by
  obtain ⟨hne, hle⟩ := h
  have hpos := List.length_pos_iff.mpr hne
  rw [c.length_buffer]
  unfold remaining at hle
  omega

/-- Put received bytes behind the filled ones.  There is at least one and there are at most as many
as were asked for. -/
def receive? (c : Connection) (bs : List UInt8) : Option Connection :=
  if h : bs ≠ [] ∧ bs.length ≤ c.remaining then
    some
      { buffer := store c.filled bs c.buffer
        filled := c.filled + bs.length
        length_buffer := (length_store (filled_add_le h)).trans c.length_buffer }
  else none

/-- The buffer is ready for the next message. -/
def reset (c : Connection) : Connection := { c with filled := 0 }

/-- What received bytes do to a connection. -/
lemma receive?_eq_some {c c' : Connection} {bs : List UInt8} (h : c.receive? bs = some c') :
    c'.contents = c.contents ++ bs ∧ c'.filled = c.filled + bs.length ∧
      c'.filled ≤ inboundWireMessageSize := by
  unfold receive? at h
  split_ifs at h with hbytes
  have hroom := filled_add_le hbytes
  obtain rfl := Option.some.inj h
  refine ⟨?_, rfl, ?_⟩
  · exact take_store (by omega)
  · exact hroom.trans_eq c.length_buffer

/-- A full buffer is all filled bytes. -/
lemma contents_of_full {c : Connection} (h : c.filled = inboundWireMessageSize) :
    c.contents = c.buffer := by
  unfold contents
  rw [h, ← c.length_buffer, List.take_length]

end Connection

/-! ## The thread -/

/-- Where the thread of the gateway stands. -/
inductive Control where
  /-- Between two descriptors that `epoll_wait` has returned, or in it. -/
  | waiting
  /-- In `ReadFrom`, about to call `read`. -/
  | reading (fd : ℤ)
  /-- In `Dispatch`, about to try to push the command; `drained` says whether `read` has returned
  less than it was asked for. -/
  | dispatching (fd : ℤ) (cmd : InboundCommand) (drained : Bool)
  /-- Decoding has thrown, which leaves `Run`. -/
  | thrown (fd : ℤ)
  /-- `Run` has returned. -/
  | stopped

/-- The end of an iteration of the loop in `ReadFrom`. -/
def Control.next (fd : ℤ) (drained : Bool) : Control := if drained then .waiting else .reading fd

/-- Received bytes have been put into the buffer: a full buffer is decoded. -/
def Control.afterReceive (fd : ℤ) (c : Connection) (drained : Bool) : Control :=
  if c.filled = inboundWireMessageSize then
    match decodeInboundMessage c.buffer with
    | some cmd => .dispatching fd cmd drained
    | none => .thrown fd
  else .next fd drained

/-- The gateway: its open connections by descriptor, and where its thread stands. -/
structure Gateway where
  connections : ℤ → Option Connection
  control : Control

/-- What `read` returns. -/
inductive ReadResult where
  | data (bytes : List UInt8)
  /-- `EAGAIN` or `EWOULDBLOCK`. -/
  | wouldBlock
  | endOfStream
  /-- Any other error. -/
  | failed

/-- What the thread gets from outside. -/
inductive GatewayInput where
  /-- `accept4` returns a descriptor. -/
  | accept (fd : ℤ)
  /-- `epoll_wait` has returned a descriptor to read from. -/
  | readFrom (fd : ℤ)
  | read (result : ReadResult)
  /-- The queue takes a command, or is full. -/
  | push (taken : Bool)
  /-- The loop of `Run` sees that it should stop. -/
  | stop

/-- A call of the thread that has had an effect. -/
inductive GatewayCall where
  | accepted (fd : ℤ)
  | received (fd : ℤ) (bytes : List UInt8)
  | pushed (fd : ℤ) (cmd : InboundCommand)

namespace Gateway

/-- No connections, about to wait for one. -/
def initial : Gateway := ⟨fun _ => none, .waiting⟩

/-- One iteration of the loop in `AcceptConnections`. -/
def acceptConnection (g : Gateway) (fd : ℤ) : Gateway :=
  { g with connections := Function.update g.connections fd (some .empty) }

/-- `CloseConnection`. -/
def closeConnection (g : Gateway) (fd : ℤ) : Gateway :=
  { g with connections := Function.update g.connections fd none }

/-- The buffer of a connection has changed. -/
def setConnection (g : Gateway) (fd : ℤ) (c : Connection) : Gateway :=
  { g with connections := Function.update g.connections fd (some c) }

/-- `read` has returned in the loop of `ReadFrom`. -/
def onRead (g : Gateway) (fd : ℤ) (c : Connection) : ReadResult → Gateway × List GatewayCall
  | .data bs =>
    match c.receive? bs with
    | none => (g, [])
    | some c' =>
      let drained := decide (bs.length < c.remaining)
      ({ g.setConnection fd c' with control := .afterReceive fd c' drained }, [.received fd bs])
  | .wouldBlock => ({ g with control := .waiting }, [])
  | .endOfStream => ({ g.closeConnection fd with control := .waiting }, [])
  | .failed => ({ g.closeConnection fd with control := .waiting }, [])

/-- One step of the thread. -/
def step (g : Gateway) (input : GatewayInput) : Gateway × List GatewayCall :=
  match g.control, input with
  | .waiting, .accept fd => (g.acceptConnection fd, [.accepted fd])
  | .waiting, .readFrom fd =>
    match g.connections fd with
    | none => (g, [])
    | some _ => ({ g with control := .reading fd }, [])
  | .waiting, .stop => (⟨fun _ => none, .stopped⟩, [])
  | .reading fd, .read result =>
    match g.connections fd with
    | none => (g, [])
    | some c => g.onRead fd c result
  | .dispatching fd cmd drained, .push true =>
    match g.connections fd with
    | none => (g, [])
    | some c => ({ g.setConnection fd c.reset with control := .next fd drained }, [.pushed fd cmd])
  | _, _ => (g, [])

/-- The gateway after some inputs. -/
def after (inputs : List GatewayInput) : Gateway := (Mealy.run step initial inputs).1

/-- The calls that the gateway has made. -/
def calls (inputs : List GatewayInput) : List GatewayCall := (Mealy.run step initial inputs).2

end Gateway

end ToyExchange
