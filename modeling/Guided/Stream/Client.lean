import Guided.Stream.Frame

/-!
# Many streams over one connection

A client opens streams, and a dispatcher hands each event that comes in to the stream it
names. A stream buffers a limited number of events. One whose consumer falls further
behind is closed, so that it does not hold up the others. A closed stream still gives
out what it has buffered.

Opening a stream has three separate steps: an id is given out, the stream is entered, and
the request is sent. The dispatcher hands out one event at a time. All of these steps can
take turns with each other and with what consumers do.

## Main definitions

* `Stream`, `Client`.
* `Client.allocate`, `Client.register`, `Client.send`: the steps of opening a stream.
* `Client.arrive`, `Client.handOut`: a frame comes in, the dispatcher makes one step.
* `Client.receive`, `Client.dropReceiver`: the consumer's side.
* `Client.closeInbound`, `Client.closeOutbound`: the end of the connection.
-/
namespace Guided

/-- How many events a stream buffers. -/
def streamCapacity : Nat := 256

/-- A stream: the events that its consumer has not taken yet, whether further events are
routed to it, and whether its consumer is still there. -/
structure Stream where
  id : Nat
  buffer : List TokenEvent
  routed : Bool
  listening : Bool
deriving DecidableEq, Repr

namespace Stream

/-- A stream that has just been entered. -/
def fresh (id : Nat) : Stream := ⟨id, [], true, true⟩

/-- Whether one more event can be handed to the consumer. -/
def hasRoom (s : Stream) : Bool := s.listening && s.buffer.length < streamCapacity

/-- Hand an event to a stream. The last event of a stream ends the routing to it, and so
does an event that there is no room for. -/
def deliver (s : Stream) (e : TokenEvent) : Stream :=
  { s with
    buffer := if s.hasRoom then s.buffer ++ [e] else s.buffer
    routed := !e.isTerminal && s.hasRoom }

/-- The stream when no further events are routed to it. -/
def close (s : Stream) : Stream := { s with routed := false }

/-- The stream when its consumer goes away, and with it what is buffered. -/
def drop (s : Stream) : Stream := { s with buffer := [], listening := false }

end Stream

/-- The client's side of a connection. Events that have come in wait for the dispatcher,
which ends when nothing more can come in. The next id is a number without a bound. A counter of
64 bits starts again at zero behind its largest number; it gives out the same ids as long as that
does not happen, and what happens to a stream whose id is given out again is left out here. -/
structure Client where
  model : String
  nextId : Nat
  streams : List Stream
  incoming : List TokenEvent
  inboundOpen : Bool
  dispatching : Bool
  outboundOpen : Bool
deriving DecidableEq, Repr

namespace Client

/-- A client on a new connection. -/
def connect (model : String) : Client := ⟨model, 1, [], [], true, true, true⟩

/-- The number of streams to which events are routed. -/
def activeStreams (c : Client) : Nat := (c.streams.filter (·.routed)).length

/-- The stream with a given id. -/
def stream? (c : Client) (id : Nat) : Option Stream := c.streams.find? (·.id == id)

/-- Change the stream with a given id. -/
def update (c : Client) (id : Nat) (f : Stream → Stream) : Client :=
  { c with streams := c.streams.map fun s => if s.id = id then f s else s }

/-! ## Opening streams -/

/-- Give out the id of a new stream. -/
def allocate (c : Client) : Nat × Client := (c.nextId, { c with nextId := c.nextId + 1 })

/-- Enter a stream, so that no answer to its request can come in unrouted. -/
def register (c : Client) (id : Nat) : Client :=
  { c with streams := c.streams ++ [Stream.fresh id] }

/-- Send the request of a stream. If it cannot be sent nobody gets to see the stream. -/
def send (c : Client) (id : Nat) (request : String) : Except Error (Nat × String) × Client :=
  if c.outboundOpen then (.ok (id, request), c)
  else (.error (.transport .closed), c.update id fun s => s.close.drop)

/-- Open a stream by sending a request that carries its id. The id is used up in any
case. -/
def openStream (c : Client) (request : Nat → String) : Except Error (Nat × String) × Client :=
  let (id, c) := c.allocate
  (c.register id).send id (request id)

/-- Ask for a completion on a new stream. -/
def generate (c : Client) (prompt : Prompt) (params : GenerationParams) :
    Except Error (Nat × String) × Client :=
  c.openStream fun id => Frame.generate c.model id prompt params

/-- Ask for scores on a new stream. -/
def score (c : Client) (prompt scored : Prompt) (params : GenerationParams) :
    Except Error (Nat × String) × Client :=
  c.openStream fun id => Frame.score c.model id prompt scored params

/-! ## What comes in -/

/-- The events of a frame. Frames that are malformed, that have another command or whose
payload is not a list of events carry none. -/
def eventsOf (frame : String) : List TokenEvent :=
  match Frame.split frame with
  | .error _ => []
  | .ok (command, payload) =>
      if command = Frame.tokenCommand then (Frame.decodeTokens payload).toOption.getD [] else []

/-- A frame comes in, as long as anything can. -/
def arrive (c : Client) (frame : String) : Client :=
  if c.inboundOpen then { c with incoming := c.incoming ++ eventsOf frame } else c

/-- Hand an event to its stream, if events are still routed to it. -/
def deliver (c : Client) (e : TokenEvent) : Client :=
  c.update e.streamId fun s => if s.routed then s.deliver e else s

/-- The dispatcher ends, and with it the routing to all streams that are entered now. -/
def endDispatch (c : Client) : Client :=
  { c with dispatching := false, streams := c.streams.map Stream.close }

/-- One step of the dispatcher: hand out the next event, or end if none can follow. -/
def handOut (c : Client) : Client :=
  match c.incoming with
  | e :: rest => { c with incoming := rest }.deliver e
  | [] => if c.inboundOpen || !c.dispatching then c else c.endDispatch

/-- As many steps of the dispatcher. -/
def handOutMany (c : Client) : Nat → Client
  | 0 => c
  | steps + 1 => c.handOut.handOutMany steps

/-- The dispatcher does all it can do now. -/
def catchUp (c : Client) : Client := c.handOutMany (c.incoming.length + 1)

/-- The end of what comes in. -/
def closeInbound (c : Client) : Client := { c with inboundOpen := false }

/-- The end of what can be sent. -/
def closeOutbound (c : Client) : Client := { c with outboundOpen := false }

/-! ## Consumers -/

/-- The consumer of a stream takes up to `limit` events, or all there are. -/
def receive (c : Client) (id : Nat) (limit : Option Nat) : List TokenEvent × Client :=
  match c.stream? id with
  | none => ([], c)
  | some s =>
      let count := limit.getD s.buffer.length
      (s.buffer.take count, c.update id fun s => { s with buffer := s.buffer.drop count })

/-- Whether the consumer of a stream sees its end: nothing is buffered and nothing will
come. -/
def atEnd (c : Client) (id : Nat) : Bool :=
  match c.stream? id with
  | none => true
  | some s => s.buffer.isEmpty && !s.routed

/-- The consumer of a stream goes away. -/
def dropReceiver (c : Client) (id : Nat) : Client := c.update id Stream.drop

end Client

end Guided
