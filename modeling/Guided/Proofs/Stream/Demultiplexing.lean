import Guided.Proofs.Stream.Connection
import Guided.Proofs.Stream.Frames

/-!
# Events reach their stream

Whatever opens, comes in, is taken and goes away at a connection, and in whatever order: what the
consumer of a stream has got and what is buffered for it are the first events with the stream's id
that were handed out since the stream was entered, up to the one that finishes it. As long as the
connection stands, none of them is missing unless the consumer left or fell behind.

## Main definitions

* `upToLast`: events up to the first one that is the last of its stream.
* `Connection.Overruns`, `Connection.Meets`: a step at which a full buffer meets a further event.

## Main statements

* `Connection.prefix_run`: what a consumer gets is a beginning of what was offered.
* `Connection.whole_run`: it is all of it, if nothing stands in the way.
-/
namespace Guided

/-- Events up to the first one that is the last of its stream, that one included. -/
def upToLast : List TokenEvent → List TokenEvent
  | [] => []
  | e :: rest => e :: if e.isTerminal then [] else upToLast rest

namespace Stream

variable {s : Stream}

theorem deliver_of_hasRoom (h : s.hasRoom = true) (e : TokenEvent) :
    s.deliver e = { s with buffer := s.buffer ++ [e], routed := !e.isTerminal } := by
  simp [deliver, h]

theorem deliver_of_full (h : s.hasRoom = false) (e : TokenEvent) : s.deliver e = s.close := by
  simp [deliver, h, close]

/-- Why there is no room: the consumer has left, or the buffer is full. -/
theorem length_of_full (hbound : s.buffer.length ≤ streamCapacity) (hlistening : s.listening = true)
    (h : s.hasRoom = false) : s.buffer.length = streamCapacity := by
  simp only [hasRoom, hlistening, Bool.true_and, decide_eq_false_iff_not] at h
  omega

end Stream

namespace Connection

variable {x : Connection} {id : Nat} {s : Stream}

/-! ## Beginnings -/

/-- Nobody takes anything from a stream whose consumer has left. -/
theorem gone_run (h : x.client.stream? id = some s) (hgone : s.listening = false)
    (hempty : s.buffer = []) (actions : List Action) :
    along (taken id) x actions = [] ∧
      ∃ t, (x.run actions).client.stream? id = some t ∧ t.buffer = [] := by
  induction actions generalizing x s with
  | nil => exact ⟨rfl, s, h, hempty⟩
  | cons a rest ih =>
      obtain ⟨t, ht, hmoves⟩ := exists_moves h a
      rw [along_cons, run_cons]
      generalize offered id x a = got, taken id x a = took at hmoves ⊢
      have hstep : took = [] ∧ t.listening = false ∧ t.buffer = [] := by
        cases hmoves with
        | offer e =>
            by_cases hrouted : s.routed = true <;>
              simp [hrouted, Stream.deliver, Stream.hasRoom, hgone, hempty]
        | _ => simp [hgone, hempty, Stream.close, Stream.drop]
      obtain ⟨htook, hlistening, hbuffer⟩ := hstep
      rw [htook, List.nil_append]
      exact ih ht hlistening hbuffer

/-- **Only what is offered, in order.** What the consumer of a stream takes and what is buffered
for it afterwards is a beginning of what was buffered before and, if events are routed to the
stream, of what is offered to it. -/
theorem prefix_run (h : x.client.stream? id = some s) (actions : List Action) :
    ∃ t, (x.run actions).client.stream? id = some t ∧
      along (taken id) x actions ++ t.buffer <+:
        s.buffer ++ if s.routed then upToLast (along (offered id) x actions) else [] := by
  induction actions generalizing x s with
  | nil => exact ⟨s, h, by simp⟩
  | cons a rest ih =>
      obtain ⟨u, hu, hmoves⟩ := exists_moves h a
      rw [along_cons, along_cons, run_cons]
      generalize offered id x a = got, taken id x a = took at hmoves ⊢
      obtain ⟨t, ht, hrest⟩ := ih hu
      refine ⟨t, ht, ?_⟩
      cases hmoves with
      | stays => simpa using hrest
      | offer e =>
          cases hrouted : s.routed with
          | false => simpa [hrouted] using hrest
          | true =>
              cases hroom : s.hasRoom with
              | false =>
                  rw [if_pos hrouted, Stream.deliver_of_full hroom] at hrest
                  exact (List.prefix_append_of_prefix (by simpa [Stream.close] using hrest))
              | true =>
                  rw [if_pos hrouted, Stream.deliver_of_hasRoom hroom] at hrest
                  cases hlast : e.isTerminal <;> simpa [upToLast, hlast] using hrest
      | take limit count =>
          have hall := (List.prefix_append_right_inj (s.buffer.take count)).2 hrest
          simpa [← List.append_assoc] using hall
      | close =>
          exact (List.prefix_append_of_prefix (by simpa [Stream.close] using hrest))
      | leave | refuse =>
          obtain ⟨hnone, t', ht', hempty⟩ := gone_run hu rfl rfl rest
          obtain rfl := Option.some.inj (ht.symm.trans ht')
          simp [hnone, hempty]

/-! ## Nothing missing -/

/-- A further event comes for a stream whose buffer is full. -/
def Overruns (id : Nat) (x : Connection) (a : Action) : Prop :=
  offered id x a ≠ [] ∧
    ∃ s ∈ x.client.stream? id, s.routed = true ∧ s.buffer.length = streamCapacity

instance (id : Nat) (x : Connection) : DecidablePred (Overruns id x) :=
  fun _ => inferInstanceAs (Decidable (_ ∧ _))

/-- Some step of a run is of a certain kind. -/
def Meets (p : Connection → Action → Prop) : Connection → List Action → Prop
  | _, [] => False
  | x, a :: rest => p x a ∨ Meets p (x.act a) rest

instance decidableMeets (p : Connection → Action → Prop) [∀ x, DecidablePred (p x)] :
    ∀ x actions, Decidable (Meets p x actions)
  | _, [] => isFalse fun h => h
  | x, a :: rest =>
      have := decidableMeets p (x.act a) rest
      inferInstanceAs (Decidable (p x a ∨ Meets p (x.act a) rest))

/-- Nothing stands between a stream and its events: to the end of a run the dispatcher works and
requests can be sent, no event meets a full buffer, and the consumer stays. -/
structure Undisturbed (id : Nat) (x : Connection) (actions : List Action) : Prop where
  dispatching : (x.run actions).client.dispatching = true
  sending : (x.run actions).client.outboundOpen = true
  room : ¬ Meets (Overruns id) x actions
  stays : .dropReceiver id ∉ actions

theorem Undisturbed.tail {a : Action} {rest : List Action} (h : Undisturbed id x (a :: rest)) :
    Undisturbed id (x.act a) rest :=
  ⟨h.dispatching, h.sending, fun hmeets => h.room (.inr hmeets),
    fun hmem => h.stays (List.mem_cons_of_mem _ hmem)⟩

/-- An undisturbed stream has room for what is offered to it. -/
theorem Undisturbed.hasRoom {a : Action} {rest : List Action} (h : Undisturbed id x (a :: rest))
    (hs : x.client.stream? id = some s) (hbound : s.buffer.length ≤ streamCapacity)
    (hlistening : s.listening = true) (hrouted : s.routed = true)
    (hoffered : offered id x a ≠ []) : s.hasRoom = true := by
  by_contra hfull
  exact h.room (.inl ⟨hoffered, s, hs, hrouted,
    Stream.length_of_full hbound hlistening (by simpa using hfull)⟩)

/-- **All that is offered.** To an undisturbed stream nothing that is offered is missing, and
events are routed to it until one has been offered that is its last. -/
theorem whole_run (h : x.client.stream? id = some s) (hbound : s.buffer.length ≤ streamCapacity)
    (hlistening : s.listening = true) {actions : List Action} (hfree : Undisturbed id x actions) :
    ∃ t, (x.run actions).client.stream? id = some t ∧
      along (taken id) x actions ++ t.buffer =
        s.buffer ++ (if s.routed then upToLast (along (offered id) x actions) else []) ∧
      t.routed = (s.routed && (along (offered id) x actions).all (!·.isTerminal)) := by
  induction actions generalizing x s with
  | nil => exact ⟨s, h, by simp [upToLast], by simp⟩
  | cons a rest ih =>
      obtain ⟨u, hu, hmoves⟩ := exists_moves h a
      have hfits := hfree.hasRoom h hbound hlistening
      have hrest := fun hbound hlistening => ih (s := u) hu hbound hlistening hfree.tail
      rw [along_cons, along_cons, run_cons]
      generalize offered id x a = got, taken id x a = took at hmoves hfits ⊢
      cases hmoves with
      | stays => simpa using hrest hbound hlistening
      | offer e =>
          cases hrouted : s.routed with
          | false =>
              simp only [hrouted] at hrest
              simpa [hrouted] using hrest hbound hlistening
          | true =>
              have hspace := hfits hrouted (by simp)
              have hlength : s.buffer.length < streamCapacity := by
                simpa [Stream.hasRoom, hlistening] using hspace
              rw [if_pos hrouted, Stream.deliver_of_hasRoom hspace] at hrest
              obtain ⟨t, ht, hall, hactive⟩ := hrest (by simpa using Nat.succ_le_of_lt hlength)
                hlistening
              refine ⟨t, ht, ?_, ?_⟩ <;> cases hlast : e.isTerminal
              · simpa [upToLast, hlast] using hall
              · simpa [upToLast, hlast] using hall
              · simpa [hlast] using hactive
              · simpa [hlast] using hactive
      | take limit count =>
          obtain ⟨t, ht, hall, hactive⟩ := hrest
            (by rw [List.length_drop]; exact Nat.le_trans (Nat.sub_le _ _) hbound) hlistening
          refine ⟨t, ht, ?_, hactive⟩
          rw [List.append_assoc, hall, ← List.append_assoc, List.take_append_drop]
          rfl
      | leave => exact absurd List.mem_cons_self hfree.stays
      | refuse request hclosed =>
          have hsending := hfree.sending
          rw [run_cons, outboundOpen_run (outboundOpen_act hclosed _)] at hsending
          exact absurd hsending Bool.false_ne_true
      | close hended =>
          have hdispatching := hfree.dispatching
          rw [run_cons, dispatching_run hended] at hdispatching
          exact absurd hdispatching Bool.false_ne_true

/-! ## What comes in -/

/-- The events that come in. -/
def arrived (x : Connection) : Action → List TokenEvent
  | .arrive frame => if x.client.inboundOpen then Client.eventsOf frame else []
  | _ => []

theorem handed_act (x : Connection) (a : Action) :
    x.handed a ++ (x.act a).client.incoming = x.client.incoming ++ arrived x a := by
  cases a with
  | allocate | closeInbound | closeOutbound | dropReceiver => exact (List.append_nil _).symm
  | register | send | receive =>
      simp only [act, Client.send, Client.receive, handed, arrived, List.append_nil]
      repeat' split
      all_goals rfl
  | arrive frame =>
      simp only [act, Client.arrive, handed, arrived, List.nil_append]
      split
      · rfl
      · exact (List.append_nil _).symm
  | handOut =>
      simp only [act, Client.handOut, handed, arrived, List.append_nil]
      cases hin : x.client.incoming with
      | cons e rest => rfl
      | nil =>
          simp only [List.head?_nil, Option.toList_none, List.nil_append]
          split
          · exact hin
          · exact hin

/-- The dispatcher hands out what comes in, in that order. -/
theorem handed_run (x : Connection) (actions : List Action) :
    along handed x actions ++ (x.run actions).client.incoming =
      x.client.incoming ++ along arrived x actions := by
  induction actions generalizing x with
  | nil => simp
  | cons a rest ih =>
      rw [along_cons, along_cons, run_cons, List.append_assoc, ih, ← List.append_assoc, handed_act,
        List.append_assoc]

/-- A frame that the dispatcher skips. -/
inductive Skipped (frame : String) : Prop
  | malformed (e : Error) (h : Frame.split frame = .error e)
  | unknown (command payload : String) (h : Frame.split frame = .ok (command, payload))
      (hcommand : command ≠ Frame.tokenCommand)
  | undecodable (command payload : String) (e : Error)
      (h : Frame.split frame = .ok (command, payload))
      (hdecode : Frame.decodeTokens payload = .error e)

/-- A skipped frame changes nothing. -/
theorem arrive_of_skipped {frame : String} (h : Skipped frame) (x : Connection) :
    x.act (.arrive frame) = x := by
  have hnone : Client.eventsOf frame = [] := by
    cases h with
    | malformed e h => simp [Client.eventsOf, h]
    | unknown command payload h hcommand => simp [Client.eventsOf, h, hcommand]
    | undecodable command payload e h hdecode => simp [Client.eventsOf, h, hdecode, Except.toOption]
  simp [act, Client.arrive, hnone]

/-! ## Demultiplexing -/

/-- Without closing either side, the dispatcher goes on and requests can be sent. -/
theorem standing (model : String) (actions : List Action) (hin : .closeInbound ∉ actions)
    (hout : .closeOutbound ∉ actions) :
    ((start model).run actions).client.dispatching = true ∧
      ((start model).run actions).client.outboundOpen = true := by
  refine ⟨?_, outboundOpen_run_of_not_mem hout⟩
  rw [← Bool.not_eq_false]
  intro hended
  have hclosed := ((sound_run model actions).ended hended).1
  rw [inboundOpen_run hin] at hclosed
  exact Bool.noConfusion hclosed

/-- **Demultiplexing.** Whatever happens at a connection, in whatever order: no id is given out
twice and no two streams have the same id; the dispatcher hands out the events that come in, in
their order; the events that come in with a frame are those that were written to it; and a frame
that is skipped changes nothing. A stream is entered under an id that was given out for it. What
its consumer takes afterwards and what is still buffered is a beginning of the events with its id
that are handed out afterwards, up to the one that finishes the stream. It is all of them, and
events are routed to the stream until the one that finishes it is handed out, as long as neither
side of the connection ends, no further event comes while the buffer is full, and the consumer
stays. -/
theorem demultiplexes (model : String) (before after : List Action) :
    (along allocated (start model) (before ++ after)).Nodup ∧
      ((start model).run (before ++ after)).ids.Nodup ∧
      along handed (start model) (before ++ after) ++
          ((start model).run (before ++ after)).client.incoming =
        along arrived (start model) (before ++ after) ∧
      (∀ batch, (∀ e ∈ batch, TokenEvent.Sendable e) →
        Client.eventsOf (Frame.tokens batch) = batch) ∧
      (∀ frame, Skipped frame →
        ((start model).run before).act (.arrive frame) = (start model).run before) ∧
      ∀ id ∈ ((start model).run before).reserved,
        let x := ((start model).run before).act (.register id)
        let events := (along handed x after).filter (·.streamId = id)
        ∃ s, (x.run after).client.stream? id = some s ∧
          along (taken id) x after ++ s.buffer <+: upToLast events ∧
          (.closeInbound ∉ before ++ after → .closeOutbound ∉ before ++ after →
            ¬ Meets (Overruns id) x after → .dropReceiver id ∉ after →
              along (taken id) x after ++ s.buffer = upToLast events ∧
                (s.routed = true ↔ ∀ e ∈ events, e.isTerminal = false)) := by
  refine ⟨?_, (List.nodup_append.1 (sound_run model _).ids).1, handed_run _ _,
    fun batch hbatch => Client.eventsOf_tokens hbatch,
    fun frame hframe => arrive_of_skipped hframe _, fun id hid => ?_⟩
  · rw [(along_allocated _ _).1]
    exact List.nodup_range'
  · intro x events
    have hfree : id ∉ ((start model).run before).ids := fun hmem =>
      (List.nodup_append.1 (sound_run model before).ids).2.2 id hmem id hid rfl
    have hentered : x.client.stream? id = some (.fresh id) := by
      simpa [x, act, hid] using Client.stream?_register_self hfree
    obtain ⟨s, hs, hprefix⟩ := prefix_run hentered after
    rw [along_offered] at hprefix
    refine ⟨s, hs, hprefix, fun hin hout hroom hstays => ?_⟩
    have hrun : x.run after = (start model).run (before ++ .register id :: after) := by
      rw [run_append, run_cons]
    have hstands := standing model (before ++ .register id :: after)
      (by simpa using hin) (by simpa using hout)
    rw [← hrun] at hstands
    obtain ⟨t, ht, hall, hrouted⟩ := whole_run hentered (Nat.zero_le _) rfl
      ⟨hstands.1, hstands.2, hroom, hstays⟩
    obtain rfl := Option.some.inj (hs.symm.trans ht)
    rw [along_offered] at hall hrouted
    refine ⟨hall, ?_⟩
    simp only [hrouted, Stream.fresh, Bool.true_and, List.all_eq_true, Bool.not_eq_true', events]

namespace Sample

/-- Events of two streams, the last one finishing the first stream. -/
def batch : List TokenEvent :=
  [⟨1, 7, some "a", some ⟨true, 0x3f000000⟩, none⟩, ⟨2, 8, none, none, none⟩,
    ⟨1, 9, none, none, some .stop⟩]

/-- A stream is opened, and events of two streams come in, the last one finishing it. -/
def mixed : List Action :=
  [.send 1 "", .arrive "TOKEN [[1,7],[2,8],[1,9,null,null,\"stop\"]]", .handOut, .receive 1 none,
    .handOut, .handOut]

end Sample

/-- A consumer gets the events of its stream, and a frame carries what was written to it. -/
theorem demultiplexes_mixed :
    Client.eventsOf (Frame.tokens Sample.batch) = Sample.batch ∧
      ∃ s, ((((start "m").run [.allocate]).act (.register 1)).run Sample.mixed).client.stream? 1 =
          some s ∧
        along (taken 1) (((start "m").run [.allocate]).act (.register 1)) Sample.mixed ++
            s.buffer = [⟨1, 7, none, none, none⟩, ⟨1, 9, none, none, some .stop⟩] ∧
        s.routed = false := by
  obtain ⟨-, -, -, hwritten, -, hstreams⟩ := demultiplexes "m" [.allocate] Sample.mixed
  refine ⟨hwritten Sample.batch fun e he => ?_, ?_⟩
  · simp only [Sample.batch, List.mem_cons, List.not_mem_nil, or_false] at he
    rcases he with rfl | rfl | rfl <;> exact ⟨by decide, by decide, by rintro x ⟨⟩ <;> decide⟩
  · obtain ⟨s, hs, -, hwhole⟩ := hstreams 1 (by decide)
    obtain ⟨hall, hrouted⟩ := hwhole (by decide) (by decide) (by decide +kernel) (by decide)
    refine ⟨s, hs, hall.trans (by decide +kernel), ?_⟩
    rw [← Bool.not_eq_true, hrouted]
    decide +kernel

end Connection

end Guided
