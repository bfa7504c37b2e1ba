import Guided.Stream.Client
import Mathlib.Data.List.Induction
import Mathlib.Data.List.Nodup

/-!
# Steps at a connection

Everything that can happen at a connection, one step at a time and in any order: calls open
streams in three steps, frames come in, the dispatcher hands out events, consumers take events or
go away, and either side of the connection ends. What a whole call or a dispatcher that catches
up does is a run of such steps.

## Main definitions

* `Connection`, `Connection.Action`, `Connection.act`, `Connection.run`.
* `Connection.along`: what is observed along a run; `handed` and `taken` are the events handed out
  and those taken by one consumer.
* `Connection.Sound`: ids tell streams apart.
* `Stream.Moves`: what one step does to one stream.

## Main statements

* `Connection.exists_moves`: every step moves every stream in one of six ways.
* `Connection.sound_run`: ids are given out once.
* `Connection.run_openStream`, `Connection.run_handOutMany`: whole calls are runs.
-/
namespace Guided

/-! ## Looking a stream up -/

namespace Client

variable {c : Client} {id : Nat} {s : Stream}

theorem stream?_eq_of_map {f : Stream → Stream} (hf : ∀ s, (f s).id = s.id)
    (streams : List Stream) (id : Nat) :
    (streams.map f).find? (·.id == id) = (streams.find? (·.id == id)).map f := by
  have hid : ((fun s : Stream => s.id == id) ∘ f) = fun s => s.id == id := by
    funext s
    simp [hf s]
  rw [List.find?_map, hid]

theorem id_of_stream? (h : c.stream? id = some s) : s.id = id := by
  simpa using List.find?_some h

theorem mem_of_stream? (h : c.stream? id = some s) : s ∈ c.streams := List.mem_of_find?_eq_some h

/-- With one stream to an id, every stream is found under its id. -/
theorem stream?_of_mem (hids : (c.streams.map (·.id)).Nodup) (h : s ∈ c.streams) :
    c.stream? s.id = some s := by
  obtain ⟨t, ht⟩ : ∃ t, c.stream? s.id = some t := by
    rw [← Option.isSome_iff_exists, stream?, List.find?_isSome]
    exact ⟨s, h, by simp⟩
  rw [ht, List.inj_on_of_nodup_map hids (mem_of_stream? ht) h (id_of_stream? ht)]

theorem stream?_update {f : Stream → Stream} (hf : ∀ s, (f s).id = s.id) (i : Nat)
    (h : c.stream? id = some s) :
    (c.update i f).stream? id = some (if i = id then f s else s) := by
  have hid : ∀ s, (if s.id = i then f s else s).id = s.id := by
    intro s
    split <;> simp [hf]
  rw [stream?, update, stream?_eq_of_map hid c.streams, ← stream?, h, Option.map_some,
    id_of_stream? h]
  simp only [eq_comm (a := id)]

theorem stream?_register (h : c.stream? id = some s) (i : Nat) :
    (c.register i).stream? id = some s := by
  simp only [stream?, register] at h ⊢
  rw [List.find?_append, h, Option.some_or]

theorem stream?_register_self (h : id ∉ c.streams.map (·.id)) :
    (c.register id).stream? id = some (.fresh id) := by
  have hnone : c.streams.find? (·.id == id) = none := by
    rw [List.find?_eq_none]
    intro s hs heq
    exact h (List.mem_map.2 ⟨s, hs, by simpa using heq⟩)
  simp [stream?, register, hnone, Stream.fresh]

theorem stream?_endDispatch (h : c.stream? id = some s) :
    c.endDispatch.stream? id = some s.close := by
  have hmap := stream?_eq_of_map (f := Stream.close) (fun _ => rfl) c.streams id
  rwa [← stream?, h] at hmap

end Client

/-! ## Steps -/

/-- A client with the calls that are opening streams: the ids that have been given out and not
been entered, and those that have been entered and whose request has not been sent. -/
structure Connection where
  client : Client
  reserved : List Nat
  unsent : List Nat

namespace Connection

/-- What can happen at a connection. -/
inductive Action where
  | allocate
  | register (id : Nat)
  | send (id : Nat) (request : String)
  | arrive (frame : String)
  | handOut
  | receive (id : Nat) (limit : Option Nat)
  | dropReceiver (id : Nat)
  | closeInbound
  | closeOutbound
deriving DecidableEq

/-- A new connection. -/
def start (model : String) : Connection := ⟨.connect model, [], []⟩

/-- One step. A call enters only an id that it has got, and sends only the request of a stream
that it has entered. -/
def act (x : Connection) : Action → Connection
  | .allocate =>
      { x with client := x.client.allocate.2, reserved := x.reserved ++ [x.client.allocate.1] }
  | .register id =>
      if id ∈ x.reserved then
        ⟨x.client.register id, x.reserved.erase id, x.unsent ++ [id]⟩
      else x
  | .send id request =>
      if id ∈ x.unsent then
        { x with client := (x.client.send id request).2, unsent := x.unsent.erase id }
      else x
  | .arrive frame => { x with client := x.client.arrive frame }
  | .handOut => { x with client := x.client.handOut }
  | .receive id limit => { x with client := (x.client.receive id limit).2 }
  | .dropReceiver id => { x with client := x.client.dropReceiver id }
  | .closeInbound => { x with client := x.client.closeInbound }
  | .closeOutbound => { x with client := x.client.closeOutbound }

/-- Steps one after the other. -/
def run (x : Connection) (actions : List Action) : Connection := actions.foldl act x

@[simp] theorem run_nil (x : Connection) : x.run [] = x := rfl

@[simp] theorem run_cons (x : Connection) (a : Action) (actions : List Action) :
    x.run (a :: actions) = (x.act a).run actions := rfl

theorem run_append (x : Connection) (first second : List Action) :
    x.run (first ++ second) = (x.run first).run second := List.foldl_append

/-! ## Observations along a run -/

/-- What is observed at the steps of a run, in order. -/
def along {α : Type} (observe : Connection → Action → List α) :
    Connection → List Action → List α
  | _, [] => []
  | x, a :: rest => observe x a ++ along observe (x.act a) rest

section Along

variable {α : Type} (observe : Connection → Action → List α)

@[simp] theorem along_nil (x : Connection) : along observe x [] = [] := rfl

@[simp] theorem along_cons (x : Connection) (a : Action) (rest : List Action) :
    along observe x (a :: rest) = observe x a ++ along observe (x.act a) rest := rfl

theorem along_append (x : Connection) (first second : List Action) :
    along observe x (first ++ second) =
      along observe x first ++ along observe (x.run first) second := by
  induction first generalizing x with
  | nil => rfl
  | cons a first ih => simp [ih]

end Along

/-- The event that the dispatcher hands out. -/
def handed (x : Connection) : Action → List TokenEvent
  | .handOut => x.client.incoming.head?.toList
  | _ => []

/-- The event that the dispatcher hands out to a stream, if it is the stream of that event. -/
def offered (id : Nat) (x : Connection) (a : Action) : List TokenEvent :=
  (x.handed a).filter (·.streamId = id)

/-- The events that the consumer of a stream takes. -/
def taken (id : Nat) (x : Connection) : Action → List TokenEvent
  | .receive i limit => if i = id then (x.client.receive i limit).1 else []
  | _ => []

/-- The id that is given out. -/
def allocated (x : Connection) : Action → List Nat
  | .allocate => [x.client.allocate.1]
  | _ => []

/-- What is offered along a run is what is handed out, without the events of others. -/
theorem along_offered (id : Nat) (x : Connection) (actions : List Action) :
    along (offered id) x actions = (along handed x actions).filter (·.streamId = id) := by
  induction actions generalizing x with
  | nil => rfl
  | cons a rest ih => simp [offered, ih]

/-! ## One stream in one step -/

/-- What a step does to the stream with a given id, with the events that it offers to the stream
and the events that it takes from it. Only its own consumer takes events or leaves, its request is
refused only when nothing can be sent, and the dispatcher closes it only by ending. -/
inductive Moves (x : Connection) (id : Nat) (s : Stream) :
    Action → List TokenEvent → List TokenEvent → Stream → Prop
  | stays (a : Action) : Moves x id s a [] [] s
  | offer (e : TokenEvent) : Moves x id s .handOut [e] [] (if s.routed then s.deliver e else s)
  | take (limit : Option Nat) (count : Nat) : Moves x id s (.receive id limit) []
      (s.buffer.take count) { s with buffer := s.buffer.drop count }
  | leave : Moves x id s (.dropReceiver id) [] [] s.drop
  | refuse (request : String) (h : x.client.outboundOpen = false) :
      Moves x id s (.send id request) [] [] s.close.drop
  | close (h : (x.act .handOut).client.dispatching = false) : Moves x id s .handOut [] [] s.close

variable {x : Connection} {id : Nat} {s : Stream}

/-- Every step moves every stream in one of these ways. -/
theorem exists_moves (h : x.client.stream? id = some s) (a : Action) :
    ∃ t, (x.act a).client.stream? id = some t ∧
      Moves x id s a (offered id x a) (taken id x a) t := by
  cases a with
  | allocate => exact ⟨s, h, .stays _⟩
  | arrive frame =>
      refine ⟨s, ?_, .stays _⟩
      simp only [act, Client.arrive]
      split <;> exact h
  | closeInbound => exact ⟨s, h, .stays _⟩
  | closeOutbound => exact ⟨s, h, .stays _⟩
  | register i =>
      refine ⟨s, ?_, .stays _⟩
      simp only [act]
      split
      · exact Client.stream?_register h i
      · exact h
  | send i request =>
      by_cases hsent : i ∈ x.unsent ∧ x.client.outboundOpen = false
      · have hstream := Client.stream?_update (f := fun s => s.close.drop) (fun _ => rfl) i h
        by_cases hi : i = id
        · subst hi
          refine ⟨s.close.drop, ?_, .refuse request hsent.2⟩
          simpa [act, hsent.1, Client.send, hsent.2] using hstream
        · refine ⟨s, ?_, .stays _⟩
          simpa [act, hsent.1, Client.send, hsent.2, hi] using hstream
      · refine ⟨s, ?_, .stays _⟩
        simp only [act, Client.send]
        split
        · rename_i hmem
          rw [if_pos (by simpa [hmem] using hsent)]
          exact h
        · exact h
  | handOut =>
      cases hin : x.client.incoming with
      | cons e rest =>
          have hstream := Client.stream?_update (c := { x.client with incoming := rest })
            (f := fun s => if s.routed then s.deliver e else s)
            (fun s => by split <;> rfl) e.streamId h
          by_cases hi : e.streamId = id
          · refine ⟨if s.routed then s.deliver e else s, ?_, ?_⟩
            · simpa [act, Client.handOut, hin, Client.deliver, hi] using hstream
            · simpa [offered, handed, hin, hi, taken] using Moves.offer e
          · refine ⟨s, ?_, ?_⟩
            · simpa [act, Client.handOut, hin, Client.deliver, hi] using hstream
            · simpa [offered, handed, hin, hi, taken] using Moves.stays .handOut
      | nil =>
          have hnone : offered id x .handOut = [] := by simp [offered, handed, hin]
          rw [hnone]
          by_cases hopen : (x.client.inboundOpen || !x.client.dispatching) = true
          · exact ⟨s, by simpa [act, Client.handOut, hin, hopen] using h, .stays _⟩
          · refine ⟨s.close, ?_, .close ?_⟩
            · simpa [act, Client.handOut, hin, hopen] using Client.stream?_endDispatch h
            · simp [act, Client.handOut, hin, hopen, Client.endDispatch]
  | receive i limit =>
      by_cases hi : i = id
      · subst hi
        have hstream := Client.stream?_update
          (f := fun t => { t with buffer := t.buffer.drop (limit.getD s.buffer.length) })
          (fun _ => rfl) i h
        refine ⟨{ s with buffer := s.buffer.drop (limit.getD s.buffer.length) }, ?_, ?_⟩
        · simpa [act, Client.receive, h] using hstream
        · simpa [offered, handed, taken, Client.receive, h] using
            Moves.take limit (limit.getD s.buffer.length)
      · refine ⟨s, ?_, ?_⟩
        · cases hother : x.client.stream? i with
          | none => simpa [act, Client.receive, hother] using h
          | some t =>
              have hstream := Client.stream?_update
                (f := fun s => { s with buffer := s.buffer.drop (limit.getD t.buffer.length) })
                (fun _ => rfl) i h
              simpa [act, Client.receive, hother, hi] using hstream
        · simpa [offered, handed, taken, hi] using Moves.stays (.receive i limit)
  | dropReceiver i =>
      have hstream := Client.stream?_update (f := Stream.drop) (fun _ => rfl) i h
      by_cases hi : i = id
      · subst hi
        exact ⟨s.drop, by simpa [act, Client.dropReceiver] using hstream, .leave⟩
      · exact ⟨s, by simpa [act, Client.dropReceiver, hi] using hstream, .stays _⟩

/-! ## Whole calls -/

/-- Opening a stream is a run of three steps. -/
theorem run_openStream (x : Connection) (request : Nat → String) :
    (x.run [.allocate, .register x.client.nextId,
      .send x.client.nextId (request x.client.nextId)]).client =
        (x.client.openStream request).2 := by
  simp [act, Client.openStream, Client.allocate]

/-- So is what the dispatcher does when it is left alone. -/
theorem run_handOutMany (x : Connection) (steps : Nat) :
    (x.run (List.replicate steps .handOut)).client = x.client.handOutMany steps := by
  induction steps generalizing x with
  | zero => rfl
  | succ steps ih => exact ih (x.act .handOut)

/-! ## Ids -/

/-- The id under which a stream is entered. -/
def entered (x : Connection) : Action → List Nat
  | .register id => if id ∈ x.reserved then [id] else []
  | _ => []

/-- The ids of all streams, in the order in which they were entered. -/
def ids (x : Connection) : List Nat := x.client.streams.map (·.id)

theorem ids_update (c : Client) (id : Nat) {f : Stream → Stream} (hf : ∀ s, (f s).id = s.id) :
    (c.update id f).streams.map (·.id) = c.streams.map (·.id) := by
  rw [Client.update, List.map_map]
  refine List.map_congr_left fun s _ => ?_
  simp only [Function.comp_apply]
  split <;> simp [hf]

/-- A step enters at most one stream and takes none away. -/
theorem ids_act (x : Connection) (a : Action) : (x.act a).ids = x.ids ++ entered x a := by
  cases a with
  | allocate | closeInbound | closeOutbound => simp [act, ids, entered, Client.allocate,
      Client.closeInbound, Client.closeOutbound]
  | register id =>
      by_cases hid : id ∈ x.reserved <;>
        simp [act, ids, entered, hid, Client.register, Stream.fresh]
  | send id request =>
      simp only [act, Client.send, entered, List.append_nil]
      split
      · split
        · rfl
        · exact ids_update x.client id fun _ => rfl
      · rfl
  | arrive frame =>
      simp only [act, Client.arrive, entered, List.append_nil]
      split <;> rfl
  | handOut =>
      simp only [act, Client.handOut, entered, List.append_nil]
      split
      · exact ids_update _ _ fun s => by split <;> rfl
      · split
        · rfl
        · simp [ids, Client.endDispatch, Function.comp_def, Stream.close]
  | receive id limit =>
      simp only [act, Client.receive, entered, List.append_nil]
      split
      · rfl
      · exact ids_update x.client id fun _ => rfl
  | dropReceiver id =>
      simp only [entered, List.append_nil]
      exact ids_update x.client id fun _ => rfl

/-- A step leaves the next id alone, or gives it out. -/
theorem nextId_act (x : Connection) (a : Action) :
    (x.act a).client.nextId = x.client.nextId + (allocated x a).length := by
  cases a with
  | allocate | closeInbound | closeOutbound | dropReceiver => rfl
  | register | send | arrive | handOut | receive =>
      simp only [act, Client.send, Client.arrive, Client.handOut, Client.receive]
      repeat' split
      all_goals rfl

/-- Ids are given out one after the other. -/
theorem along_allocated (x : Connection) (actions : List Action) :
    along allocated x actions =
        List.range' x.client.nextId (along allocated x actions).length ∧
      (x.run actions).client.nextId =
        x.client.nextId + (along allocated x actions).length := by
  induction actions generalizing x with
  | nil => simp
  | cons a rest ih =>
      obtain ⟨hids, hnext⟩ := ih (x.act a)
      rw [run_cons, hnext, along_cons, List.length_append, nextId_act]
      refine ⟨?_, by omega⟩
      rw [List.range'_append_1.symm, ← nextId_act, ← hids]
      congr 1
      cases a <;> rfl

/-- Every id that has been given out belongs to one stream, or to one call that is about to enter
its stream. -/
theorem perm_act (x : Connection) (a : Action) :
    ((x.act a).ids ++ (x.act a).reserved).Perm (x.ids ++ x.reserved ++ allocated x a) := by
  rw [ids_act]
  cases a with
  | allocate => simp [act, entered, allocated]
  | register id =>
      by_cases hid : id ∈ x.reserved
      · simp only [act, entered, allocated, hid, if_true, List.append_nil, List.append_assoc]
        exact ((List.perm_cons_erase hid).symm).append_left x.ids
      · simp [act, entered, allocated, hid]
  | send id request =>
      simp only [act, entered, allocated, List.append_nil]
      split <;> exact .refl _
  | arrive | handOut | receive | dropReceiver | closeInbound | closeOutbound =>
      simp [act, entered, allocated]

theorem perm_run (x : Connection) (actions : List Action) :
    ((x.run actions).ids ++ (x.run actions).reserved).Perm
      (x.ids ++ x.reserved ++ along allocated x actions) := by
  induction actions generalizing x with
  | nil => simp
  | cons a rest ih =>
      refine (ih (x.act a)).trans ?_
      rw [along_cons, ← List.append_assoc]
      exact (perm_act x a).append_right _

/-! ## What always holds -/

/-- Ids tell streams apart, also those still to be entered, a request belongs to a stream, and the
dispatcher ends when everything that came in has been handed out and nothing can follow. -/
structure Sound (x : Connection) : Prop where
  ids : (x.ids ++ x.reserved).Nodup
  unsent : ∀ id ∈ x.unsent, id ∈ x.ids
  ended : x.client.dispatching = false →
    x.client.inboundOpen = false ∧ x.client.incoming = []

theorem unsent_act (h : ∀ id ∈ x.unsent, id ∈ x.ids) (a : Action) :
    ∀ id ∈ (x.act a).unsent, id ∈ (x.act a).ids := by
  intro id hid
  rw [ids_act, List.mem_append]
  cases a with
  | register i =>
      by_cases hi : i ∈ x.reserved
      · simp only [act, hi, if_true, List.mem_append, List.mem_singleton] at hid
        rcases hid with hid | rfl
        · exact .inl (h id hid)
        · simp [entered, hi]
      · rw [act, if_neg hi] at hid
        exact .inl (h id hid)
  | send i request =>
      refine .inl (h id ?_)
      simp only [act] at hid
      split at hid
      · exact List.mem_of_mem_erase hid
      · exact hid
  | allocate | arrive | handOut | receive | dropReceiver | closeInbound | closeOutbound =>
      exact .inl (h id hid)

theorem ended_act
    (h : x.client.dispatching = false → x.client.inboundOpen = false ∧ x.client.incoming = [])
    (a : Action) : (x.act a).client.dispatching = false →
      (x.act a).client.inboundOpen = false ∧ (x.act a).client.incoming = [] := by
  cases a with
  | allocate | dropReceiver | closeOutbound => exact h
  | closeInbound => exact fun hended => ⟨rfl, (h hended).2⟩
  | register | send | receive =>
      simp only [act, Client.send, Client.receive]
      repeat' split
      all_goals exact h
  | arrive =>
      simp only [act, Client.arrive]
      split
      · rename_i hopen
        intro hended
        simp [(h hended).1] at hopen
      · exact h
  | handOut =>
      simp only [act, Client.handOut]
      split
      · rename_i e rest hin
        intro hended
        simp [(h hended).2] at hin
      · rename_i hin
        split
        · exact h
        · rename_i hopen
          simp only [Bool.or_eq_true, not_or, Bool.not_eq_true] at hopen
          exact fun _ => ⟨hopen.1, hin⟩

/-- Whatever happens on a new connection, this holds. -/
theorem sound_run (model : String) (actions : List Action) :
    ((start model).run actions).Sound := by
  refine ⟨?_, ?_, ?_⟩
  · refine (perm_run _ _).nodup_iff.2 ?_
    rw [(along_allocated _ _).1]
    exact List.nodup_range'
  · induction actions using List.reverseRecOn with
    | nil => simp [start]
    | append_singleton actions a ih =>
        rw [run_append]
        exact unsent_act ih a
  · induction actions using List.reverseRecOn with
    | nil => simp [start, Client.connect]
    | append_singleton actions a ih =>
        rw [run_append]
        exact ended_act ih a

/-! ## Closing -/

/-- Only closing it ends what comes in. -/
theorem inboundOpen_act {a : Action} (ha : a ≠ .closeInbound) :
    (x.act a).client.inboundOpen = x.client.inboundOpen := by
  cases a with
  | closeInbound => exact absurd rfl ha
  | allocate | closeOutbound | dropReceiver => rfl
  | register | send | arrive | handOut | receive =>
      simp only [act, Client.send, Client.arrive, Client.handOut, Client.receive]
      repeat' split
      all_goals rfl

theorem inboundOpen_run {actions : List Action} (h : .closeInbound ∉ actions) :
    (x.run actions).client.inboundOpen = x.client.inboundOpen := by
  induction actions generalizing x with
  | nil => rfl
  | cons a rest ih =>
      rw [List.mem_cons, not_or] at h
      rw [run_cons, ih h.2, inboundOpen_act (Ne.symm h.1)]

/-- Only closing it ends what can be sent. -/
theorem outboundOpen_act_of_ne {a : Action} (ha : a ≠ .closeOutbound) :
    (x.act a).client.outboundOpen = x.client.outboundOpen := by
  cases a with
  | closeOutbound => exact absurd rfl ha
  | allocate | closeInbound | dropReceiver => rfl
  | register | send | arrive | handOut | receive =>
      simp only [act, Client.send, Client.arrive, Client.handOut, Client.receive]
      repeat' split
      all_goals rfl

theorem outboundOpen_run_of_not_mem {actions : List Action} (h : .closeOutbound ∉ actions) :
    (x.run actions).client.outboundOpen = x.client.outboundOpen := by
  induction actions generalizing x with
  | nil => rfl
  | cons a rest ih =>
      rw [List.mem_cons, not_or] at h
      rw [run_cons, ih h.2, outboundOpen_act_of_ne (Ne.symm h.1)]

/-! ## Ends are for ever -/

theorem dispatching_act (hended : x.client.dispatching = false) (a : Action) :
    (x.act a).client.dispatching = false := by
  cases a with
  | allocate | closeInbound | closeOutbound | dropReceiver => exact hended
  | register | send | arrive | handOut | receive =>
      simp only [act, Client.send, Client.arrive, Client.handOut, Client.receive]
      repeat' split
      all_goals first | exact hended | rfl

theorem dispatching_run (hended : x.client.dispatching = false) (actions : List Action) :
    (x.run actions).client.dispatching = false := by
  induction actions generalizing x with
  | nil => exact hended
  | cons a rest ih => exact ih (dispatching_act hended a)

theorem outboundOpen_act (hclosed : x.client.outboundOpen = false) (a : Action) :
    (x.act a).client.outboundOpen = false := by
  cases a with
  | allocate | closeInbound | closeOutbound | dropReceiver => first | exact hclosed | rfl
  | register | send | arrive | handOut | receive =>
      simp only [act, Client.send, Client.arrive, Client.handOut, Client.receive]
      repeat' split
      all_goals exact hclosed

theorem outboundOpen_run (hclosed : x.client.outboundOpen = false) (actions : List Action) :
    (x.run actions).client.outboundOpen = false := by
  induction actions generalizing x with
  | nil => exact hclosed
  | cons a rest ih => exact ih (outboundOpen_act hclosed a)

end Connection

end Guided
