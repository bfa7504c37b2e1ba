import Guided.Proofs.Stream.Connection

/-!
# After the end of a connection

When the dispatcher ends it closes every stream that has been entered by then. Nobody closes a
stream that is entered later: if its request can still be sent, its consumer gets a receiver on
which nothing comes and which does not end.

## Main definitions

* `Connection.active`: the streams to which events are routed.
* `Connection.late`: the streams entered after the dispatcher has ended.
* `Connection.refused`: the streams whose request could not be sent.

## Main statements

* `Connection.active_run`: after the end, active are the late streams that were not refused.
* `Connection.active_after_end`: these streams wait for ever, and all others end.
* `Connection.left_waiting`: a stream that outlives its connection.
-/
namespace Guided

namespace Connection

variable {x : Connection} {id : Nat} {s : Stream}

/-- The ids of the streams to which events are routed. -/
def active (x : Connection) : List Nat := (x.client.streams.filter (·.routed)).map (·.id)

/-- The id of a stream that is entered when the dispatcher has ended. -/
def late (x : Connection) (a : Action) : List Nat :=
  if x.client.dispatching then [] else entered x a

/-- The id of a stream whose request is to be sent when nothing can be sent any more. -/
def refused (x : Connection) : Action → List Nat
  | .send id _ => if id ∈ x.unsent ∧ x.client.outboundOpen = false then [id] else []
  | _ => []

theorem length_active (x : Connection) : x.active.length = x.client.activeStreams :=
  List.length_map _

theorem mem_active_iff (hx : x.Sound) (h : x.client.stream? id = some s) :
    id ∈ x.active ↔ s.routed = true := by
  have hids : (x.client.streams.map (·.id)).Nodup := (List.nodup_append.1 hx.ids).1
  simp only [active, List.mem_map, List.mem_filter]
  constructor
  · rintro ⟨t, ⟨ht, hrouted⟩, rfl⟩
    rwa [← Option.some.inj ((Client.stream?_of_mem hids ht).symm.trans h)]
  · exact fun hrouted => ⟨s, ⟨Client.mem_of_stream? h, hrouted⟩, Client.id_of_stream? h⟩

/-! ## Steps after the end -/

/-- Nothing is handed out after the end. -/
theorem offered_of_ended (hx : x.Sound) (hended : x.client.dispatching = false) (id : Nat)
    (a : Action) : offered id x a = [] := by
  cases a with
  | handOut => simp [offered, handed, (hx.ended hended).2]
  | _ => rfl

/-- A change of one stream that leaves the routing alone. -/
theorem active_update {c : Client} {f : Stream → Stream} (i : Nat)
    (hid : ∀ s, (f s).id = s.id) (hf : ∀ s, (f s).routed = s.routed) :
    ((c.update i f).streams.filter (·.routed)).map (·.id) =
      (c.streams.filter (·.routed)).map (·.id) := by
  rw [Client.update, List.filter_map, List.map_map]
  have hrouted : ((fun s : Stream => s.routed) ∘ fun s => if s.id = i then f s else s) =
      fun s => s.routed := by
    funext s
    simp only [Function.comp_apply]
    split <;> simp [hf]
  rw [hrouted]
  refine List.map_congr_left fun s _ => ?_
  simp only [Function.comp_apply]
  split <;> simp [hid]

/-- A change of one stream that ends the routing to it. -/
theorem active_update_closing {c : Client} {f : Stream → Stream} (i : Nat)
    (hf : ∀ s, (f s).routed = false) :
    ((c.update i f).streams.filter (·.routed)).map (·.id) =
      ((c.streams.filter (·.routed)).map (·.id)).filter (· ∉ [i]) := by
  simp only [Client.update]
  induction c.streams with
  | nil => rfl
  | cons s rest ih =>
      by_cases hs : s.id = i
      · cases hrouted : s.routed <;> simpa [hs, hf, hrouted] using ih
      · cases hrouted : s.routed <;> simpa [hs, hrouted] using ih

/-- After the end, a stream becomes active when it is entered, and stops being active when its
request is refused. -/
theorem active_act_of_ended (hx : x.Sound) (hended : x.client.dispatching = false) (a : Action) :
    (x.act a).active = (x.active ++ entered x a).filter (· ∉ refused x a) := by
  obtain ⟨hinbound, hincoming⟩ := hx.ended hended
  have hquiet : entered x a = [] → refused x a = [] → (x.act a).active = x.active →
      (x.act a).active = (x.active ++ entered x a).filter (· ∉ refused x a) := by
    intro hentered hrefused hactive
    simp [hentered, hrefused, hactive]
  cases a with
  | allocate | closeInbound | closeOutbound => exact hquiet rfl rfl rfl
  | arrive frame => exact hquiet rfl rfl (by simp [active, act, Client.arrive, hinbound])
  | handOut =>
      exact hquiet rfl rfl (by simp [active, act, Client.handOut, hincoming, hended])
  | register id =>
      by_cases hid : id ∈ x.reserved <;>
        simp [active, act, entered, refused, hid, Client.register, Stream.fresh]
  | send id request =>
      by_cases hrefused : id ∈ x.unsent ∧ x.client.outboundOpen = false
      · simpa [active, act, Client.send, entered, refused, hrefused.1, hrefused.2] using
          active_update_closing (c := x.client) (f := fun s => s.close.drop) id fun _ => rfl
      · refine hquiet rfl (if_neg hrefused) ?_
        simp only [active, act, Client.send]
        split
        · rename_i hid
          rw [if_pos (by simpa [hid] using hrefused)]
        · rfl
  | receive id limit =>
      refine hquiet rfl rfl ?_
      simp only [active, act, Client.receive]
      split
      · rfl
      · exact active_update id (fun _ => rfl) fun _ => rfl
  | dropReceiver id => exact hquiet rfl rfl (active_update id (fun _ => rfl) fun _ => rfl)

/-! ## Runs to the end and beyond -/

/-- A refused stream has been entered. -/
theorem refused_subset_ids (model : String) (actions : List Action) :
    ∀ id ∈ along refused (start model) actions, id ∈ ((start model).run actions).ids := by
  induction actions using List.reverseRecOn with
  | nil => simp
  | append_singleton actions a ih =>
      intro id hid
      rw [along_append, along_cons, along_nil, List.append_nil, List.mem_append] at hid
      rw [run_append, run_cons, run_nil, ids_act, List.mem_append]
      refine .inl (hid.elim (ih id) fun hrefused => ?_)
      cases a with
      | send i request =>
          simp only [refused] at hrefused
          split at hrefused
          · rename_i hsend
            rw [List.mem_singleton.1 hrefused]
            exact (sound_run model actions).unsent i hsend.1
          · simp at hrefused
      | _ => simp [refused] at hrefused

/-- As long as the dispatcher works no stream is late. -/
theorem late_of_dispatching (x : Connection) (actions : List Action)
    (h : (x.run actions).client.dispatching = true) : along late x actions = [] := by
  induction actions generalizing x with
  | nil => rfl
  | cons a rest ih =>
      have hx : x.client.dispatching = true := by
        rw [← Bool.not_eq_false]
        intro hended
        rw [run_cons, dispatching_run (dispatching_act hended a)] at h
        exact Bool.noConfusion h
      simp [late, hx, ih (x.act a) h]

/-- The step that ends the dispatcher closes all streams. -/
theorem active_of_ending {a : Action} (hx : x.client.dispatching = true)
    (hended : (x.act a).client.dispatching = false) : (x.act a).active = [] := by
  cases a with
  | allocate | closeInbound | closeOutbound | dropReceiver =>
      exact absurd (hended.symm.trans hx) Bool.false_ne_true
  | register | send | arrive | receive =>
      simp only [act, Client.send, Client.arrive, Client.receive] at hended
      repeat' split at hended
      all_goals exact absurd (hended.symm.trans hx) Bool.false_ne_true
  | handOut =>
      simp only [act, Client.handOut] at hended ⊢
      split at hended
      · exact absurd (hended.symm.trans hx) Bool.false_ne_true
      · split at hended
        · exact absurd (hended.symm.trans hx) Bool.false_ne_true
        · rename_i hopen
          simp only [active, if_neg hopen]
          simp [Client.endDispatch, Stream.close, List.filter_map, Function.comp_def]

/-- A stream is entered under an id that no stream had. -/
theorem not_mem_ids_of_entered (hx : x.Sound) {a : Action} (hid : id ∈ entered x a) :
    id ∉ x.ids := by
  cases a with
  | register i =>
      simp only [entered] at hid
      split at hid
      · rename_i hi
        rw [List.mem_singleton.1 hid]
        exact fun hold => (List.nodup_append.1 hx.ids).2.2 i hold i hi rfl
      · simp at hid
  | _ => simp [entered] at hid

/-- **Active streams after the end.** After the dispatcher has ended, events are routed to exactly
the streams that were entered afterwards and whose request could be sent, or is still to be
sent. -/
theorem active_run (model : String) (actions : List Action)
    (hended : ((start model).run actions).client.dispatching = false) :
    ((start model).run actions).active =
      (along late (start model) actions).filter (· ∉ along refused (start model) actions) := by
  induction actions using List.reverseRecOn with
  | nil => simp [start, Client.connect] at hended
  | append_singleton actions a ih =>
      have hx := sound_run model actions
      simp only [along_append, along_cons, along_nil, List.append_nil, run_append, run_cons,
        run_nil] at hended ⊢
      cases hbefore : ((start model).run actions).client.dispatching with
      | true =>
          rw [active_of_ending hbefore hended, late_of_dispatching _ _ hbefore]
          simp [late, hbefore]
      | false =>
          -- What is refused now or was refused before has been entered before.
          have hnew : ∀ id ∈ entered ((start model).run actions) a,
              id ∉ along refused (start model) actions := fun id hid hrefused =>
            not_mem_ids_of_entered hx hid (refused_subset_ids model actions id hrefused)
          rw [active_act_of_ended hx hbefore, ih hbefore, List.filter_append, List.filter_append,
            List.filter_filter]
          simp only [late, hbefore, Bool.false_eq_true, if_false]
          congr 1
          · refine List.filter_congr fun id _ => ?_
            simp [Bool.and_comm]
          · refine List.filter_congr fun id hid => ?_
            simp [hnew id hid]

/-! ## Consumers after the end -/

/-- A stream to which nothing is routed ends when its buffer has been read. -/
theorem atEnd_receive (h : x.client.stream? id = some s) (hs : s.routed = false) :
    (x.act (.receive id none)).client.atEnd id = true := by
  have hstream := Client.stream?_update
    (f := fun t => { t with buffer := t.buffer.drop s.buffer.length }) (fun _ => rfl) id h
  simp only [if_true] at hstream
  simp [act, Client.receive, h, Client.atEnd, hstream, hs]

/-- After the end, a consumer with an empty buffer gets nothing. -/
theorem idle_act (hx : x.Sound) (hended : x.client.dispatching = false)
    (h : x.client.stream? id = some s) (hs : s.buffer = []) (a : Action) :
    taken id x a = [] ∧ ∃ t, (x.act a).client.stream? id = some t ∧ t.buffer = [] := by
  obtain ⟨t, ht, hmoves⟩ := exists_moves h a
  rw [offered_of_ended hx hended] at hmoves
  generalize taken id x a = got at hmoves ⊢
  cases hmoves with
  | stays | close => exact ⟨rfl, _, ht, hs⟩
  | take => exact ⟨by simp [hs], _, ht, by simp [hs]⟩
  | leave | refuse => exact ⟨rfl, _, ht, rfl⟩

theorem idle_run (hx : x.Sound) (hended : x.client.dispatching = false)
    (h : x.client.stream? id = some s) (hs : s.buffer = []) (actions : List Action)
    (hsound : ∀ actions, (x.run actions).Sound) : along (taken id) x actions = [] := by
  induction actions generalizing x s with
  | nil => rfl
  | cons a rest ih =>
      obtain ⟨htaken, t, ht, hbuffer⟩ := idle_act hx hended h hs a
      rw [along_cons, htaken, List.nil_append]
      exact ih (hsound [a]) (dispatching_act hended a) ht hbuffer fun more => hsound (a :: more)

/-- Nothing is buffered for a late stream. -/
theorem late_idle (model : String) (actions : List Action) :
    ∀ id ∈ along late (start model) actions,
      ∃ s, ((start model).run actions).client.stream? id = some s ∧ s.buffer = [] := by
  induction actions using List.reverseRecOn with
  | nil => simp
  | append_singleton actions a ih =>
      have hx := sound_run model actions
      intro id hid
      simp only [along_append, along_cons, along_nil, List.append_nil, run_append, run_cons,
        run_nil, List.mem_append] at hid ⊢
      cases hbefore : ((start model).run actions).client.dispatching with
      | true =>
          rw [late_of_dispatching _ _ hbefore] at hid
          simp [late, hbefore] at hid
      | false =>
          rcases hid with hold | hnew
          · obtain ⟨s, hs, hbuffer⟩ := ih id hold
            exact (idle_act hx hbefore hs hbuffer a).2
          · rw [late, if_neg (by simp [hbefore])] at hnew
            have hfree := not_mem_ids_of_entered hx hnew
            cases a with
            | register i =>
                simp only [entered] at hnew
                split at hnew
                · rename_i hi
                  obtain rfl := List.mem_singleton.1 hnew
                  exact ⟨.fresh id, by
                    simpa [act, hi] using Client.stream?_register_self hfree, rfl⟩
                · simp at hnew
            | _ => simp [entered] at hnew

/-- **What outlives a connection.** When the dispatcher has ended, events are routed to exactly
the streams that were entered afterwards and not refused. All other streams end as soon as what is
buffered for them has been read. The consumers of the former get nothing and see no end, whatever
happens from then on, as long as their request is not refused. -/
theorem active_after_end (model : String) (actions : List Action)
    (hended : ((start model).run actions).client.dispatching = false) :
    ((start model).run actions).active =
        (along late (start model) actions).filter (· ∉ along refused (start model) actions) ∧
      ((start model).run actions).client.activeStreams =
        ((along late (start model) actions).filter
          (· ∉ along refused (start model) actions)).length ∧
      (∀ s ∈ ((start model).run actions).client.streams,
        s.id ∉ along late (start model) actions →
          (((start model).run actions).act (.receive s.id none)).client.atEnd s.id = true) ∧
      ∀ id ∈ along late (start model) actions, ∀ more,
        id ∉ along refused (start model) (actions ++ more) →
          along (taken id) ((start model).run actions) more = [] ∧
            ((start model).run (actions ++ more)).client.atEnd id = false := by
  have hx := sound_run model actions
  have hactive := active_run model actions hended
  refine ⟨hactive, by rw [← hactive, length_active], fun s hs hearly => ?_,
    fun id hid more hsent => ⟨?_, ?_⟩⟩
  · have hstream := Client.stream?_of_mem (List.nodup_append.1 hx.ids).1 hs
    refine atEnd_receive hstream ?_
    rw [← Bool.not_eq_true, ← mem_active_iff hx hstream, hactive]
    exact fun hmem => hearly (List.mem_filter.1 hmem).1
  · obtain ⟨s, hs, hbuffer⟩ := late_idle model actions id hid
    refine idle_run hx hended hs hbuffer more fun rest => ?_
    rw [← run_append]
    exact sound_run model _
  · -- The stream is still late after all that follows, and it has not been refused.
    have hlate : id ∈ along late (start model) (actions ++ more) := by
      rw [along_append, List.mem_append]
      exact .inl hid
    have hstill : ((start model).run (actions ++ more)).client.dispatching = false := by
      rw [run_append]
      exact dispatching_run hended more
    obtain ⟨s, hs, -⟩ := late_idle model (actions ++ more) id hlate
    have hrouted : s.routed = true := by
      rw [← mem_active_iff (sound_run model _) hs, active_run model _ hstill]
      simpa using ⟨hlate, hsent⟩
    simp [Client.atEnd, hs, hrouted]

namespace Sample

/-- The server goes away, the dispatcher ends, and then a stream is opened. -/
def reopened : List Action := [.closeInbound, .handOut, .allocate, .register 1, .send 1 ""]

end Sample

/-- The stream that is opened after the end waits for ever. -/
theorem active_after_end_reopened :
    ((start "m").run Sample.reopened).client.dispatching = false ∧
      ((start "m").run Sample.reopened).active = [1] ∧
      ∀ more, 1 ∉ along refused (start "m") (Sample.reopened ++ more) →
        ((start "m").run (Sample.reopened ++ more)).client.atEnd 1 = false := by
  have hended : ((start "m").run Sample.reopened).client.dispatching = false := rfl
  obtain ⟨hactive, -, -, hwaits⟩ := active_after_end "m" Sample.reopened hended
  refine ⟨hended, hactive.trans (by decide), fun more hsent => ?_⟩
  exact (hwaits 1 (by decide) more hsent).2

/-- **A stream can outlive its connection.** After the end of the dispatcher a stream is open
and its consumer sees no end. -/
theorem left_waiting :
    ((start "m").run Sample.reopened).client.dispatching = false ∧
      ((start "m").run Sample.reopened).client.activeStreams = 1 ∧
      ((start "m").run Sample.reopened).client.receive 1 none =
        ([], ((start "m").run Sample.reopened).client) ∧
      ((start "m").run Sample.reopened).client.atEnd 1 = false := by
  decide

end Connection

end Guided
