import Guided.Proofs.Constraint.Construction
import Mathlib.Data.List.Nodup

/-!
# The order in which nodes are listed

Three traversals list nodes of a constraint: one with a stack that decides late whether a
node is new, one by recursion that marks nodes as it meets them, and one by recursion that
marks calls only. On a graph made by the constructors all of them list what plain recursion
meets, in the order in which it meets it first: when a node is met again, everything below
it has been met already.

## Main definitions

* `Constraint.visit`: depth-first, marking nodes.
* `Constraint.preorder`: depth-first, every occurrence of a node.
* `Constraint.note`: listing a node that is new.

## Main statements

* `Constraint.walk_eq_visit`: the stack is recursion.
* `Constraint.Built.walk_eq_noteAll`: what is listed, and in which order.
* `Constraint.Built.inlineCalls_eq`: the calls of the walk.
-/
namespace Guided

variable {W : Type}

mutual

/-- List a node and then what is below it, unless the node has been listed. -/
def Constraint.visit (out : List (Constraint W)) : Constraint W → List (Constraint W)
  | .node id operator inputs =>
      if Constraint.listed out id then out
      else Constraint.visitAll (out ++ [.node id operator inputs]) inputs

/-- Visit nodes from left to right. -/
def Constraint.visitAll (out : List (Constraint W)) : List (Constraint W) → List (Constraint W)
  | [] => out
  | c :: rest => Constraint.visitAll (Constraint.visit out c) rest

end

mutual

/-- A node and then what is below it, whether it has occurred before or not. -/
def Constraint.preorder : Constraint W → List (Constraint W)
  | .node id operator inputs => .node id operator inputs :: Constraint.preorderAll inputs

/-- Nodes and what is below them, from left to right. -/
def Constraint.preorderAll : List (Constraint W) → List (Constraint W)
  | [] => []
  | c :: rest => c.preorder ++ Constraint.preorderAll rest

end

namespace Constraint

variable {root c d : Constraint W} {nodes out cs stack : List (Constraint W)}

/-! ## The stack -/

theorem visitAll_append (out cs ds : List (Constraint W)) :
    visitAll out (cs ++ ds) = visitAll (visitAll out cs) ds := by
  induction cs generalizing out with
  | nil => rfl
  | cons c cs ih => rw [List.cons_append, visitAll, visitAll, ih]

/-- What a stack holds is visited from the top. -/
theorem walkFrom_eq_visitAll (stack out : List (Constraint W)) :
    walkFrom stack out = visitAll out stack := by
  fun_induction walkFrom stack out with
  | case1 out => rfl
  | case2 out id operator inputs rest hlisted ih => rw [ih, visitAll, visit, if_pos hlisted]
  | case3 out id operator inputs rest hnew ih =>
      rw [ih, visitAll_append, visitAll, visit, if_neg hnew]

/-- **The walk is the recursive one**, whatever the identities are. -/
theorem walk_eq_visit (root : Constraint W) : root.walk = visit [] root := by
  rw [walk, walkFrom_eq_visitAll]
  rfl

/-! ## Occurrences -/

theorem mem_preorderAll : c ∈ preorderAll cs ↔ ∃ d ∈ cs, c ∈ d.preorder := by
  induction cs with
  | nil => simp [preorderAll]
  | cons d cs ih => simp [preorderAll, ih]

theorem mem_preorder_iff : d ∈ c.preorder ↔ Occurs d c := by
  induction c using inputs_induction with
  | h id operator inputs ih =>
      rw [preorder, List.mem_cons, mem_preorderAll]
      constructor
      · rintro (rfl | ⟨e, he, hd⟩)
        · exact .here
        · exact .input _ e he ((ih e he).1 hd)
      · intro hd
        cases hd with
        | here => exact .inl rfl
        | input _ e he hbelow => exact .inr ⟨e, he, (ih e he).2 hbelow⟩

theorem Occurs.trans {e : Constraint W} (h : Occurs c d) (h' : Occurs d e) : Occurs c e := by
  induction h' with
  | here => exact h
  | input e f hf _ ih => exact .input e f hf ih

theorem weight_lt_of_input (h : d ∈ c.inputs) : d.weight < c.weight := by
  have hle : ∀ cs : List (Constraint W), d ∈ cs → d.weight ≤ weightOfAll cs := by
    intro cs hd
    induction cs with
    | nil => simp at hd
    | cons e cs ih =>
        rw [weightOfAll]
        rcases List.mem_cons.1 hd with rfl | hd
        · omega
        · have hrest := ih hd
          omega
  obtain ⟨id, operator, inputs⟩ := c
  have hinputs := hle inputs h
  rw [weight]
  omega

theorem Occurs.weight_le (h : Occurs c d) : c.weight ≤ d.weight := by
  induction h with
  | here => exact Nat.le_refl _
  | input root d hd _ ih =>
      have hlt := weight_lt_of_input hd
      omega

/-- No node occurs below itself. -/
theorem not_occurs_of_input (h : d ∈ c.inputs) : ¬ Occurs c d := by
  intro hc
  have hlt := weight_lt_of_input h
  have hle := hc.weight_le
  omega

/-! ## Listing what is new -/

/-- List a node, unless it has been listed. -/
def note (out : List (Constraint W)) (c : Constraint W) : List (Constraint W) :=
  if listed out c.id then out else out ++ [c]

theorem note_of_listed (h : listed out c.id) : note out c = out := if_pos h

theorem note_of_new (h : ¬ listed out c.id) : note out c = out ++ [c] := if_neg h

/-- List those of several nodes that are new. -/
def noteAll (out cs : List (Constraint W)) : List (Constraint W) := cs.foldl note out

theorem noteAll_cons (out : List (Constraint W)) (c : Constraint W) (cs : List (Constraint W)) :
    noteAll out (c :: cs) = noteAll (note out c) cs := rfl

theorem noteAll_append (out cs ds : List (Constraint W)) :
    noteAll out (cs ++ ds) = noteAll (noteAll out cs) ds := List.foldl_append

theorem mem_note_of_mem (h : d ∈ out) (c : Constraint W) : d ∈ note out c := by
  rw [note]
  split
  · exact h
  · exact List.mem_append_left _ h

theorem mem_noteAll_of_mem (h : d ∈ out) (cs : List (Constraint W)) : d ∈ noteAll out cs := by
  induction cs generalizing out with
  | nil => exact h
  | cons c cs ih => exact ih (mem_note_of_mem h c)

theorem mem_of_mem_noteAll (h : d ∈ noteAll out cs) : d ∈ out ∨ d ∈ cs := by
  induction cs generalizing out with
  | nil => exact .inl h
  | cons c cs ih =>
      rcases ih h with hd | hd
      · rw [note] at hd
        split at hd
        · exact .inl hd
        · rcases List.mem_append.1 hd with hd | hd
          · exact .inl hd
          · exact .inr (List.mem_cons.2 (.inl (List.mem_singleton.1 hd)))
      · exact .inr (List.mem_cons_of_mem _ hd)

/-- Nodes that have been listed are not listed again. -/
theorem noteAll_of_mem (h : ∀ c ∈ cs, c ∈ out) : noteAll out cs = out := by
  induction cs with
  | nil => rfl
  | cons c cs ih =>
      rw [List.forall_mem_cons] at h
      rw [noteAll_cons, note_of_listed (listed_iff.2 ⟨c, h.1, rfl⟩)]
      exact ih h.2

/-- No identity is listed twice. -/
theorem nodup_noteAll (h : (out.map Constraint.id).Nodup) (cs : List (Constraint W)) :
    ((noteAll out cs).map Constraint.id).Nodup := by
  induction cs generalizing out with
  | nil => exact h
  | cons c cs ih =>
      apply ih
      by_cases hlisted : listed out c.id
      · rwa [note_of_listed hlisted]
      · have hfresh : c.id ∉ out.map Constraint.id := by
          simpa [listed_iff] using hlisted
        rw [note_of_new hlisted, List.map_append, List.map_singleton]
        exact List.Nodup.append h (by simp) (by simpa using hfresh)

theorem forall_mem_note {P : Constraint W → Prop} (hout : ∀ d ∈ out, P d) (hc : P c) :
    ∀ d ∈ note out c, P d := by
  intro d hd
  have hnoted : d ∈ noteAll out [c] := hd
  rcases mem_of_mem_noteAll hnoted with hd | hd
  · exact hout d hd
  · rwa [List.mem_singleton.1 hd]

section Built

variable (hb : Built nodes)

include hb

/-- A node that is listed, or passed over, is in the list. -/
theorem Built.mem_note (hout : ∀ d ∈ out, d ∈ nodes) (hc : c ∈ nodes) : c ∈ note out c := by
  by_cases hlisted : listed out c.id
  · rw [note_of_listed hlisted]
    exact hb.mem_of_listed hout hc hlisted
  · rw [note_of_new hlisted]
    exact List.mem_append_right _ List.mem_cons_self

theorem Built.mem_noteAll (hout : ∀ d ∈ out, d ∈ nodes) (hcs : ∀ d ∈ cs, d ∈ nodes) :
    ∀ c ∈ cs, c ∈ noteAll out cs := by
  induction cs generalizing out with
  | nil => simp
  | cons d cs ih =>
      rw [List.forall_mem_cons] at hcs
      refine List.forall_mem_cons.2 ⟨?_, ih (forall_mem_note hout hcs.1) hcs.2⟩
      exact mem_noteAll_of_mem (hb.mem_note hout hcs.1) cs

/-- Visiting nodes one after the other lists what is new among their occurrences, if
visiting each of them does. What has been listed of them has been listed with everything
below. -/
theorem Built.visitAll_eq_noteAll (hcs : ∀ c ∈ cs, c ∈ nodes) (hout : ∀ d ∈ out, d ∈ nodes)
    (hclosed : ∀ d ∈ out, ∀ c ∈ cs, Occurs d c → ∀ e, Occurs e d → e ∈ out)
    (hvisit : ∀ c ∈ cs, ∀ out : List (Constraint W), (∀ d ∈ out, d ∈ nodes) →
      (∀ d ∈ out, Occurs d c → ∀ e, Occurs e d → e ∈ out) →
        visit out c = noteAll out c.preorder) :
    visitAll out cs = noteAll out (preorderAll cs) := by
  induction cs generalizing out with
  | nil => rfl
  | cons c cs ih =>
      rw [List.forall_mem_cons] at hcs hvisit
      have hbelow : ∀ d ∈ c.preorder, d ∈ nodes :=
        fun d hd => hb.mem_of_occurs hcs.1 (mem_preorder_iff.1 hd)
      rw [visitAll, hvisit.1 out hout fun d hd => hclosed d hd c List.mem_cons_self, preorderAll,
        noteAll_append]
      refine ih hcs.2 ?_ ?_ hvisit.2
      · intro d hd
        exact (mem_of_mem_noteAll hd).elim (hout d) (hbelow d)
      · intro d hd e he hde f hf
        rcases mem_of_mem_noteAll hd with hd | hd
        · have hlisted := hclosed d hd e (List.mem_cons_of_mem _ he) hde f hf
          exact mem_noteAll_of_mem hlisted _
        · have hfc : Occurs f c := hf.trans (mem_preorder_iff.1 hd)
          exact hb.mem_noteAll hout hbelow f (mem_preorder_iff.2 hfc)

/-- Visiting a node lists what is new among its occurrences. -/
theorem Built.visit_eq_noteAll (hc : c ∈ nodes) (hout : ∀ d ∈ out, d ∈ nodes)
    (hclosed : ∀ d ∈ out, Occurs d c → ∀ e, Occurs e d → e ∈ out) :
    visit out c = noteAll out c.preorder := by
  induction c using inputs_induction generalizing out with
  | h id operator inputs ih =>
      rw [visit, preorder, noteAll_cons]
      by_cases hlisted : listed out id
      · -- All that is below has been listed with the node.
        have hmem := hb.mem_of_listed hout hc hlisted
        have hall := hclosed _ hmem .here
        rw [if_pos hlisted, note_of_listed hlisted, noteAll_of_mem]
        intro d hd
        obtain ⟨e, he, hd⟩ := mem_preorderAll.1 hd
        exact hall d (.input _ e he (mem_preorder_iff.1 hd))
      · rw [if_neg hlisted, note_of_new hlisted]
        refine hb.visitAll_eq_noteAll (fun d hd => hb.input_mem hc hd) ?_ ?_ ?_
        · intro d hd
          rcases List.mem_append.1 hd with hd | hd
          · exact hout d hd
          · rwa [List.mem_singleton.1 hd]
        · intro d hd e he hde f hf
          rcases List.mem_append.1 hd with hd | hd
          · exact List.mem_append_left _ (hclosed d hd (.input _ e he hde) f hf)
          · -- The node itself has just been listed, but it does not occur in its inputs.
            rw [List.mem_singleton.1 hd] at hde
            exact absurd hde (not_occurs_of_input he)
        · intro d hd out hout hclosed
          exact ih d hd (hb.input_mem hc hd) hout hclosed

/-- **The order of the walk** is that of first occurrences. -/
theorem Built.walk_eq_noteAll (hroot : root ∈ nodes) : root.walk = noteAll [] root.preorder := by
  rw [walk_eq_visit]
  exact hb.visit_eq_noteAll hroot (by simp) (by simp)

theorem Built.nodup_walk (hroot : root ∈ nodes) : (root.walk.map Constraint.id).Nodup := by
  rw [hb.walk_eq_noteAll hroot]
  exact nodup_noteAll (by simp) _

/-! ## Calls -/

/-- Listing some of the nodes only lists these of all nodes. -/
theorem Built.filter_noteAll (p : Constraint W → Bool) (hout : ∀ d ∈ out, d ∈ nodes)
    (hcs : ∀ d ∈ cs, d ∈ nodes) :
    (noteAll out cs).filter p = noteAll (out.filter p) (cs.filter p) := by
  induction cs generalizing out with
  | nil => rfl
  | cons c cs ih =>
      rw [List.forall_mem_cons] at hcs
      rw [noteAll_cons, ih (forall_mem_note hout hcs.1) hcs.2]
      cases hp : p c with
      | false =>
          rw [List.filter_cons_of_neg (by simp [hp])]
          by_cases hlisted : listed out c.id
          · rw [note_of_listed hlisted]
          · rw [note_of_new hlisted, List.filter_append, List.filter_cons_of_neg (by simp [hp]),
              List.filter_nil, List.append_nil]
      | true =>
          rw [List.filter_cons_of_pos hp, noteAll_cons]
          by_cases hlisted : listed out c.id
          · have hmem := hb.mem_of_listed hout hcs.1 hlisted
            have hkept : c ∈ out.filter p := List.mem_filter.2 ⟨hmem, hp⟩
            rw [note_of_listed hlisted, note_of_listed (listed_iff.2 ⟨c, hkept, rfl⟩)]
          · have hnew : ¬ listed (out.filter p) c.id := by
              rw [listed_iff] at hlisted ⊢
              rintro ⟨d, hd, hid⟩
              exact hlisted ⟨d, (List.mem_filter.1 hd).1, hid⟩
            rw [note_of_new hlisted, note_of_new hnew, List.filter_append,
              List.filter_cons_of_pos hp, List.filter_nil]

omit hb

/-- Whether a node makes a call. -/
def isCall (c : Constraint W) : Bool := c.call?.isSome

theorem collectCallsOfAll_eq (hcs : ∀ c ∈ cs, ∀ out : List (Constraint W),
    collectCalls out c = noteAll out (c.preorder.filter isCall)) (out : List (Constraint W)) :
    collectCallsOfAll out cs = noteAll out ((preorderAll cs).filter isCall) := by
  induction cs generalizing out with
  | nil => rfl
  | cons c cs ih =>
      rw [List.forall_mem_cons] at hcs
      rw [collectCallsOfAll, hcs.1, ih hcs.2, preorderAll, List.filter_append, noteAll_append]

/-- What is below connectives is all there is of calls: other nodes with inputs are patterns,
whose inputs are variables. -/
theorem collectCalls_eq (form : ∀ d, Occurs d c → Constructed d) (out : List (Constraint W)) :
    collectCalls out c = noteAll out (c.preorder.filter isCall) := by
  induction c using inputs_induction generalizing out with
  | h id operator inputs ih =>
      have hinputs : ∀ out : List (Constraint W), collectCallsOfAll out inputs =
          noteAll out ((preorderAll inputs).filter isCall) :=
        collectCallsOfAll_eq fun d hd out => ih d hd (fun e he => form e (.input _ d hd he)) out
      have hform := form _ .here
      cases hform with
      | all | any | negation =>
          rw [collectCalls, preorder,
            List.filter_cons_of_neg (by simp [isCall, call?, Constraint.operator])]
          exact hinputs out
      | reference | constant | pattern | call => rfl

include hb

/-- **The calls of the walk**, in its order. -/
theorem Built.inlineCalls_eq (hroot : root ∈ nodes) :
    root.inlineCalls = root.walk.filter isCall := by
  have hbelow : ∀ d ∈ root.preorder, d ∈ nodes :=
    fun d hd => hb.mem_of_occurs hroot (mem_preorder_iff.1 hd)
  rw [inlineCalls, collectCalls_eq fun d hd => hb.constructed_of_occurs hroot hd,
    hb.walk_eq_noteAll hroot, hb.filter_noteAll isCall (by simp) hbelow]
  rfl

end Built

end Constraint

end Guided
