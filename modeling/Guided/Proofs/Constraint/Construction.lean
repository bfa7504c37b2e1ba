import Guided.Constraint.Traversal

/-!
# Graphs made by the constructors

Constraints are made one node at a time, out of nodes made before and under an identity
that none of them has. Of nodes made this way two with one identity are the same node, so
that what is kept under an identity is about one node only, and the walk from a node lists
exactly the nodes that occur below it.

## Main definitions

* `Constraint.Constructed`: the nodes that the constructors make.
* `Constraint.Built`: nodes made one after the other.
* `Constraint.Occurs`: being a node or one below it.

## Main statements

* `Constraint.inputs_induction`: induction over a constraint, from inputs to nodes.
* `Built.eq_of_id_eq`: identities tell nodes apart.
* `Built.mem_walk_iff`: the walk lists the nodes that occur.
-/
namespace Guided

namespace Constraint

variable {W : Type}

/-- A node of the form that one of the constructors gives it. -/
inductive Constructed : Constraint W → Prop
  | all (id : NodeId) (operands : List (Constraint W)) : Constructed (all id operands)
  | any (id : NodeId) (operands : List (Constraint W)) : Constructed (any id operands)
  | negation (id : NodeId) (operand : Constraint W) : Constructed (negation id operand)
  | reference (id : NodeId) (name : String) : Constructed (reference id name)
  | constant (id : NodeId) (v : Value) : Constructed (constant id v)
  | pattern (id inputId : NodeId) (variableName : String) (regex : Regex) :
      Constructed (pattern id inputId variableName regex)
  | call (id : NodeId) (inlineCall : InlineCall W) : Constructed (call id inlineCall)

/-- Nodes made one after the other, the last one first. The inputs of a node are made
before it, and its identity is new. -/
inductive Built : List (Constraint W) → Prop
  | none : Built []
  | make (c : Constraint W) (made : List (Constraint W)) (form : Constructed c)
      (inputs : ∀ d ∈ c.inputs, d ∈ made) (fresh : ∀ d ∈ made, d.id ≠ c.id)
      (earlier : Built made) : Built (c :: made)

/-- A node occurs in itself and in every node that it is an input of, however deep. -/
inductive Occurs (c : Constraint W) : Constraint W → Prop
  | here : Occurs c c
  | input (root d : Constraint W) (mem : d ∈ root.inputs) (below : Occurs c d) : Occurs c root

/-- What passes from the inputs of a node to the node holds of every constraint. -/
@[elab_as_elim]
theorem inputs_induction {P : Constraint W → Prop}
    (h : ∀ id operator inputs, (∀ c ∈ inputs, P c) → P (node id operator inputs)) :
    ∀ c, P c
  | node id operator inputs => h id operator inputs fun c _ => inputs_induction h c

theorem Occurs.of_input {c d root : Constraint W} (h : Occurs d root) (hc : c ∈ d.inputs) :
    Occurs c root := by
  induction h with
  | here => exact .input _ c hc .here
  | input root e hmem _ ih => exact .input root e hmem ih

variable {nodes : List (Constraint W)}

theorem Built.constructed (hb : Built nodes) {c : Constraint W} (hc : c ∈ nodes) :
    Constructed c := by
  induction hb with
  | none => simp at hc
  | make d made form _ _ _ ih =>
      rcases List.mem_cons.1 hc with rfl | hc
      · exact form
      · exact ih hc

theorem Built.input_mem (hb : Built nodes) {c d : Constraint W} (hc : c ∈ nodes)
    (hd : d ∈ c.inputs) : d ∈ nodes := by
  induction hb with
  | none => simp at hc
  | make e made _ inputs _ _ ih =>
      rcases List.mem_cons.1 hc with rfl | hc
      · exact List.mem_cons_of_mem _ (inputs d hd)
      · exact List.mem_cons_of_mem _ (ih hc)

/-- Identities tell nodes apart. -/
theorem Built.eq_of_id_eq (hb : Built nodes) {c d : Constraint W} (hc : c ∈ nodes)
    (hd : d ∈ nodes) (hid : c.id = d.id) : c = d := by
  induction hb with
  | none => simp at hc
  | make e made _ _ fresh _ ih =>
      rcases List.mem_cons.1 hc with hce | hcm <;> rcases List.mem_cons.1 hd with hde | hdm
      · rw [hce, hde]
      · exact absurd (hce ▸ hid).symm (fresh d hdm)
      · exact absurd (hde ▸ hid) (fresh c hcm)
      · exact ih hcm hdm

theorem Built.mem_of_occurs (hb : Built nodes) {c root : Constraint W} (hroot : root ∈ nodes)
    (h : Occurs c root) : c ∈ nodes := by
  induction h with
  | here => exact hroot
  | input root d hmem _ ih => exact ih (hb.input_mem hroot hmem)

theorem Built.constructed_of_occurs (hb : Built nodes) {c root : Constraint W}
    (hroot : root ∈ nodes) (h : Occurs c root) : Constructed c :=
  hb.constructed (hb.mem_of_occurs hroot h)

/-! ## The walk -/

theorem listed_iff {out : List (Constraint W)} {id : NodeId} :
    listed out id = true ↔ ∃ c ∈ out, c.id = id := by
  simp [listed]

/-- Whatever holds of the nodes on the stack and passes on to inputs holds of the nodes
that the walk adds. -/
theorem forall_mem_walkFrom {P : Constraint W → Prop}
    (hinput : ∀ c, P c → ∀ d ∈ c.inputs, P d) (stack out : List (Constraint W))
    (hstack : ∀ c ∈ stack, P c) (hout : ∀ c ∈ out, P c) : ∀ c ∈ walkFrom stack out, P c := by
  fun_induction walkFrom stack out with
  | case1 out => exact hout
  | case2 out id operator inputs rest _ ih =>
      exact ih (fun c hc => hstack c (List.mem_cons_of_mem _ hc)) hout
  | case3 out id operator inputs rest _ ih =>
      have hnode : P (node id operator inputs) := hstack _ List.mem_cons_self
      refine ih ?_ ?_
      · intro c hc
        rcases List.mem_append.1 hc with hc | hc
        · exact hinput _ hnode c hc
        · exact hstack c (List.mem_cons_of_mem _ hc)
      · intro c hc
        rcases List.mem_append.1 hc with hc | hc
        · exact hout c hc
        · rwa [List.mem_singleton.1 hc]

theorem mem_walkFrom_of_mem_out (stack out : List (Constraint W)) {c : Constraint W}
    (hc : c ∈ out) : c ∈ walkFrom stack out := by
  fun_induction walkFrom stack out with
  | case1 out => exact hc
  | case2 out id operator inputs rest _ ih => exact ih hc
  | case3 out id operator inputs rest _ ih => exact ih (List.mem_append_left _ hc)

/-- A node that is passed over has been listed itself, not just one of its identity. -/
theorem Built.mem_of_listed (hb : Built nodes) {out : List (Constraint W)} {c : Constraint W}
    (hout : ∀ d ∈ out, d ∈ nodes) (hc : c ∈ nodes) (h : listed out c.id = true) : c ∈ out := by
  obtain ⟨d, hd, hid⟩ := listed_iff.1 h
  rwa [← hb.eq_of_id_eq (hout d hd) hc hid]

/-- What the stack holds is listed in the end, and the list is closed under inputs if the
inputs of the nodes listed so far are listed or on the stack. -/
theorem Built.walkFrom_closed (hb : Built nodes) (stack out : List (Constraint W))
    (hstack : ∀ c ∈ stack, c ∈ nodes) (hout : ∀ c ∈ out, c ∈ nodes)
    (hinputs : ∀ c ∈ out, ∀ d ∈ c.inputs, d ∈ out ∨ d ∈ stack) :
    (∀ c ∈ stack, c ∈ walkFrom stack out) ∧
      ∀ c ∈ walkFrom stack out, ∀ d ∈ c.inputs, d ∈ walkFrom stack out := by
  fun_induction walkFrom stack out with
  | case1 out => exact ⟨by simp, fun c hc d hd => by simpa using hinputs c hc d hd⟩
  | case2 out id operator inputs rest hlisted ih =>
      have hnode := hb.mem_of_listed hout (hstack _ List.mem_cons_self) hlisted
      have hrest : ∀ c ∈ rest, c ∈ nodes := fun c hc => hstack c (List.mem_cons_of_mem _ hc)
      obtain ⟨hmem, hclosed⟩ := ih hrest hout fun c hc d hd => by
        rcases hinputs c hc d hd with hd | hd
        · exact .inl hd
        · rcases List.mem_cons.1 hd with rfl | hd
          · exact .inl hnode
          · exact .inr hd
      refine ⟨?_, hclosed⟩
      intro c hc
      rcases List.mem_cons.1 hc with rfl | hc
      · exact mem_walkFrom_of_mem_out rest out hnode
      · exact hmem c hc
  | case3 out id operator inputs rest _ ih =>
      have hnode : node id operator inputs ∈ nodes := hstack _ List.mem_cons_self
      have hnext : ∀ c ∈ inputs ++ rest, c ∈ nodes := by
        intro c hc
        rcases List.mem_append.1 hc with hc | hc
        · exact hb.input_mem hnode hc
        · exact hstack c (List.mem_cons_of_mem _ hc)
      have hlist : ∀ c ∈ out ++ [node id operator inputs], c ∈ nodes := by
        intro c hc
        rcases List.mem_append.1 hc with hc | hc
        · exact hout c hc
        · rwa [List.mem_singleton.1 hc]
      obtain ⟨hmem, hclosed⟩ := ih hnext hlist fun c hc d hd => by
        rcases List.mem_append.1 hc with hc | hc
        · rcases hinputs c hc d hd with hd | hd
          · exact .inl (List.mem_append_left _ hd)
          · rcases List.mem_cons.1 hd with rfl | hd
            · exact .inl (List.mem_append_right _ List.mem_cons_self)
            · exact .inr (List.mem_append_right _ hd)
        · rw [List.mem_singleton.1 hc] at hd
          exact .inr (List.mem_append_left _ hd)
      refine ⟨?_, hclosed⟩
      intro c hc
      rcases List.mem_cons.1 hc with rfl | hc
      · exact mem_walkFrom_of_mem_out _ _ (List.mem_append_right _ List.mem_cons_self)
      · exact hmem c (List.mem_append_right _ hc)

/-- The walk lists nodes that occur, whatever their identities are. -/
theorem occurs_of_mem_walk {c root : Constraint W} (hc : c ∈ root.walk) : Occurs c root := by
  have hroot : ∀ d ∈ [root], Occurs d root := by
    intro d hd
    rw [List.mem_singleton.1 hd]
    exact .here
  exact forall_mem_walkFrom (P := fun d => Occurs d root)
    (fun d hd e he => hd.of_input he) [root] [] hroot (by simp) c hc

/-- The walk lists the nodes that occur. -/
theorem Built.mem_walk_iff (hb : Built nodes) {c root : Constraint W} (hroot : root ∈ nodes) :
    c ∈ root.walk ↔ Occurs c root := by
  have hstack : ∀ d ∈ [root], d ∈ nodes := by simpa using hroot
  obtain ⟨hmem, hclosed⟩ := hb.walkFrom_closed [root] [] hstack (by simp) (by simp)
  constructor
  · exact occurs_of_mem_walk
  · intro h
    -- A walk that lists a node lists everything that occurs in it.
    have hbelow : ∀ d, Occurs c d → d ∈ root.walk → c ∈ root.walk := by
      intro d hd
      induction hd with
      | here => exact fun hc => hc
      | input e d hde _ ih => exact fun he => ih (hclosed e he d hde)
    exact hbelow root h (hmem root List.mem_cons_self)

theorem Built.mem_of_mem_walk (hb : Built nodes) {c root : Constraint W} (hroot : root ∈ nodes)
    (hc : c ∈ root.walk) : c ∈ nodes :=
  hb.mem_of_occurs hroot ((hb.mem_walk_iff hroot).1 hc)

end Constraint

/-! ## A small graph

The graph of one pattern and one connective, for the cases of general statements that
later modules show. -/
namespace Sample

/-- The variable of the pattern. -/
def input : Constraint Unit := .reference ⟨"X", 0⟩ "X"

/-- The pattern `a+b`. -/
def leaf : Constraint Unit :=
  .pattern ⟨"a+b", 1⟩ ⟨"X", 0⟩ "X" ⟨"a+b", [.repetition 1 none [.literal 'a'], .literal 'b']⟩

/-- The pattern, on a text that is not empty. -/
def both : Constraint Unit := .all ⟨"all", 2⟩ [leaf, input]

theorem walk_leaf : leaf.walk = [leaf, input] := by
  simp [Constraint.walk, Constraint.walkFrom, Constraint.listed, Constraint.id, leaf, input,
    Constraint.pattern, Constraint.reference]

theorem walk_both : both.walk = [both, leaf, input] := by
  simp [Constraint.walk, Constraint.walkFrom, Constraint.listed, Constraint.id, both, leaf, input,
    Constraint.all, Constraint.pattern, Constraint.reference]

theorem built_leaf : Constraint.Built [leaf, input] := by
  have hinput : Constraint.Built [input] :=
    .make input [] (.reference _ _) (by simp [input, Constraint.reference, Constraint.inputs])
      (by simp) .none
  exact .make leaf [input] (.pattern _ _ _ _)
    (by simp [leaf, input, Constraint.pattern, Constraint.inputs])
    (by simp [leaf, input, Constraint.pattern, Constraint.reference, Constraint.id]) hinput

theorem built_both : Constraint.Built [both, leaf, input] :=
  .make both [leaf, input] (.all _ _) (by simp [both, Constraint.all, Constraint.inputs])
    (by simp [both, leaf, input, Constraint.all, Constraint.pattern, Constraint.reference,
      Constraint.id]) built_leaf

end Sample

end Guided
