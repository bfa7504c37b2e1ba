import Guided.Proofs.Constraint.Following

/-!
# What pattern leaves retain along a run

A state comes from a start by updates. Every branch of a program is such a sequence, and
branches that fork share its beginning. Along all of them what a leaf retains describes a
beginning of its variable's text, however far other graphs, and updates that no leaf
follows, have taken the text since. So evaluation never sees the difference between what is
retained and what following the whole text would give.

## Main definitions

* `Update`, `Update.Takes`, `Run`: updates of a state and sequences of them.
* `ProgramState.Tracks`: the invariant.

## Main statements

* `Run.tracks`: the invariant holds along every run.
* `Run.forward_eq_scratch`: evaluation agrees with evaluation from scratch, and a leaf
  retains what its last advance computed.
-/
namespace Guided

variable {W : Type}

namespace ProgramState

/-- What a leaf retains in the state describes a beginning of its variable's text. -/
def Tracks (nodes : List (Constraint W)) (s : ProgramState) : Prop :=
  ∀ c ∈ nodes, ∀ leaf, c.pattern? = some leaf → ∀ st, s.pattern? c.id = some st →
    ∃ v, s.find? leaf.variableName = some v ∧ st.Covers leaf v.text

/-- The state with nothing retained. -/
def forgetting (s : ProgramState) : ProgramState := { s with patterns := [] }

/-- What a state says about a leaf when nothing retained is looked at. -/
def freshResult (s : ProgramState) (id : NodeId) : Operator W → Except Error Eval
  | .pattern leaf => leaf.evaluateFresh s
  | operator => s.leafResult id operator

end ProgramState

/-- An update of a state. -/
inductive Update (W : Type) where
  | begin (name : String)
  | token (name token : String)
  | finish (name : String)
  | result (key : CallKey) (v : Value)
  | outright (name text : String) (finished : Bool)
  | follow (root : Constraint W) (name token : String)

namespace Update

/-- The update lets the leaves of a graph follow the variable. -/
def Follows (name : String) : Update W → Prop
  | follow _ followed _ => followed = name
  | _ => False

/-- What an update makes of a state. A variable is set outright only while no leaf on it
retains anything. Results are published at most once, and following a token can fail. -/
inductive Takes (nodes : List (Constraint W)) (s : ProgramState) :
    Update W → ProgramState → Prop
  | begin (name : String) : Takes nodes s (.begin name) (s.beginVariable name)
  | token (name token : String) : Takes nodes s (.token name token) (s.withToken name token)
  | finish (name : String) : Takes nodes s (.finish name) (s.finishVariable name)
  | result (key : CallKey) (v : Value) (next : ProgramState) (h : s.withResult key v = .ok next) :
      Takes nodes s (.result key v) next
  | outright (name text : String) (finished : Bool)
      (free : ∀ c ∈ nodes, ∀ leaf, c.pattern? = some leaf → leaf.variableName = name →
        s.pattern? c.id = none) :
      Takes nodes s (.outright name text finished) (s.withVariable name text finished)
  | follow (root : Constraint W) (name token : String) (mem : root ∈ nodes)
      (scheduler : Scheduler W) (eval : Eval) (next : ProgramState)
      (h : (root.follow s name token scheduler).1 = .ok (eval, next)) :
      Takes nodes s (.follow root name token) next

end Update

/-- States reached one from the other by a sequence of updates. -/
inductive Run (nodes : List (Constraint W)) :
    ProgramState → List (Update W) → ProgramState → Prop
  | done (s : ProgramState) : Run nodes s [] s
  | update (s next final : ProgramState) (u : Update W) (us : List (Update W))
      (step : u.Takes nodes s next) (rest : Run nodes next us final) :
      Run nodes s (u :: us) final

namespace ProgramState

variable {nodes : List (Constraint W)} {s : ProgramState}

theorem tracks_start (nodes : List (Constraint W)) (prompt : String) :
    (start prompt).Tracks nodes := by
  intro c _ leaf _ st hst
  simp [start, pattern?] at hst

/-- Leaves keep track of a variable whose text grows without them. -/
theorem Tracks.updateVariable (h : s.Tracks nodes) (name : String) (f : Variable → Variable)
    (hgrow : ∀ v, ∃ more, (f v).text = v.text ++ more) :
    (s.updateVariable name f).Tracks nodes := by
  intro c hc leaf hleaf st hst
  obtain ⟨v, hv, hcovers⟩ := h c hc leaf hleaf st hst
  obtain ⟨w, hw, more, hmore⟩ := s.find?_updateVariable_grows name f hgrow hv
  refine ⟨w, hw, ?_⟩
  rw [hmore]
  exact hcovers.append more

/-- A variable that no leaf tracks can be set to anything. -/
theorem Tracks.withVariable (h : s.Tracks nodes) (name text : String) (finished : Bool)
    (free : ∀ c ∈ nodes, ∀ leaf, c.pattern? = some leaf → leaf.variableName = name →
      s.pattern? c.id = none) :
    (s.withVariable name text finished).Tracks nodes := by
  intro c hc leaf hleaf st hst
  have hretained : s.pattern? c.id = some st := hst
  obtain ⟨v, hv, hcovers⟩ := h c hc leaf hleaf st hretained
  have hname : leaf.variableName ≠ name := by
    intro hname
    rw [free c hc leaf hleaf hname] at hretained
    simp at hretained
  exact ⟨v, by rw [ProgramState.withVariable, s.find?_updateVariable_of_ne hname, hv], hcovers⟩

theorem Tracks.withResult (h : s.Tracks nodes) {key : CallKey} {v : Value}
    {next : ProgramState} (hnext : s.withResult key v = .ok next) : next.Tracks nodes := by
  obtain ⟨results, rfl⟩ := s.exists_eq_of_withResult hnext
  exact h

end ProgramState

namespace Constraint

variable {nodes : List (Constraint W)} {s : ProgramState} {root : Constraint W}

theorem follow_eq_ok {name token : String} {scheduler : Scheduler W} {eval : Eval}
    {next : ProgramState} (h : (root.follow s name token scheduler).1 = .ok (eval, next)) :
    next = root.following s name token := by
  rw [follow] at h
  split at h
  · simp only [Except.ok.injEq, Prod.mk.injEq] at h
    exact h.2.symm
  · simp at h

/-- Leaves that follow a variable change nothing but what they retain. -/
theorem exists_following_eq (root : Constraint W) (s : ProgramState) (name token : String) :
    ∃ patterns, root.following s name token = { s.withToken name token with patterns } :=
  exists_advance_eq s name (((s.withToken name token).find? name).getD Variable.fresh).text
    root.walk (s.withToken name token)

/-- The text that leaves follow. -/
theorem find?_following (root : Constraint W) (s : ProgramState) (name token other : String) :
    (root.following s name token).find? other = (s.withToken name token).find? other := by
  obtain ⟨patterns, heq⟩ := root.exists_following_eq s name token
  rw [heq]
  rfl

/-- The leaves of the graph on the variable retain what following the whole text gives. -/
theorem Built.pattern?_following (hb : Built nodes) (htracks : s.Tracks nodes)
    (hroot : root ∈ nodes) {name : String} (token : String) {c : Constraint W} (hc : c ∈ root.walk)
    {leaf : PatternLeaf} (hleaf : c.pattern? = some leaf) (hname : leaf.variableName = name) :
    ∃ v, (root.following s name token).find? name = some v ∧
      (root.following s name token).pattern? c.id = some (leaf.followFresh v.text) := by
  have hmem : ∀ d ∈ root.walk, d ∈ nodes := fun d hd => hb.mem_of_mem_walk hroot hd
  have hids : ∀ d ∈ root.walk, ∀ e ∈ root.walk, d.id = e.id → d = e :=
    fun d hd e he => hb.eq_of_id_eq (hmem d hd) (hmem e he)
  obtain ⟨v, hv⟩ : ∃ v, (s.withToken name token).find? name = some v :=
    ⟨_, s.find?_withToken_self name token⟩
  refine ⟨v, by rw [find?_following, hv], ?_⟩
  have hcovers : ∀ st, s.pattern? c.id = some st → st.Covers leaf v.text := by
    intro st hst
    obtain ⟨w, hw, hcovers⟩ := htracks c (hmem c hc) leaf hleaf st hst
    rw [hname] at hw
    have htext : v.text = w.text ++ token := by
      rw [s.find?_withToken_self, hw, Option.getD_some, Option.some.injEq] at hv
      rw [← hv]
    rw [htext]
    exact hcovers.append token
  rw [following, hv, Option.getD_some, pattern?_advance_of_mem hids hc hleaf hname,
    PatternLeaf.follow_of_covers hcovers]

/-- A leaf that is not on the variable followed, or not in the graph, retains what it did. -/
theorem pattern?_following_of_forall_ne (s : ProgramState) {name token : String} {id : NodeId}
    (h : ∀ c ∈ root.walk, ∀ leaf, c.pattern? = some leaf → leaf.variableName = name →
      c.id ≠ id) :
    (root.following s name token).pattern? id = s.pattern? id := by
  rw [following, pattern?_advance_of_forall_ne root.walk _ h]
  rfl

theorem Built.tracks_following (hb : Built nodes) (htracks : s.Tracks nodes)
    (hroot : root ∈ nodes) (name token : String) :
    (root.following s name token).Tracks nodes := by
  intro c hc leaf hleaf st hst
  by_cases hfollowed : c ∈ root.walk ∧ leaf.variableName = name
  · obtain ⟨hwalk, hname⟩ := hfollowed
    obtain ⟨v, hv, hretained⟩ := hb.pattern?_following htracks hroot token hwalk hleaf hname
    rw [hst, Option.some.injEq] at hretained
    exact ⟨v, hname ▸ hv, hretained ▸ PatternState.covers_followFresh leaf v.text⟩
  · have hothers : ∀ d ∈ root.walk, ∀ leaf', d.pattern? = some leaf' →
        leaf'.variableName = name → d.id ≠ c.id := by
      intro d hd leaf' hleaf' hname hid
      obtain rfl := hb.eq_of_id_eq (hb.mem_of_mem_walk hroot hd) hc hid
      rw [hleaf, Option.some.injEq] at hleaf'
      exact hfollowed ⟨hd, hleaf' ▸ hname⟩
    rw [pattern?_following_of_forall_ne s hothers] at hst
    have hgrown : (s.withToken name token).Tracks nodes :=
      htracks.updateVariable name _ fun v => ⟨token, rfl⟩
    obtain ⟨v, hv, hcovers⟩ := hgrown c hc leaf hleaf st hst
    exact ⟨v, by rw [find?_following, hv], hcovers⟩

end Constraint

namespace Update

variable {nodes : List (Constraint W)} {s next : ProgramState} {u : Update W}

/-- One update keeps the invariant. -/
theorem Takes.tracks (hb : Constraint.Built nodes) (h : u.Takes nodes s next)
    (htracks : s.Tracks nodes) : next.Tracks nodes := by
  cases h with
  | begin name => exact htracks.updateVariable name id fun v => ⟨"", by simp⟩
  | token name token => exact htracks.updateVariable name _ fun v => ⟨token, rfl⟩
  | finish name => exact htracks.updateVariable name _ fun v => ⟨"", by simp⟩
  | result key v next hnext => exact htracks.withResult hnext
  | outright name text finished free => exact htracks.withVariable name text finished free
  | follow root name token hroot scheduler eval next hnext =>
      rw [Constraint.follow_eq_ok hnext]
      exact hb.tracks_following htracks hroot name token

/-- An update that does not follow the variable of a leaf leaves alone what it retains. -/
theorem Takes.pattern?_eq (hb : Constraint.Built nodes) (h : u.Takes nodes s next)
    {c : Constraint W} (hc : c ∈ nodes) {leaf : PatternLeaf} (hleaf : c.pattern? = some leaf)
    (hnot : ¬ u.Follows leaf.variableName) : next.pattern? c.id = s.pattern? c.id := by
  cases h with
  | begin | token | finish | outright => rfl
  | result key v next hnext =>
      obtain ⟨results, rfl⟩ := s.exists_eq_of_withResult hnext
      rfl
  | follow root name token hroot scheduler eval next hnext =>
      rw [Constraint.follow_eq_ok hnext]
      refine Constraint.pattern?_following_of_forall_ne s ?_
      intro d hd leaf' hleaf' hname hid
      obtain rfl := hb.eq_of_id_eq (hb.mem_of_mem_walk hroot hd) hc hid
      rw [hleaf, Option.some.injEq] at hleaf'
      exact hnot (hleaf' ▸ hname.symm)

end Update

namespace Run

variable {nodes : List (Constraint W)} {s final : ProgramState} {us : List (Update W)}

/-- The invariant holds along every run. -/
theorem tracks (hb : Constraint.Built nodes) (h : Run nodes s us final)
    (htracks : s.Tracks nodes) : final.Tracks nodes := by
  induction h with
  | done s => exact htracks
  | update s next final u us step _ ih => exact ih (step.tracks hb htracks)

/-- A run that does not follow the variable of a leaf leaves alone what it retains. -/
theorem pattern?_eq (hb : Constraint.Built nodes) (h : Run nodes s us final)
    {c : Constraint W} (hc : c ∈ nodes) {leaf : PatternLeaf} (hleaf : c.pattern? = some leaf)
    (hnot : ∀ u ∈ us, ¬ u.Follows leaf.variableName) :
    final.pattern? c.id = s.pattern? c.id := by
  induction h with
  | done s => rfl
  | update s next final u us step _ ih =>
      rw [ih fun v hv => hnot v (List.mem_cons_of_mem _ hv)]
      exact step.pattern?_eq hb hc hleaf (hnot u List.mem_cons_self)

end Run

namespace ProgramState

variable {nodes : List (Constraint W)} {s : ProgramState}

/-- In a state that tracks its leaves, a leaf says what it says from the whole text. -/
theorem Tracks.evaluate_eq (h : s.Tracks nodes) {c : Constraint W} (hc : c ∈ nodes)
    {leaf : PatternLeaf} (hleaf : c.pattern? = some leaf) :
    leaf.evaluate c.id s = leaf.evaluateFresh s := by
  refine PatternLeaf.evaluate_eq_evaluateFresh ?_
  intro v hv st hst
  obtain ⟨w, hw, hcovers⟩ := h c hc leaf hleaf st hst
  rw [hv, Option.some.injEq] at hw
  exact hw ▸ hcovers

theorem Tracks.leafResult_eq (h : s.Tracks nodes) {c : Constraint W} (hc : c ∈ nodes) :
    s.leafResult c.id c.operator = s.freshResult c.id c.operator := by
  obtain ⟨id, operator, inputs⟩ := c
  cases operator with
  | pattern leaf => exact h.evaluate_eq hc rfl
  | _ => rfl

/-- Forgetting what is retained changes nothing that any node does. -/
theorem Tracks.apply_forgetting (h : s.Tracks nodes) {c : Constraint W} (hc : c ∈ nodes)
    (truths : List Bool) (scheduler : Scheduler W) :
    c.operator.apply c.id s truths scheduler =
      c.operator.apply c.id s.forgetting truths scheduler := by
  obtain ⟨id, operator, inputs⟩ := c
  cases operator with
  | pattern leaf =>
      have hfresh : leaf.evaluate id s.forgetting = leaf.evaluateFresh s.forgetting :=
        PatternLeaf.evaluate_eq_evaluateFresh fun v _ st hst => by simp [forgetting, pattern?] at hst
      have hleaf : leaf.evaluate id s = leaf.evaluateFresh s := h.evaluate_eq hc rfl
      simp only [Constraint.operator, Constraint.id, Operator.apply, hleaf, hfresh]
      rfl
  | _ => rfl

end ProgramState

/-- **Evaluation agrees with evaluation from scratch.** In every state that a run from a
start reaches, every graph evaluates to what recursion gives when each pattern leaf is
computed from the whole text of its variable, and it asks for the nested runs it would ask
for if nothing were retained. After a graph has followed a token, each of its leaves on
the variable retains the size of the text and its residual, until the variable is followed
again. -/
theorem Run.forward_eq_scratch {nodes : List (Constraint W)} (hb : Constraint.Built nodes)
    {prompt : String} {us : List (Update W)} {s : ProgramState}
    (h : Run nodes (ProgramState.start prompt) us s) :
    (∀ root ∈ nodes, ∀ scheduler : Scheduler W,
      (root.forward s scheduler).1 = root.result s.freshResult ∧
        root.forward s scheduler = root.forward s.forgetting scheduler) ∧
    ∀ root ∈ nodes, ∀ name token next,
      (Update.follow root name token).Takes nodes s next →
        ∀ later final, Run nodes next later final → (∀ u ∈ later, ¬ u.Follows name) →
          ∀ c ∈ root.walk, ∀ leaf, c.pattern? = some leaf → leaf.variableName = name →
            ∃ v, next.find? name = some v ∧
              final.pattern? c.id = some ⟨v.text.utf8ByteSize, leaf.regex.residual v.text⟩ := by
  have htracks : s.Tracks nodes := h.tracks hb (ProgramState.tracks_start nodes prompt)
  constructor
  · intro root hroot scheduler
    have hmem : ∀ c, Constraint.Occurs c root → c ∈ nodes := fun c hc =>
      hb.mem_of_occurs hroot hc
    constructor
    · rw [hb.forward_eq_result hroot]
      exact Constraint.result_congr root fun c hc => htracks.leafResult_eq (hmem c hc)
    · rw [Constraint.forward, Constraint.forward,
        Constraint.evaluate_congr root ⟨[], scheduler⟩ fun c hc =>
          htracks.apply_forgetting (hmem c hc)]
  · intro root hroot name token next hnext later final hlater hnot c hc leaf hleaf hname
    cases hnext with
    | follow _ _ _ _ scheduler eval next hok =>
        obtain ⟨v, hv, hretained⟩ :=
          hb.pattern?_following htracks hroot token hc hleaf hname
        rw [Constraint.follow_eq_ok hok] at hlater ⊢
        refine ⟨v, hv, ?_⟩
        rw [hlater.pattern?_eq hb (hb.mem_of_mem_walk hroot hc) hleaf (hname ▸ hnot), hretained,
          PatternLeaf.followFresh]

/-- Two graphs that share a leaf, between whose turns the text grows by itself: the second
one finds a retained state that lags behind. -/
theorem Run.forward_eq_scratch_behind :
    ∃ s, Run [Sample.both, Sample.leaf, Sample.input] (ProgramState.start "")
        [.follow Sample.leaf "X" "a", .token "X" "a", .follow Sample.both "X" "b"] s ∧
      ∀ scheduler, (Sample.both.forward s scheduler).1 = Sample.both.result s.freshResult := by
  let scheduler : Scheduler Unit := .empty
  let s₁ := Sample.leaf.following (ProgramState.start "") "X" "a"
  let s₂ := s₁.withToken "X" "a"
  let s₃ := Sample.both.following s₂ "X" "b"
  have hfirst : (Sample.leaf.follow (ProgramState.start "") "X" "a" scheduler).1 =
      .ok (.ofBool true, s₁) := by
    simp only [s₁, Constraint.follow, Constraint.following, Sample.walk_leaf]
    rfl
  have hsecond : (Sample.both.follow s₂ "X" "b" scheduler).1 = .ok (.ofBool true, s₃) := by
    simp only [s₁, s₂, s₃, Constraint.follow, Constraint.following, Sample.walk_leaf,
      Sample.walk_both]
    rfl
  have hrun : Run [Sample.both, Sample.leaf, Sample.input] (ProgramState.start "")
      [.follow Sample.leaf "X" "a", .token "X" "a", .follow Sample.both "X" "b"] s₃ :=
    .update _ s₁ _ _ _ (.follow _ _ _ (by simp) scheduler _ _ hfirst) <|
      .update _ s₂ _ _ _ (.token _ _) <|
        .update _ s₃ _ _ _ (.follow _ _ _ (by simp) scheduler _ _ hsecond) (.done _)
  have hscratch := (Run.forward_eq_scratch Sample.built_both hrun).1 Sample.both (by simp)
  exact ⟨s₃, hrun, fun scheduler => (hscratch scheduler).1⟩

end Guided
