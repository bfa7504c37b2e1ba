import Guided.Proofs.Engine.Log

/-!
# Runs that cannot be told apart

A run looks at its bench in two places only: where a state is judged and where the final value
is taken. If two benches give the same answers there, and go on to do so afterwards, then they
give the same run. In both places rounds are taken and runs of the engine's own calls are asked
for, and nothing else happens to the bench. So whatever these keep is kept by a whole run.

## Main definitions

* `Engine.Simulates`: a relation of benches that no question of a run can tell apart.
* `Constraint.Keeps`: what rounds and evaluations under a prompt keep.

## Main statements

* `Engine.Simulates.run_eq`: related benches give the same run.
* `Constraint.Keeps.run`: what is kept by every run.
-/
namespace Guided

variable {W : Type}

namespace Engine

/-- Whatever an engine asks about states with a property, related benches answer alike and stay
related. The property stays with the states that a run goes through. -/
structure Simulates (e : Engine W) (Inv : ProgramState → Prop)
    (R : Bench W → Bench W → Prop) : Prop where
  following : ∀ s text, Inv s → Inv (e.root.following s e.variableName text)
  finished : ∀ s, Inv s → Inv (s.finishVariable e.variableName)
  judged : ∀ s b eval t, Inv s → (e.judge s b).1 = .ok (eval, t) → Inv t
  judge : ∀ s b b', Inv s → R b b' →
    (e.judge s b).1 = (e.judge s b').1 ∧ R (e.judge s b).2 (e.judge s b').2
  values : ∀ s b b', Inv s → R b b' →
    (e.root.finalValues s [e.variableName] b.scheduler).1 =
      (e.root.finalValues s [e.variableName] b'.scheduler).1 ∧
    R (b.withScheduler (e.root.finalValues s [e.variableName] b.scheduler).2)
      (b'.withScheduler (e.root.finalValues s [e.variableName] b'.scheduler).2)

/-- Two parts of runs have come to the same answer and progress, on benches that are related
still. -/
structure Alike {α : Type} (Inv : ProgramState → Prop) (R : Bench W → Bench W → Prop)
    (left right : α × Progress × Bench W) : Prop where
  answer : left.1 = right.1
  progress : left.2.1 = right.2.1
  bench : R left.2.2 right.2.2
  inv : Inv left.2.1.state

theorem Alike.exists_eq {α : Type} {Inv : ProgramState → Prop} {R : Bench W → Bench W → Prop}
    {left right : α × Progress × Bench W} (h : Alike Inv R left right) :
    ∃ answer p b b', left = (answer, p, b) ∧ right = (answer, p, b') ∧ R b b' ∧ Inv p.state := by
  obtain ⟨answer, p, b⟩ := left
  obtain ⟨answer', p', b'⟩ := right
  obtain ⟨hanswer, hprogress, hbench, hinv⟩ := h
  obtain rfl : answer = answer' := hanswer
  obtain rfl : p = p' := hprogress
  exact ⟨answer, p, b, b', rfl, rfl, hbench, hinv⟩

namespace Simulates

variable {e : Engine W} {Inv : ProgramState → Prop} {R : Bench W → Bench W → Prop}
  {s : ProgramState} {p : Progress} {b b' : Bench W}

/-- A state is judged alike on both benches. -/
theorem exists_judge_eq (h : e.Simulates Inv R) (hinv : Inv s) (hR : R b b') :
    ∃ answer b₁ b₁', e.judge s b = (answer, b₁) ∧ e.judge s b' = (answer, b₁') ∧ R b₁ b₁' ∧
      ∀ eval t, answer = .ok (eval, t) → Inv t := by
  obtain ⟨hanswer, hbench⟩ := h.judge s b b' hinv hR
  refine ⟨(e.judge s b).1, _, _, rfl, ?_, hbench, fun eval t => h.judged s b eval t hinv⟩
  exact Prod.ext hanswer.symm rfl

/-- One event. -/
theorem take_alike (h : e.Simulates Inv R) (hinv : Inv p.state) (hR : R b b')
    (event : TokenEvent) : Alike Inv R (e.take event p b) (e.take event p b') := by
  rw [take, take]
  split
  · exact ⟨rfl, rfl, hR, hinv⟩
  · have hnext := h.following p.state (event.text.getD "") hinv
    obtain ⟨answer, b₁, b₁', hleft, hright, hbench, hjudged⟩ := h.exists_judge_eq hnext hR
    rw [tryText_eq_judge, tryText_eq_judge, hleft, hright]
    rcases answer with err | ⟨eval, next⟩
    · exact ⟨rfl, rfl, hbench, hinv⟩
    · dsimp only
      split
      · exact ⟨rfl, rfl, hbench, hinv⟩
      · exact ⟨rfl, rfl, hbench, hjudged eval next rfl⟩

/-- All events, one after the other. -/
theorem consume_alike (h : e.Simulates Inv R) (hinv : Inv p.state) (hR : R b b')
    (events : List TokenEvent) : Alike Inv R (e.consume events p b) (e.consume events p b') := by
  induction events generalizing p b b' with
  | nil => exact ⟨rfl, rfl, hR, hinv⟩
  | cons event rest ih =>
      rw [consume, consume]
      split
      · exact ⟨rfl, rfl, hR, hinv⟩
      · obtain ⟨answer, p₁, b₁, b₁', hleft, hright, hbench, hnext⟩ :=
          (h.take_alike hinv hR event).exists_eq
        rw [hleft, hright]
        rcases answer with err | _ | reason
        · exact ⟨rfl, rfl, hbench, hnext⟩
        · exact ih hnext hbench
        · exact ⟨rfl, rfl, hbench, hnext⟩

theorem generate_alike (h : e.Simulates Inv R) (hinv : Inv (s.beginVariable e.variableName))
    (hR : R b b') (events : List TokenEvent) :
    Alike Inv R (e.generate s events b) (e.generate s events b') := by
  obtain ⟨answer, b₁, b₁', hleft, hright, hbench, hjudged⟩ := h.exists_judge_eq hinv hR
  rw [generate, generate, hleft, hright]
  rcases answer with err | ⟨eval, t⟩
  · exact ⟨rfl, rfl, hbench, hinv⟩
  · have ht := hjudged eval t rfl
    dsimp only
    split
    · exact ⟨rfl, rfl, hbench, ht⟩
    · exact h.consume_alike ht hbench events

theorem finish_alike (h : e.Simulates Inv R) (hinv : Inv s) (hR : R b b')
    (reason : FinishReason) : (e.finish s reason b).1 = (e.finish s reason b').1 ∧
      R (e.finish s reason b).2 (e.finish s reason b').2 := by
  obtain ⟨answer, b₁, b₁', hleft, hright, hbench, hjudged⟩ :=
    h.exists_judge_eq (h.finished s hinv) hR
  rw [finish, finish, hleft, hright]
  rcases answer with err | ⟨eval, t⟩
  · exact ⟨rfl, hbench⟩
  · obtain ⟨hvalues, hlast⟩ := h.values t b₁ b₁' (hjudged eval t rfl) hbench
    dsimp only
    split
    · generalize e.root.finalValues t [e.variableName] b₁.scheduler = left at hvalues hlast ⊢
      generalize e.root.finalValues t [e.variableName] b₁'.scheduler = right at hvalues hlast ⊢
      obtain ⟨answer, scheduler⟩ := left
      obtain ⟨answer', scheduler'⟩ := right
      obtain rfl : answer = answer' := hvalues
      cases answer with
      | error err => exact ⟨rfl, hlast⟩
      | ok values => exact ⟨rfl, hlast⟩
    · exact ⟨rfl, hbench⟩

/-- **Related benches give the same run.** -/
theorem run_eq (h : e.Simulates Inv R) (hinv : Inv (s.beginVariable e.variableName))
    (hR : R b b') (events : List TokenEvent) :
    (e.run s events b).1 = (e.run s events b').1 ∧
      (e.run s events b).2.1 = (e.run s events b').2.1 ∧
      R (e.run s events b).2.2 (e.run s events b').2.2 := by
  obtain ⟨answer, p, b₁, b₁', hleft, hright, hbench, hlast⟩ :=
    (h.generate_alike hinv hR events).exists_eq
  rw [run, run, hleft, hright]
  rcases answer with err | reason
  · exact ⟨rfl, rfl, hbench⟩
  · obtain ⟨houtcome, hended⟩ := h.finish_alike hlast hbench reason
    dsimp only
    generalize e.finish p.state reason b₁ = left at houtcome hended ⊢
    generalize e.finish p.state reason b₁' = right at houtcome hended ⊢
    obtain ⟨outcome, b₂⟩ := left
    obtain ⟨outcome', b₂'⟩ := right
    obtain rfl : outcome = outcome' := houtcome
    cases outcome with
    | error err => exact ⟨rfl, rfl, hended⟩
    | ok outcome => exact ⟨rfl, rfl, hended⟩

end Simulates

end Engine

/-! ## What a run keeps -/

/-- A property of benches that rounds keep, and evaluations under a prompt. -/
structure Constraint.Keeps (root : Constraint W) (prompt : String) (P : Bench W → Prop) :
    Prop where
  askAll : ∀ b calls, (∀ call ∈ calls, root.Calls call) → P b →
    P { b with scheduler := b.scheduler.askAll prompt calls }
  round : ∀ b, P b → P b.runPending.2

namespace Constraint.Keeps

variable {root : Constraint W} {e : Engine W} {prompt : String} {P : Bench W → Prop}
  {s : ProgramState} {b : Bench W}

theorem forwardOn (h : root.Keeps prompt P) (hs : s.prompt = prompt) (hP : P b) :
    P (root.forwardOn s b).2 := by
  obtain ⟨answer, calls, hcalls, -, heq⟩ := root.exists_askAll_forward s
  rw [Constraint.forwardOn, heq, hs]
  exact h.askAll b calls hcalls hP

theorem finalValues (h : root.Keeps prompt P) (hs : s.prompt = prompt) (hP : P b)
    (name : String) : P (b.withScheduler (root.finalValues s [name] b.scheduler).2) := by
  obtain ⟨answer, calls, hcalls, heq⟩ := root.exists_askAll_finalValues s name
  rw [heq, hs]
  exact h.askAll b calls hcalls hP

theorem settleWithin (h : root.Keeps prompt P) (hs : s.prompt = prompt) (hP : P b)
    (name : String) (rounds left : Nat) (eval : Eval) :
    P (root.settleWithin name rounds left eval s b).2 := by
  induction left generalizing s b eval with
  | zero => cases eval <;> exact hP
  | succ left ih =>
      cases eval with
      | value v => exact hP
      | pending =>
          have hround : P (root.settleRound name s b).2 := by
            rw [settleRound_snd]
            exact h.round b hP
          have hprompt : ∀ t, (root.settleRound name s b).1 = .ok t → t.prompt = prompt :=
            fun t ht => (gains_of_settleRound ht).prompt_eq.trans hs
          rw [Constraint.settleWithin]
          generalize root.settleRound name s b = first at hround hprompt ⊢
          obtain ⟨_ | t, b₁⟩ := first
          · exact hround
          · have ht := hprompt t rfl
            have heval := h.forwardOn ht hround
            dsimp only
            generalize root.forwardOn t b₁ = next at heval ⊢
            obtain ⟨_ | eval, b₂⟩ := next
            · exact heval
            · exact ih ht heval eval

theorem judge (h : e.root.Keeps prompt P) (hs : s.prompt = prompt) (hP : P b) :
    P (e.judge s b).2 := by
  have heval := h.forwardOn hs hP
  rw [Engine.judge]
  generalize e.root.forwardOn s b = first at heval ⊢
  obtain ⟨_ | eval, b₁⟩ := first
  · exact heval
  · exact h.settleWithin hs heval _ _ _ eval

/-- **What rounds and evaluations keep is kept by a whole run**, whether it succeeds or
fails. -/
theorem run (h : e.root.Keeps s.prompt P) (hP : P b) (events : List TokenEvent) :
    P (e.run s events b).2.2 := by
  -- A bench with the property is related to itself and to no other one.
  have hsimulates : e.Simulates (fun t => t.prompt = s.prompt) fun b b' => b = b' ∧ P b := by
    refine ⟨?_, fun t ht => ht, ?_, ?_, ?_⟩
    · intro t text ht
      obtain ⟨patterns, heq⟩ := e.root.exists_following_eq t e.variableName text
      rw [heq]
      exact ht
    · intro t b eval u ht hjudged
      exact ((e.settles_judge t b).decided eval u hjudged).2.prompt_eq.trans ht
    · rintro t b _ ht ⟨rfl, hP⟩
      exact ⟨rfl, rfl, h.judge ht hP⟩
    · rintro t b _ ht ⟨rfl, hP⟩
      exact ⟨rfl, rfl, h.finalValues ht hP e.variableName⟩
  exact (hsimulates.run_eq (s := s) rfl ⟨rfl, hP⟩ events).2.2.2

end Constraint.Keeps

end Guided
