import Guided.Proofs.Fields
import Guided.Query.Binding

/-!
# What a call binds

A call can be bound if its first argument refers to a variable, its other arguments have values,
there are as many of them as the query has positional names, and every parameter that is none of
these names can be found where the call is made or where the query was defined. The bindings are
then determined name by name: the last argument passed for a positional name, and for any other
parameter the first value that is found.

## Main definitions

* `Argument.value?`: what an argument stands for.
* `Query.argNames`, `Query.visible`: positional names, and where other names are looked up.
* `Passable`, `Query.missing`: what can be passed by position, and what is not found.
* `boundValue?`: what each name is bound to.

## Main statements

* `positionalValues_cases`: which arguments have values.
* `captureParams_spec`: what the parameters add to the arguments.
* `InlineCall.bind_spec`: when binding succeeds, what it binds, and what it lacks.
-/
namespace Guided

/-- What an argument stands for where the call is made. -/
def Argument.value? (caller : CallerScope) : Argument → Option Value
  | .reference name => caller.lookup name
  | .value v => some v

section Parameters

variable {W : Type}

/-- The names of the arguments that a query takes by position. -/
def Query.argNames (query : Query W) : List String :=
  match query.context with
  | none => []
  | some c => c.argNames

/-- Where a name that is not passed by position is looked up: among the local symbols of the
caller, then among the global ones, then from the innermost scope of the query outwards. -/
def Query.visible (query : Query W) (caller : CallerScope) : Scope :=
  caller.locals :: caller.globals ::
    match query.context with
    | none => []
    | some c => c.scope

/-- The declared parameters that have no value to get, as often as they are declared. -/
def Query.missing (query : Query W) (caller : CallerScope) : List String :=
  query.params.filter fun p =>
    !query.argNames.contains p && ((query.visible caller).resolve p).isNone

/-- Arguments that can be passed by position: those that are references are symbols of the
caller, and there are as many as the query has names for. A query that is no function passes
over arguments, however many there are. -/
structure Passable (query : Query W) (arguments : List Argument) (caller : CallerScope) :
    Prop where
  defined : ∀ name, .reference name ∈ arguments →
    name ∈ caller.locals.map Prod.fst ∨ name ∈ caller.globals.map Prod.fst
  arity : ∀ c, query.context = some c → arguments.length = c.argNames.length

/-- What a name is bound to: a positional name to the last of its arguments, any other
parameter to the first value that is found, and no other name to anything. -/
def boundValue? (query : Query W) (arguments : List Argument) (caller : CallerScope)
    (name : String) : Option Value :=
  if name ∈ query.argNames then
    (Fields.last? (query.argNames.zip arguments) name).bind (Argument.value? caller)
  else if name ∈ query.params then (query.visible caller).resolve name
  else none

end Parameters

/-! ## Arguments passed by position -/

section Positional

variable {W : Type} {query : Query W} {caller : CallerScope} {arguments : List Argument}
  {values : List Value}

theorem CallerScope.isSome_lookup_iff {name : String} :
    (caller.lookup name).isSome ↔
      name ∈ caller.locals.map Prod.fst ∨ name ∈ caller.globals.map Prod.fst := by
  rw [lookup, Option.isSome_or, Bool.or_eq_true, Fields.isSome_find?_iff, Fields.isSome_find?_iff]

/-- Either all arguments have values, or one of them refers to a name that has none. -/
theorem positionalValues_cases (query : String) (caller : CallerScope)
    (arguments : List Argument) :
    (∃ values, positionalValues query caller arguments = .ok values ∧
      arguments.map (Argument.value? caller) = values.map some) ∨
    ∃ name, .reference name ∈ arguments ∧ caller.lookup name = none ∧
      positionalValues query caller arguments =
        .error (.binding (.undefinedArgument query name)) := by
  induction arguments with
  | nil => exact .inl ⟨[], rfl, rfl⟩
  | cons argument arguments ih =>
      have hvalue : ∀ v, argument.value? caller = some v →
          positionalValues query caller (argument :: arguments) =
            (positionalValues query caller arguments).map (v :: ·) := by
        intro v hv
        cases argument with
        | value w => rw [positionalValues, ← Option.some.inj hv]
        | reference name => rw [positionalValues, show caller.lookup name = some v from hv]
      cases hargument : argument.value? caller with
      | none =>
          cases argument with
          | value v => cases hargument
          | reference name =>
              refine .inr ⟨name, List.mem_cons_self, hargument, ?_⟩
              rw [positionalValues, show caller.lookup name = none from hargument]
      | some v =>
          rw [hvalue v hargument]
          rcases ih with ⟨values, hread, hvalues⟩ | ⟨name, hmem, hnone, hread⟩
          · refine .inl ⟨v :: values, by rw [hread]; rfl, ?_⟩
            rw [List.map_cons, List.map_cons, hargument, hvalues]
          · exact .inr ⟨name, List.mem_cons_of_mem _ hmem, hnone, by rw [hread]; rfl⟩

/-- As many arguments as there are names are bound, a later one of the same name in place of
an earlier one. -/
theorem exists_bindPositional
    (harity : ∀ c, query.context = some c → values.length = c.argNames.length) :
    ∃ bound, bindPositional query values = .ok bound ∧ Fields.Sorted bound ∧
      ∀ name, bound.find? name = Fields.last? (query.argNames.zip values) name := by
  rw [bindPositional, Query.argNames]
  cases hcontext : query.context with
  | none => exact ⟨[], rfl, Fields.sorted_nil, fun _ => rfl⟩
  | some c =>
      refine ⟨_, if_pos (harity c hcontext).symm, Fields.sorted_ofList _, fun name => ?_⟩
      rw [Fields.find?_ofList]

/-- The last value of a name is that of its last argument. -/
theorem last?_zip_values (hvalues : arguments.map (Argument.value? caller) = values.map some)
    (names : List String) (name : String) :
    Fields.last? (names.zip values) name =
      (Fields.last? (names.zip arguments) name).bind (Argument.value? caller) := by
  have hsome : Fields.last? (names.zip (values.map some)) name =
      (Fields.last? (names.zip values) name).map some := by
    rw [← Fields.last?_map, List.zip_map_right]
    rfl
  have hvalue : Fields.last? (names.zip (arguments.map (Argument.value? caller))) name =
      (Fields.last? (names.zip arguments) name).map (Argument.value? caller) := by
    rw [← Fields.last?_map, List.zip_map_right]
    rfl
  rw [hvalues, hsome] at hvalue
  cases hlast : Fields.last? (names.zip arguments) name with
  | none => simpa [hlast] using hvalue
  | some argument =>
      obtain ⟨v, hv, hargument⟩ : ∃ v, Fields.last? (names.zip values) name = some v ∧
          some v = argument.value? caller := by simpa [hlast] using hvalue
      rw [hv, hargument]
      rfl

theorem isSome_last?_zip (harity : ∀ c, query.context = some c →
    values.length = c.argNames.length) (name : String) :
    (Fields.last? (query.argNames.zip values) name).isSome ↔ name ∈ query.argNames := by
  rw [Fields.isSome_last?_iff]
  rw [Query.argNames]
  cases hcontext : query.context with
  | none => simp
  | some c => rw [List.map_fst_zip (harity c hcontext).ge]

end Positional

/-! ## Parameters -/

section Captured

variable {W : Type}

/-- A parameter is captured from the first table in which it is visible. -/
theorem captured_eq_resolve (query : Query W) (caller : CallerScope) (name : String) :
    captured query caller name = (query.visible caller).resolve name := by
  rw [captured, CallerScope.lookup, Query.visible, Scope.resolve_cons, Scope.resolve_cons,
    Option.or_assoc]
  cases query.context <;> rfl

/-- Parameters that have a value already keep it, others get the value that is found, and those
for which none is found are listed as they are declared. -/
theorem captureParams_spec (query : Query W) (caller : CallerScope) (params : List String)
    {bound : Fields Value} (hbound : Fields.Sorted bound) :
    Fields.Sorted (captureParams query caller params bound).1 ∧
    (∀ name, (captureParams query caller params bound).1.find? name = (bound.find? name).or
      (if name ∈ params then (query.visible caller).resolve name else none)) ∧
    (captureParams query caller params bound).2 = params.filter fun p =>
      !bound.contains p && ((query.visible caller).resolve p).isNone := by
  induction params generalizing bound with
  | nil => exact ⟨hbound, fun _ => by simp [captureParams], rfl⟩
  | cons p params ih =>
      -- What is missing among the later parameters does not depend on whether this one is bound,
      -- since it is only bound when a value is found.
      rw [captureParams, captured_eq_resolve]
      by_cases hknown : bound.contains p = true
      · obtain ⟨hsorted, hfind, hmissing⟩ := ih hbound
        rw [if_pos hknown]
        refine ⟨hsorted, fun name => ?_, by simpa [hknown] using hmissing⟩
        rw [hfind]
        by_cases hname : name = p
        · obtain ⟨v, hv⟩ := Option.isSome_iff_exists.1 hknown
          rw [hname, hv]
          rfl
        · simp [hname]
      · have hnone : bound.find? p = none := by simpa [Fields.contains] using hknown
        rw [if_neg hknown]
        cases hvalue : (query.visible caller).resolve p with
        | some v =>
            obtain ⟨hsorted, hfind, hmissing⟩ := ih (hbound.insert p v)
            refine ⟨hsorted, fun name => ?_, ?_⟩
            · rw [hfind, Fields.find?_insert]
              by_cases hname : name = p
              · simp [hname, hnone, hvalue]
              · simp [hname, Ne.symm hname]
            · rw [hmissing, List.filter_cons_of_neg (by simp [hvalue])]
              apply List.filter_congr
              intro q _
              by_cases hq : q = p
              · simp [hq, hvalue]
              · rw [Fields.contains, Fields.contains, Fields.find?_insert, if_neg (Ne.symm hq)]
        | none =>
            obtain ⟨hsorted, hfind, hmissing⟩ := ih hbound
            refine ⟨hsorted, fun name => ?_, ?_⟩
            · refine (hfind name).trans ?_
              by_cases hname : name = p
              · simp [hname, hnone, hvalue]
              · simp [hname]
            · rw [List.filter_cons_of_pos (by simp [hvalue, hknown]), ← hmissing]

end Captured

/-! ## Calls -/

section Calls

variable {W : Type} {query : Query W} {caller : CallerScope} {arguments : List Argument}
  {values : List Value}

/-- With the right number of values, the only thing that can be missing is a parameter. -/
theorem exists_bindCaptures (caller : CallerScope)
    (harity : ∀ c, query.context = some c → values.length = c.argNames.length) :
    ∃ captures, Fields.Sorted captures ∧
      (∀ name, captures.find? name = (Fields.last? (query.argNames.zip values) name).or
        (if name ∈ query.params then (query.visible caller).resolve name else none)) ∧
      bindCaptures query values caller = if query.missing caller = [] then .ok captures
        else .error (.binding (.unboundParameters query.name (query.missing caller))) := by
  obtain ⟨bound, hbind, hbound, hfind⟩ := exists_bindPositional harity
  obtain ⟨hsorted, hcaptures, hmissing⟩ :=
    captureParams_spec query caller query.params hbound
  have hcontains : ∀ name, bound.contains name = query.argNames.contains name := by
    intro name
    rw [Fields.contains, hfind, Bool.eq_iff_iff, isSome_last?_zip harity, List.contains_iff_mem]
  have hlacks : (captureParams query caller query.params bound).2 = query.missing caller := by
    rw [hmissing, Query.missing]
    simp only [hcontains]
  refine ⟨_, hsorted, fun name => by rw [hcaptures, hfind], ?_⟩
  rw [bindCaptures, hbind]
  dsimp only
  cases hparams : captureParams query caller query.params bound with
  | mk captures missing =>
      rw [hparams] at hlacks
      cases missing with
      | nil => rw [if_pos hlacks.symm]
      | cons p missing => rw [if_neg (hlacks ▸ List.cons_ne_nil p missing), ← hlacks]

/-- Arguments that can be passed by position have values, as many as there are names. -/
theorem Passable.exists_values (h : Passable query arguments caller) :
    ∃ values, positionalValues query.name caller arguments = .ok values ∧
      arguments.map (Argument.value? caller) = values.map some ∧
      ∀ c, query.context = some c → values.length = c.argNames.length := by
  rcases positionalValues_cases query.name caller arguments with
    ⟨values, hread, hvalues⟩ | ⟨name, hmem, hnone, -⟩
  · have hlength : arguments.length = values.length := by simpa using congrArg List.length hvalues
    exact ⟨values, hread, hvalues, fun c hc => hlength ▸ h.arity c hc⟩
  · have hdefined := CallerScope.isSome_lookup_iff.2 (h.defined name hmem)
    rw [hnone] at hdefined
    cases hdefined

/-- A positional name comes first, whether it is a parameter as well or not. -/
theorem boundValue?_eq_or (hvalues : arguments.map (Argument.value? caller) = values.map some)
    (harity : ∀ c, query.context = some c → values.length = c.argNames.length) (name : String) :
    boundValue? query arguments caller name = (Fields.last? (query.argNames.zip values) name).or
      (if name ∈ query.params then (query.visible caller).resolve name else none) := by
  rw [boundValue?, ← last?_zip_values hvalues]
  by_cases hname : name ∈ query.argNames
  · obtain ⟨v, hv⟩ := Option.isSome_iff_exists.1 ((isSome_last?_zip harity name).2 hname)
    rw [if_pos hname, hv, Option.some_or]
  · have hnone := hname
    rw [← isSome_last?_zip harity, Option.not_isSome_iff_eq_none] at hnone
    rw [if_neg hname, hnone, Option.none_or]

/-- A call whose arguments can be passed by position lacks nothing but parameters. -/
theorem InlineCall.exists_bind_of_passable (h : Passable query arguments caller) (x : String) :
    ∃ captures, Fields.Sorted captures ∧
      (∀ name, captures.find? name = boundValue? query arguments caller name) ∧
      InlineCall.bind query (.reference x :: arguments) caller =
        if query.missing caller = [] then .ok ⟨query, x, captures⟩
        else .error (.binding (.unboundParameters query.name (query.missing caller))) := by
  obtain ⟨values, hread, hvalues, harity⟩ := h.exists_values
  obtain ⟨captures, hsorted, hfind, hbind⟩ := exists_bindCaptures caller harity
  refine ⟨captures, hsorted, fun name => ?_, ?_⟩
  · rw [hfind, boundValue?_eq_or hvalues harity]
  · rw [InlineCall.bind, hread]
    dsimp only
    rw [hbind]
    split <;> rfl

/-- A call whose arguments cannot be passed by position is refused. -/
theorem InlineCall.exists_fault_of_not_passable (h : ¬ Passable query arguments caller)
    (x : String) :
    ∃ fault, InlineCall.bind query (.reference x :: arguments) caller = .error (.binding fault) := by
  rcases positionalValues_cases query.name caller arguments with
    ⟨values, hread, hvalues⟩ | ⟨name, -, -, hread⟩
  · have hlength : arguments.length = values.length := by simpa using congrArg List.length hvalues
    obtain ⟨c, hcontext, hother⟩ :
        ∃ c, query.context = some c ∧ arguments.length ≠ c.argNames.length := by
      by_contra hnone
      push Not at hnone
      refine h ⟨fun name hname => ?_, hnone⟩
      have hmem : caller.lookup name ∈ values.map some :=
        hvalues ▸ List.mem_map_of_mem (f := Argument.value? caller) hname
      obtain ⟨v, -, hv⟩ := List.mem_map.1 hmem
      exact CallerScope.isSome_lookup_iff.1 (hv ▸ rfl)
    refine ⟨.arity query.name c.argNames values.length, ?_⟩
    have hne : ¬ c.argNames.length = values.length := fun heq => hother (hlength.trans heq.symm)
    simp only [InlineCall.bind, hread, bindCaptures, bindPositional, hcontext, if_neg hne,
      Except.map]
  · exact ⟨_, by rw [InlineCall.bind, hread]⟩

/-- Nothing is missing if every parameter is a positional name or visible. -/
theorem missing_eq_nil_iff : query.missing caller = [] ↔ ∀ p ∈ query.params,
    p ∈ query.argNames ∨ ((query.visible caller).resolve p).isSome := by
  rw [Query.missing, List.filter_eq_nil_iff]
  refine forall₂_congr fun p _ => ?_
  by_cases hname : p ∈ query.argNames
  · simp [hname]
  · simp [hname, Option.ne_none_iff_isSome]

/-- Positional names and parameters are bound when nothing is missing, and no other names. -/
theorem isSome_boundValue?_iff (h : Passable query arguments caller)
    (hmissing : query.missing caller = []) (name : String) :
    (boundValue? query arguments caller name).isSome ↔
      name ∈ query.argNames ∨ name ∈ query.params := by
  obtain ⟨values, -, hvalues, harity⟩ := h.exists_values
  rw [boundValue?_eq_or hvalues harity, Option.isSome_or, Bool.or_eq_true,
    isSome_last?_zip harity]
  refine or_congr_right' fun hname => ?_
  by_cases hparam : name ∈ query.params
  · simpa [hparam] using (missing_eq_nil_iff.1 hmissing name hparam).resolve_left hname
  · simp [hparam]

/-- Either the arguments can be passed by position, and then the missing parameters decide, or
the call is refused. -/
theorem InlineCall.bind_cases (query : Query W) (args : List Argument) (caller : CallerScope) :
    (∃ x arguments captures, args = .reference x :: arguments ∧
      Passable query arguments caller ∧ Fields.Sorted captures ∧
      (∀ name, captures.find? name = boundValue? query arguments caller name) ∧
      InlineCall.bind query args caller =
        if query.missing caller = [] then .ok ⟨query, x, captures⟩
        else .error (.binding (.unboundParameters query.name (query.missing caller)))) ∨
    (∀ x arguments, args = .reference x :: arguments → ¬ Passable query arguments caller) ∧
      ∃ fault, InlineCall.bind query args caller = .error (.binding fault) := by
  rcases args with _ | ⟨x | v, arguments⟩
  · exact .inr ⟨by simp, _, rfl⟩
  · by_cases h : Passable query arguments caller
    · obtain ⟨captures, hsorted, hfind, hbind⟩ := exists_bind_of_passable h x
      exact .inl ⟨x, arguments, captures, rfl, h, hsorted, hfind, hbind⟩
    · refine .inr ⟨fun y others hargs => ?_, exists_fault_of_not_passable h x⟩
      rwa [← (List.cons.inj hargs).2]
  · exact .inr ⟨by simp, _, rfl⟩

/-- **What a call binds.** Binding succeeds exactly if the first argument is a reference, the
others can be passed by position, and every declared parameter is a positional name or visible.
The call then has the query and the variable it was made with, and it binds the positional names
and the parameters, nothing else, each to the value that it should have. Whatever goes wrong is
a fault of the binding; when all that is wrong is that parameters are missing, the fault names
just these, in the order in which they are declared. -/
theorem InlineCall.bind_spec (query : Query W) (args : List Argument) (caller : CallerScope) :
    ((∃ call, InlineCall.bind query args caller = .ok call) ↔
      ∃ x arguments, args = .reference x :: arguments ∧ Passable query arguments caller ∧
        ∀ p ∈ query.params, p ∈ query.argNames ∨ ((query.visible caller).resolve p).isSome) ∧
    (∀ call, InlineCall.bind query args caller = .ok call →
      ∃ arguments, args = .reference call.variableName :: arguments ∧ call.query = query ∧
        (∀ name, call.captures.find? name = boundValue? query arguments caller name) ∧
        (∀ name, name ∈ call.captures.map Prod.fst ↔
          name ∈ query.argNames ∨ name ∈ query.params) ∧ Fields.Sorted call.captures) ∧
    (∀ e, InlineCall.bind query args caller = .error e → ∃ fault, e = .binding fault) ∧
    ∀ x arguments, args = .reference x :: arguments → Passable query arguments caller →
      query.missing caller ≠ [] → InlineCall.bind query args caller =
        .error (.binding (.unboundParameters query.name (query.missing caller))) := by
  simp only [← missing_eq_nil_iff]
  rcases bind_cases query args caller with
    ⟨x, arguments, captures, rfl, hpassable, hsorted, hfind, hbind⟩ | ⟨hnone, fault, hbind⟩
  · rw [hbind]
    by_cases hmissing : query.missing caller = []
    · rw [if_pos hmissing]
      refine ⟨⟨fun _ => ⟨x, arguments, rfl, hpassable, hmissing⟩, fun _ => ⟨_, rfl⟩⟩, ?_, by simp,
        fun _ _ _ _ hne => absurd hmissing hne⟩
      rintro call hcall
      obtain rfl : _ = call := Except.ok.inj hcall
      refine ⟨arguments, rfl, rfl, hfind, fun name => ?_, hsorted⟩
      rw [← isSome_boundValue?_iff hpassable hmissing, ← hfind, Fields.isSome_find?_iff]
    · rw [if_neg hmissing]
      refine ⟨⟨by simp, ?_⟩, by simp, ?_, fun _ _ _ _ _ => rfl⟩
      · rintro ⟨-, -, -, -, hfound⟩
        exact absurd hfound hmissing
      · intro e he
        exact ⟨_, (Except.error.inj he).symm⟩
  · rw [hbind]
    refine ⟨⟨by simp, ?_⟩, by simp, ?_, ?_⟩
    · rintro ⟨x, arguments, hargs, hpassable, -⟩
      exact absurd hpassable (hnone x arguments hargs)
    · intro e he
      exact ⟨fault, (Except.error.inj he).symm⟩
    · intro x arguments hargs hpassable
      exact absurd hpassable (hnone x arguments hargs)

end Calls

/-! ## A call with shadowed names -/

/-- A query with a positional name that occurs twice and parameters from every table. -/
def shadowedQuery (params : List String) : Query Unit where
  name := "check"
  params := params
  context := some ⟨["n", "m", "n"], [[("k", .string "inner")], [("k", .string "outer")]]⟩
  source := ""
  invoke _ world := (.cutOff, world)

/-- A caller whose symbols hide one another and the scope of the query. -/
def shadowedCaller : CallerScope :=
  ⟨[("l", .string "local"), ("n", .string "local")], [("g", .null), ("l", .null)]⟩

/-- A variable and three arguments, one of them a symbol of the caller. -/
def shadowedArguments : List Argument :=
  [.reference "X", .value .null, .reference "l", .value (.bool true)]

theorem InlineCall.bind_spec_shadowed :
    (∃ call, InlineCall.bind (shadowedQuery ["n", "k", "l", "k"]) shadowedArguments
        shadowedCaller = .ok call ∧
      call.captures.find? "n" = some (.bool true) ∧
      call.captures.find? "k" = some (.string "inner") ∧
      call.captures.find? "l" = some (.string "local") ∧ call.captures.find? "g" = none) ∧
    InlineCall.bind (shadowedQuery ["y", "n", "x", "y"]) shadowedArguments shadowedCaller =
      .error (.binding (.unboundParameters "check" ["y", "x", "y"])) := by
  have hpassable : ∀ params, Passable (shadowedQuery params) shadowedArguments.tail
      shadowedCaller := by
    refine fun params => ⟨fun name hname => ?_, fun c hc => ?_⟩
    · obtain rfl : name = "l" := by simpa [shadowedArguments] using hname
      decide
    · rw [← Option.some.inj hc]
      rfl
  have hfound : (shadowedQuery ["n", "k", "l", "k"]).missing shadowedCaller = [] := by decide
  have hmissing : (shadowedQuery ["y", "n", "x", "y"]).missing shadowedCaller =
      ["y", "x", "y"] := by decide
  constructor
  · obtain ⟨hok, hcall, -⟩ := InlineCall.bind_spec (shadowedQuery ["n", "k", "l", "k"])
      shadowedArguments shadowedCaller
    obtain ⟨call, hbind⟩ :=
      hok.2 ⟨"X", _, rfl, hpassable _, missing_eq_nil_iff.1 hfound⟩
    obtain ⟨arguments, hargs, -, hfind, -⟩ := hcall call hbind
    obtain rfl : shadowedArguments.tail = arguments := congrArg List.tail hargs
    refine ⟨call, hbind, ?_⟩
    simp only [hfind]
    exact ⟨rfl, rfl, rfl, rfl⟩
  · obtain ⟨-, -, -, hlack⟩ := InlineCall.bind_spec (shadowedQuery ["y", "n", "x", "y"])
      shadowedArguments shadowedCaller
    rw [hlack "X" _ rfl (hpassable _) (by simp [hmissing]), hmissing]
    rfl

end Guided
