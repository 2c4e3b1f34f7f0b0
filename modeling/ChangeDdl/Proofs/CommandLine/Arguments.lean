import ChangeDdl.CommandLine.Arguments

/-!
The order in which arguments are read. They are read from left to right, and the first that cannot
follow those before it decides what is complained about (`parse_eq_error_iff`).
-/

set_option autoImplicit false
set_option relaxedAutoImplicit false

namespace ChangeDdl.CommandLine.Arguments

/-- An argument that cannot follow those read before. Only the flag of a configuration asks for
something behind it. -/
inductive Refuses (before : Arguments) : String → List String → UsageError → Prop where
  | noPath {argument : String} (hflag : isConfigFlag argument) :
    Refuses before argument [] .missingConfigPath
  | unknown {argument : String} {rest : List String} (hflag : ¬ isConfigFlag argument)
    (hinput : ¬ (argument = "-" ∧ before.input = none)) (hoption : looksLikeOption argument) :
    Refuses before argument rest (.unknownOption argument)
  | second {argument : String} {rest : List String} (hflag : ¬ isConfigFlag argument)
    (hoption : ¬ looksLikeOption argument) (hinput : before.input.isSome) :
    Refuses before argument rest .secondInput

variable {before a : Arguments} {argument : String} {first rest arguments : List String}
  {e : UsageError}

theorem parseFrom_of_flag (hflag : isConfigFlag argument) (path : String) :
    parseFrom before (argument :: path :: rest) =
      parseFrom { before with config := some path } rest := by
  rw [parseFrom, if_pos hflag]

theorem parseFrom_of_not_flag (hflag : ¬ isConfigFlag argument) :
    parseFrom before (argument :: rest) =
      if argument = "-" ∧ before.input = none then parseFrom before rest
      else if looksLikeOption argument then .error (.unknownOption argument)
      else if before.input.isSome then .error .secondInput
      else parseFrom { before with input := some argument } rest := by
  cases rest with
  | nil => rw [parseFrom.eq_2, if_neg hflag]
  | cons next rest => rw [parseFrom.eq_3, if_neg hflag]

theorem Refuses.parseFrom (h : Refuses before argument rest e) :
    parseFrom before (argument :: rest) = .error e := by
  cases h with
  | noPath hflag => rw [Arguments.parseFrom, if_pos hflag]
  | unknown hflag hinput hoption =>
    rw [parseFrom_of_not_flag hflag, if_neg hinput, if_pos hoption]
  | second hflag hoption hinput =>
    have hnone : ¬ (argument = "-" ∧ before.input = none) := by
      rintro ⟨_, hnone⟩
      simp [hnone] at hinput
    rw [parseFrom_of_not_flag hflag, if_neg hnone, if_neg hoption, if_pos hinput]

/-- What was read is not looked at again. -/
theorem parseFrom_append (h : parseFrom before first = .ok a) (rest : List String) :
    parseFrom before (first ++ rest) = parseFrom a rest := by
  fun_induction parseFrom before first with
  | case1 before => rw [Except.ok.inj h, List.nil_append]
  | case2 => simp at h
  | case3 before flag hflag path more ih =>
    rw [List.cons_append, List.cons_append, parseFrom_of_flag hflag]
    exact ih h
  | case4 before argument more hflag hinput ih =>
    rw [List.cons_append, parseFrom_of_not_flag hflag, if_pos hinput]
    exact ih h
  | case5 => simp at h
  | case6 => simp at h
  | case7 before argument more hflag hinput hoption hfree ih =>
    rw [List.cons_append, parseFrom_of_not_flag hflag, if_neg hinput, if_neg hoption, if_neg hfree]
    exact ih h

/-- The arguments begin with some that can be read, and the next is refused. -/
theorem exists_refuses (h : parseFrom before arguments = .error e) :
    ∃ first argument rest a, arguments = first ++ argument :: rest ∧
      parseFrom before first = .ok a ∧ Refuses a argument rest e := by
  fun_induction parseFrom before arguments with
  | case1 => simp at h
  | case2 before flag hflag =>
    obtain rfl := Except.error.inj h
    exact ⟨[], flag, [], before, rfl, by rw [parseFrom], .noPath hflag⟩
  | case3 before flag hflag path more ih =>
    obtain ⟨first, argument, rest, a, rfl, hfirst, hrefuses⟩ := ih h
    refine ⟨flag :: path :: first, argument, rest, a, rfl, ?_, hrefuses⟩
    rwa [parseFrom_of_flag hflag]
  | case4 before argument more hflag hinput ih =>
    obtain ⟨first, next, rest, a, rfl, hfirst, hrefuses⟩ := ih h
    refine ⟨argument :: first, next, rest, a, rfl, ?_, hrefuses⟩
    rwa [parseFrom_of_not_flag hflag, if_pos hinput]
  | case5 before argument more hflag hinput hoption =>
    obtain rfl := Except.error.inj h
    exact ⟨[], argument, more, before, rfl, by rw [parseFrom], .unknown hflag hinput hoption⟩
  | case6 before argument more hflag hinput hoption hsome =>
    obtain rfl := Except.error.inj h
    exact ⟨[], argument, more, before, rfl, by rw [parseFrom], .second hflag hoption hsome⟩
  | case7 before argument more hflag hinput hoption hfree ih =>
    obtain ⟨first, next, rest, a, rfl, hfirst, hrefuses⟩ := ih h
    refine ⟨argument :: first, next, rest, a, rfl, ?_, hrefuses⟩
    rwa [parseFrom_of_not_flag hflag, if_neg hinput, if_neg hoption, if_neg hfree]

/-- An argument is refused as soon as it is reached, and only then do the arguments fail. -/
theorem parse_eq_error_iff :
    parse arguments = .error e ↔
      ∃ first argument rest a, arguments = first ++ argument :: rest ∧
        parse first = .ok a ∧ Refuses a argument rest e := by
  constructor
  · exact exists_refuses
  · rintro ⟨first, argument, rest, a, rfl, hfirst, hrefuses⟩
    rw [parse, parseFrom_append hfirst, hrefuses.parseFrom]

end ChangeDdl.CommandLine.Arguments
