import ChangeDdl.Proofs.CommandLine.Arguments
import ChangeDdl.Proofs.Fallible

/-!
The grammar of the command line. It is a row of parts: configurations with their paths, and operands
that say where the input is. In an accepted row at most one operand is a file and no lone `-` stands
behind it; the row asks for its last configuration and its file (`parse_by_grammar`).

The parts read so far carry the induction. What follows them is read as `asked` of those parts says,
so a row is accepted if and only if it is orderly (`parse_spelled_eq_ok_iff`). A lone `-` is passed
over and leaves no trace, so a file behind it is read in place of the standard input
(`parse_around_standardInput`).
-/

set_option autoImplicit false
set_option relaxedAutoImplicit false

namespace ChangeDdl.CommandLine.Arguments

/-! ### Parts of a command line -/

inductive ConfigFlag where
  | long
  | short

def ConfigFlag.text : ConfigFlag → String
  | long => "--config"
  | short => "-c"

/-- Where the input is: on the standard input, or in a file whose path is not like an option. -/
inductive Operand where
  | standardInput
  | file (path : String) (hpath : ¬ looksLikeOption path)

namespace Operand

def text : Operand → String
  | standardInput => "-"
  | file path _ => path

def file? : Operand → Option String
  | standardInput => none
  | file path _ => some path

/-- What is said about the operand behind a file. -/
def refusal : Operand → UsageError
  | standardInput => .unknownOption "-"
  | file _ _ => .secondInput

end Operand

/-- The path of a configuration may be any text, also one like an option. -/
inductive Part where
  | config (flag : ConfigFlag) (path : String)
  | operand (operand : Operand)

namespace Part

def words : Part → List String
  | config flag path => [flag.text, path]
  | operand o => [o.text]

def config? : Part → Option String
  | config _ path => some path
  | operand _ => none

def file? : Part → Option String
  | config _ _ => none
  | operand o => o.file?

end Part

def spelled (parts : List Part) : List String := parts.flatMap Part.words

def files (parts : List Part) : List String := parts.filterMap Part.file?

/-- The last configuration counts. -/
def asked (parts : List Part) : Arguments where
  config := (parts.filterMap Part.config?).getLast?
  input := (files parts).head?

/-- There is at most one file, and the standard input is not named behind it. -/
structure Orderly (parts : List Part) : Prop where
  one_file : (files parts).length ≤ 1
  input_first : parts.Pairwise fun earlier later ↦
    earlier.file? ≠ none → later ≠ .operand .standardInput

/-- An argument that cannot go on with these parts, and what is said about it. -/
inductive Offends (before : List Part) : String → List String → String → Prop where
  | noPath (flag : ConfigFlag) : Offends before flag.text [] "--config needs a path"
  | unknown {argument : String} {rest : List String} (hoption : looksLikeOption argument)
    (hflag : ∀ flag : ConfigFlag, argument ≠ flag.text)
    (hinput : argument = "-" → files before ≠ []) :
    Offends before argument rest ("unknown option " ++ argument)
  | second {argument : String} {rest : List String} (hoption : ¬ looksLikeOption argument)
    (hinput : files before ≠ []) :
    Offends before argument rest "only one input file is accepted"

variable {parts : List Part} {a : Arguments} {rest : List String} {argument path : String}

theorem files_append (first second : List Part) :
    files (first ++ second) = files first ++ files second := List.filterMap_append

theorem spelled_append (first second : List Part) :
    spelled (first ++ second) = spelled first ++ spelled second := List.flatMap_append

theorem spelled_cons (part : Part) (parts : List Part) :
    spelled (part :: parts) = part.words ++ spelled parts := List.flatMap_cons

theorem files_eq_nil_iff : files parts = [] ↔ ∀ part ∈ parts, part.file? = none :=
  List.filterMap_eq_nil_iff

theorem input_asked_eq_none_iff : (asked parts).input = none ↔ files parts = [] :=
  List.head?_eq_none_iff

/-! ### One part more -/

theorem Orderly.of_append {first second : List Part} (h : Orderly (first ++ second)) :
    Orderly first := by
  refine ⟨?_, (List.pairwise_append.mp h.input_first).1⟩
  have hlength := h.one_file
  rw [files_append, List.length_append] at hlength
  omega

theorem orderly_config_iff (flag : ConfigFlag) (path : String) :
    Orderly (parts ++ [.config flag path]) ↔ Orderly parts := by
  refine ⟨Orderly.of_append, fun h ↦ ⟨?_, ?_⟩⟩
  · have hfiles : files (parts ++ [.config flag path]) = files parts := by
      rw [files_append]
      exact List.append_nil _
    exact hfiles ▸ h.one_file
  · refine List.pairwise_append.mpr ⟨h.input_first, List.pairwise_singleton _ _, ?_⟩
    simp

/-- No operand can follow a file. -/
theorem orderly_operand_iff (o : Operand) :
    Orderly (parts ++ [.operand o]) ↔ Orderly parts ∧ files parts = [] := by
  constructor
  · intro h
    refine ⟨h.of_append, ?_⟩
    cases o with
    | standardInput =>
      rw [files_eq_nil_iff]
      intro part hpart
      by_contra hfile
      exact (List.pairwise_append.mp h.input_first).2.2 part hpart _ (by simp) hfile rfl
    | file path hpath =>
      have hlength := h.one_file
      rw [files_append, List.length_append] at hlength
      exact List.eq_nil_of_length_eq_zero (Nat.le_zero.mp (Nat.le_of_succ_le_succ hlength))
  · rintro ⟨h, hfiles⟩
    constructor
    · rw [files_append, hfiles, List.nil_append]
      exact List.length_filterMap_le _ _
    · refine List.pairwise_append.mpr ⟨h.input_first, List.pairwise_singleton _ _, ?_⟩
      intro part hpart later _ hfile
      exact absurd (files_eq_nil_iff.mp hfiles part hpart) hfile

theorem asked_config (flag : ConfigFlag) (path : String) :
    asked (parts ++ [.config flag path]) = { asked parts with config := some path } := by
  simp [asked, files, Part.config?, Part.file?]

theorem asked_operand (o : Operand) (hfiles : files parts = []) :
    asked (parts ++ [.operand o]) = { asked parts with input := o.file? } := by
  have hinput : (files (parts ++ [.operand o])).head? = o.file? := by
    rw [files_append, hfiles, List.nil_append]
    cases o <;> rfl
  rw [asked, hinput]
  simp [asked, Part.config?]

/-! ### Reading a part -/

theorem isConfigFlag_iff : isConfigFlag argument ↔ ∃ flag : ConfigFlag, argument = flag.text := by
  constructor
  · intro h
    simp only [isConfigFlag, Bool.or_eq_true, decide_eq_true_eq] at h
    rcases h with rfl | rfl
    · exact ⟨.long, rfl⟩
    · exact ⟨.short, rfl⟩
  · rintro ⟨flag, rfl⟩
    cases flag <;> rfl

theorem looksLikeOption_of_isConfigFlag (h : isConfigFlag argument) : looksLikeOption argument := by
  obtain ⟨flag, rfl⟩ := isConfigFlag_iff.mp h
  cases flag <;> decide

theorem Operand.not_isConfigFlag (o : Operand) : ¬ isConfigFlag o.text := by
  cases o with
  | standardInput => decide
  | file path hpath => exact mt looksLikeOption_of_isConfigFlag hpath

theorem parseFrom_config (flag : ConfigFlag) (path : String) (rest : List String) :
    parseFrom a ((Part.config flag path).words ++ rest) =
      parseFrom { a with config := some path } rest :=
  parseFrom_of_flag (isConfigFlag_iff.mpr ⟨flag, rfl⟩) path

/-- Where no file has been named, an operand says where the input is. -/
theorem parseFrom_operand (o : Operand) (hinput : a.input = none) (rest : List String) :
    parseFrom a ((Part.operand o).words ++ rest) = parseFrom { a with input := o.file? } rest := by
  obtain ⟨config, input⟩ := a
  obtain rfl : input = none := hinput
  rw [Part.words, List.singleton_append, parseFrom_of_not_flag o.not_isConfigFlag]
  cases o with
  | standardInput => exact if_pos ⟨rfl, rfl⟩
  | file path hpath =>
    have hdash : path ≠ "-" := by
      rintro rfl
      exact hpath (by decide)
    simp [Operand.text, Operand.file?, hdash, hpath]

theorem parseFrom_operand_behind_file (o : Operand) (hinput : a.input ≠ none)
    (rest : List String) : parseFrom a ((Part.operand o).words ++ rest) = .error o.refusal := by
  have hrefuses : Refuses a o.text rest o.refusal := by
    cases o with
    | standardInput => exact .unknown (by decide) (fun h ↦ hinput h.2) (by decide)
    | file path hpath =>
      exact .second (mt looksLikeOption_of_isConfigFlag hpath) hpath
        (Option.isSome_iff_ne_none.mpr hinput)
  exact hrefuses.parseFrom

/-! ### Reading a row of parts -/

/-- A row goes on being read as long as it is orderly. -/
theorem parseFrom_spelled_eq_ok_iff {before : List Part} (h : Orderly before) :
    parseFrom (asked before) (spelled parts) = .ok a ↔
      Orderly (before ++ parts) ∧ a = asked (before ++ parts) := by
  induction parts generalizing before with
  | nil =>
    rw [List.append_nil, spelled, List.flatMap_nil, parseFrom]
    simp [h, eq_comm]
  | cons part more ih =>
    rw [spelled_cons, ← List.singleton_append, ← List.append_assoc]
    cases part with
    | config flag path =>
      rw [parseFrom_config, ← asked_config flag, ih ((orderly_config_iff flag path).mpr h)]
    | operand o =>
      by_cases hfiles : files before = []
      · rw [parseFrom_operand o (input_asked_eq_none_iff.mpr hfiles), ← asked_operand o hfiles,
          ih ((orderly_operand_iff o).mpr ⟨h, hfiles⟩)]
      · rw [parseFrom_operand_behind_file o (mt input_asked_eq_none_iff.mp hfiles)]
        refine iff_of_false (by simp) fun horderly ↦ hfiles ?_
        exact ((orderly_operand_iff o).mp horderly.1.of_append).2

theorem orderly_of_files_eq_nil (h : files parts = []) : Orderly parts := by
  refine ⟨by simp [h], List.Pairwise.imp_of_mem ?_ (List.pairwise_of_forall fun _ _ ↦ trivial)⟩
  intro earlier _ hearlier _ _ hfile
  exact absurd (files_eq_nil_iff.mp h earlier hearlier) hfile

theorem parse_spelled_eq_ok_iff :
    parse (spelled parts) = .ok a ↔ Orderly parts ∧ a = asked parts := by
  have hnil : Orderly [] := orderly_of_files_eq_nil rfl
  exact parseFrom_spelled_eq_ok_iff hnil

theorem exists_spelled {before : Arguments} {arguments : List String}
    (h : parseFrom before arguments = .ok a) : ∃ parts, arguments = spelled parts := by
  fun_induction parseFrom before arguments with
  | case1 => exact ⟨[], rfl⟩
  | case2 => simp at h
  | case3 before argument hflag path rest ih =>
    obtain ⟨parts, rfl⟩ := ih h
    obtain ⟨flag, rfl⟩ := isConfigFlag_iff.mp hflag
    exact ⟨.config flag path :: parts, rfl⟩
  | case4 before argument rest hflag hinput ih =>
    obtain ⟨parts, rfl⟩ := ih h
    obtain ⟨rfl, _⟩ := hinput
    exact ⟨.operand .standardInput :: parts, rfl⟩
  | case5 => simp at h
  | case6 => simp at h
  | case7 before argument rest hflag hinput hoption hfree ih =>
    obtain ⟨parts, rfl⟩ := ih h
    exact ⟨.operand (.file argument hoption) :: parts, rfl⟩

theorem parse_eq_ok_iff {arguments : List String} :
    parse arguments = .ok a ↔
      ∃ parts, Orderly parts ∧ arguments = spelled parts ∧ a = asked parts := by
  constructor
  · intro h
    obtain ⟨parts, rfl⟩ := exists_spelled h
    obtain ⟨horderly, rfl⟩ := parse_spelled_eq_ok_iff.mp h
    exact ⟨parts, horderly, rfl, rfl⟩
  · rintro ⟨parts, horderly, rfl, rfl⟩
    exact parse_spelled_eq_ok_iff.mpr ⟨horderly, rfl⟩

theorem offends_iff {message : String} :
    Offends parts argument rest message ↔
      ∃ e, Refuses (asked parts) argument rest e ∧ e.message = message := by
  constructor
  · intro h
    cases h with
    | noPath flag => exact ⟨_, .noPath (isConfigFlag_iff.mpr ⟨flag, rfl⟩), rfl⟩
    | unknown hoption hflag hinput =>
      refine ⟨_, .unknown (fun h ↦ ?_) (fun h ↦ ?_) hoption, rfl⟩
      · obtain ⟨flag, hflag'⟩ := isConfigFlag_iff.mp h
        exact hflag flag hflag'
      · exact hinput h.1 (input_asked_eq_none_iff.mp h.2)
    | second hoption hinput =>
      refine ⟨_, .second (mt looksLikeOption_of_isConfigFlag hoption) hoption ?_, rfl⟩
      exact Option.isSome_iff_ne_none.mpr (mt input_asked_eq_none_iff.mp hinput)
  · rintro ⟨e, hrefuses, rfl⟩
    cases hrefuses with
    | noPath hflag =>
      obtain ⟨flag, rfl⟩ := isConfigFlag_iff.mp hflag
      exact .noPath flag
    | unknown hflag hinput hoption =>
      refine .unknown hoption (fun flag hflag' ↦ ?_) (fun hdash hfiles ↦ ?_)
      · exact hflag (isConfigFlag_iff.mpr ⟨flag, hflag'⟩)
      · exact hinput ⟨hdash, input_asked_eq_none_iff.mpr hfiles⟩
    | second hflag hoption hinput =>
      refine .second hoption (mt input_asked_eq_none_iff.mpr ?_)
      exact Option.isSome_iff_ne_none.mp hinput

/-! ### Parts out of their places -/

/-- What is read behind a row of parts depends on what follows it and nothing else. -/
theorem parseFrom_spelled_congr {first second : List String}
    (h : ∀ b, parseFrom b first = parseFrom b second) (a : Arguments) (parts : List Part) :
    parseFrom a (spelled parts ++ first) = parseFrom a (spelled parts ++ second) := by
  induction parts generalizing a with
  | nil => exact h a
  | cons part more ih =>
    rw [spelled_cons, List.append_assoc, List.append_assoc]
    cases part with
    | config flag path => rw [parseFrom_config, parseFrom_config, ih]
    | operand o =>
      by_cases hinput : a.input = none
      · rw [parseFrom_operand o hinput, parseFrom_operand o hinput, ih]
      · rw [parseFrom_operand_behind_file o hinput, parseFrom_operand_behind_file o hinput]

theorem parseFrom_config_operand (flag : ConfigFlag) (path : String) (o : Operand)
    (rest : List String) :
    parseFrom a ((Part.config flag path).words ++ ((Part.operand o).words ++ rest)) =
      parseFrom a ((Part.operand o).words ++ ((Part.config flag path).words ++ rest)) := by
  rw [parseFrom_config]
  obtain ⟨config, input⟩ := a
  by_cases hinput : input = none
  · rw [parseFrom_operand o hinput, parseFrom_operand o hinput, parseFrom_config]
  · rw [parseFrom_operand_behind_file o hinput, parseFrom_operand_behind_file o hinput]

/-- A command line is accepted if and only if it is an orderly row of parts, and the parts say what
it asks for. Otherwise the first part that cannot go on with those before it decides the message. A
configuration may change places with an operand. -/
theorem parse_by_grammar (arguments : List String) :
    (∀ a, parse arguments = .ok a ↔
      ∃ parts, Orderly parts ∧ arguments = spelled parts ∧ a = asked parts) ∧
    (∀ message, (parse arguments).mapError UsageError.message = .error message ↔
      ∃ parts argument rest, Orderly parts ∧ arguments = spelled parts ++ argument :: rest ∧
        Offends parts argument rest message) ∧
    ∀ before after flag path o,
      parse (spelled (before ++ .config flag path :: .operand o :: after)) =
        parse (spelled (before ++ .operand o :: .config flag path :: after)) := by
  refine ⟨fun a ↦ parse_eq_ok_iff, fun message ↦ ?_, fun before after flag path o ↦ ?_⟩
  · rw [mapError_eq_error_iff]
    constructor
    · rintro ⟨e, hparse, rfl⟩
      obtain ⟨first, argument, rest, a, rfl, hfirst, hrefuses⟩ := parse_eq_error_iff.mp hparse
      obtain ⟨parts, horderly, rfl, rfl⟩ := parse_eq_ok_iff.mp hfirst
      exact ⟨parts, argument, rest, horderly, rfl, offends_iff.mpr ⟨e, hrefuses, rfl⟩⟩
    · rintro ⟨parts, argument, rest, horderly, rfl, hoffends⟩
      obtain ⟨e, hrefuses, rfl⟩ := offends_iff.mp hoffends
      have hparts := parse_spelled_eq_ok_iff.mpr ⟨horderly, rfl⟩
      exact ⟨e, parse_eq_error_iff.mpr ⟨_, argument, rest, _, rfl, hparts, hrefuses⟩, rfl⟩
  · simp only [spelled_append, spelled_cons]
    exact parseFrom_spelled_congr (fun b ↦ parseFrom_config_operand flag path o _) _ before

example : parse ["-c", "-", "-", "event.json"] = .ok ⟨some "-", some "event.json"⟩ := by decide

/-! ### The standard input as an operand -/

/-- The standard input, where it is named, is read if and only if no file follows. It cannot be named
behind a file, and in front of one it makes no difference. -/
theorem parse_around_standardInput (before after : List Part) :
    (∀ a, parse (spelled (before ++ .operand .standardInput :: after)) = .ok a →
      (a.input = none ↔ files after = [])) ∧
    (files before ≠ [] →
      ∃ e, parse (spelled (before ++ .operand .standardInput :: after)) = .error e) ∧
    (files before = [] → parse (spelled (before ++ .operand .standardInput :: after)) =
      parse (spelled (before ++ after))) := by
  have hnamed : ∀ a, parse (spelled (before ++ .operand .standardInput :: after)) = .ok a →
      files before = [] ∧ a.input = (files after).head? := by
    intro a ha
    obtain ⟨horderly, rfl⟩ := parse_spelled_eq_ok_iff.mp ha
    rw [← List.singleton_append, ← List.append_assoc] at horderly
    have hbefore := ((orderly_operand_iff _).mp horderly.of_append).2
    refine ⟨hbefore, congrArg List.head? ?_⟩
    rw [files_append, hbefore]
    rfl
  refine ⟨fun a ha ↦ ?_, fun hbefore ↦ ?_, fun hbefore ↦ ?_⟩
  · rw [(hnamed a ha).2, List.head?_eq_none_iff]
  · cases hparse : parse (spelled (before ++ .operand .standardInput :: after)) with
    | error e => exact ⟨e, rfl⟩
    | ok a => exact absurd (hnamed a hparse).1 hbefore
  · have hread := parse_spelled_eq_ok_iff.mpr ⟨orderly_of_files_eq_nil hbefore, rfl⟩
    have hnone : (asked before).input = none := input_asked_eq_none_iff.mpr hbefore
    have hsame : { asked before with input := Operand.standardInput.file? } = asked before := by
      rw [Operand.file?, ← hnone]
    rw [spelled_append, spelled_append, spelled_cons, parse, parseFrom_append hread, parse,
      parseFrom_append hread, parseFrom_operand _ hnone, hsame]

theorem parse_around_standardInput_event :
    parse ["-", "-c", "-"] = .ok ⟨some "-", none⟩ ∧ files [.config .short "-"] = [] ∧
      (∃ e, parse ["event.json", "-"] = .error e) ∧
      parse ["-", "event.json"] = parse ["event.json"] := by
  have hfile : ¬ looksLikeOption "event.json" := by decide
  have hparse : parse ["-", "-c", "-"] = .ok ⟨some "-", none⟩ := by rfl
  exact ⟨hparse, ((parse_around_standardInput [] [.config .short "-"]).1 _ hparse).mp rfl,
    (parse_around_standardInput [.operand (.file "event.json" hfile)] []).2.1
      (List.cons_ne_nil "event.json" []),
    (parse_around_standardInput [] [.operand (.file "event.json" hfile)]).2.2 rfl⟩

/-- The standard input is named, and a file is read. -/
theorem not_input_eq_none_of_standardInput :
    parse ["-", "event.json"] = .ok ⟨none, some "event.json"⟩ ∧
      ¬ ∀ before after a,
        parse (spelled (before ++ .operand .standardInput :: after)) = .ok a → a.input = none := by
  have hparse : parse ["-", "event.json"] = .ok ⟨none, some "event.json"⟩ := by rfl
  refine ⟨hparse, fun h ↦ ?_⟩
  have hinput := h [] [.operand (.file "event.json" (by decide))] _ hparse
  exact nomatch hinput

end ChangeDdl.CommandLine.Arguments
