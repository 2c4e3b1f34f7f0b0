import ChangeDdl.CommandLine.Directory
import ChangeDdl.CommandLine.Run
import ChangeDdl.Proofs.CommandLine.Arguments
import ChangeDdl.Proofs.Config.Grammar

/-!
The course of a run. The stages follow each other in a fixed order, and the first that fails decides
the outcome: nothing is printed but its message (`run_course`). What stands in a file that is read
later, or in one that is not read at all, makes no difference.
-/

set_option autoImplicit false
set_option relaxedAutoImplicit false

namespace ChangeDdl.CommandLine

/-! ### Stages -/

theorem run_bind {ε α β : Type} (x : ExceptT ε Id α) (f : α → ExceptT ε Id β) :
    (x >>= f).run = (x.run >>= fun a ↦ (f a).run : Except ε β) := by
  change Except ε α at x
  cases x with
  | error e => rfl
  | ok a => rfl

variable {host other : Host Id} {arguments : List String}

theorem run_statements (host : Host Id) (arguments : List String) :
    (statements host arguments).run =
      ((Arguments.parse arguments).mapError .usage >>= fun a ↦
        (synthesizer host a.config).run >>= fun s ↦
          (inputText host a.input).run >>= fun text ↦
            (ChangeEvent.decode text).mapError .ddl >>= fun event ↦
              (s.synthesize event).mapError .ddl : Except Failure String) := by
  simp only [statements, run_bind]
  rfl

theorem run_synthesizer (host : Host Id) (path : String) :
    (synthesizer host (some path)).run =
      ((host.readFile path).mapError .config >>= fun text ↦
        (Config.decode text).mapError .ddl >>= fun c ↦
          .ok c.synthesizer : Except Failure Synthesizer) := by
  simp only [synthesizer, run_bind]
  rfl

theorem run_synthesizer_of_ok {path text : String} (hread : host.readFile path = .ok text) :
    (synthesizer host (some path)).run =
      ((Config.decode text).mapError .ddl >>= fun c ↦
        .ok c.synthesizer : Except Failure Synthesizer) := by
  rw [run_synthesizer, hread]
  rfl

theorem run_statements_of_ok {a : Arguments} (ha : Arguments.parse arguments = .ok a) :
    (statements host arguments).run =
      ((synthesizer host a.config).run >>= fun s ↦
        (inputText host a.input).run >>= fun text ↦
          (ChangeEvent.decode text).mapError .ddl >>= fun event ↦
            (s.synthesize event).mapError .ddl : Except Failure String) := by
  rw [run_statements, ha]
  rfl

/-- What is read for an input path, or without one. -/
def source (host : Host Id) : Option String → Except ReadFault String
  | none => host.readInput
  | some path => host.readFile path

theorem run_inputText (host : Host Id) (input : Option String) :
    (inputText host input).run = (source host input).mapError .input := by
  cases input with
  | none => rfl
  | some path => rfl

/-! ### Courses -/

/-- The synthesizer for a configuration path whose file is read, decoded and valid, or without a
path. -/
inductive Chosen (host : Host Id) : Option String → Synthesizer → Prop where
  | standard : Chosen host none .standard
  | config {path text : String} {c : Config} (hread : host.readFile path = .ok text)
    (hparse : Config.shape.parse text = .ok c) (hvalid : c.dialect.validate = .ok ()) :
    Chosen host (some path) c.synthesizer

/-- The first stage that fails and its message, or the statements if no stage fails. -/
inductive Course (host : Host Id) (arguments : List String) : Except String String → Prop where
  | usage {first rest : List String} {argument : String} {a : Arguments} {e : UsageError}
    (harguments : arguments = first ++ argument :: rest) (hfirst : Arguments.parse first = .ok a)
    (hrefuses : a.Refuses argument rest e) : Course host arguments (.error e.message)
  | configFile {a : Arguments} {path : String} {fault : ReadFault}
    (ha : Arguments.parse arguments = .ok a) (hconfig : a.config = some path)
    (hread : host.readFile path = .error fault) : Course host arguments (.error fault.message)
  | config {a : Arguments} {path text : String} {e : Json.DecodeError}
    (ha : Arguments.parse arguments = .ok a) (hconfig : a.config = some path)
    (hread : host.readFile path = .ok text) (hparse : Config.shape.parse text = .error e) :
    Course host arguments (.error (Error.decode e).message)
  | dialect {a : Arguments} {path text : String} {c : Config} {r : Dialect.Required}
    (ha : Arguments.parse arguments = .ok a) (hconfig : a.config = some path)
    (hread : host.readFile path = .ok text) (hparse : Config.shape.parse text = .ok c)
    (hvalid : c.dialect.validate = .error r) :
    Course host arguments (.error (Error.emptyInDialect r).message)
  | input {a : Arguments} {s : Synthesizer} {fault : ReadFault}
    (ha : Arguments.parse arguments = .ok a) (hs : Chosen host a.config s)
    (hinput : source host a.input = .error fault) :
    Course host arguments (.error ("failed to read input: " ++ fault.message))
  | event {a : Arguments} {s : Synthesizer} {text : String} {e : Error}
    (ha : Arguments.parse arguments = .ok a) (hs : Chosen host a.config s)
    (hinput : source host a.input = .ok text) (hevent : ChangeEvent.decode text = .error e) :
    Course host arguments (.error e.message)
  | synthesis {a : Arguments} {s : Synthesizer} {text : String} {event : ChangeEvent} {e : Error}
    (ha : Arguments.parse arguments = .ok a) (hs : Chosen host a.config s)
    (hinput : source host a.input = .ok text) (hevent : ChangeEvent.decode text = .ok event)
    (hsql : s.synthesize event = .error e) : Course host arguments (.error e.message)
  | done {a : Arguments} {s : Synthesizer} {text sql : String} {event : ChangeEvent}
    (ha : Arguments.parse arguments = .ok a) (hs : Chosen host a.config s)
    (hinput : source host a.input = .ok text) (hevent : ChangeEvent.decode text = .ok event)
    (hsql : s.synthesize event = .ok sql) : Course host arguments (.ok sql)

theorem Chosen.run_synthesizer {config : Option String} {s : Synthesizer}
    (h : Chosen host config s) : (synthesizer host config).run = .ok s := by
  cases h with
  | standard => rfl
  | @config path text c hread hparse hvalid =>
    rw [run_synthesizer_of_ok hread, Config.decode_eq_ok_iff.mpr ⟨hparse, hvalid⟩]
    rfl

/-- A course leads to the result of the run. -/
theorem Course.run_statements {r : Except String String} (h : Course host arguments r) :
    (statements host arguments).run.mapError Failure.message = r := by
  cases h with
  | usage harguments hfirst hrefuses =>
    have hparse := Arguments.parse_eq_error_iff.mpr ⟨_, _, _, _, harguments, hfirst, hrefuses⟩
    rw [CommandLine.run_statements, hparse]
    rfl
  | configFile ha hconfig hread =>
    rw [run_statements_of_ok ha, hconfig, run_synthesizer, hread]
    rfl
  | config ha hconfig hread hparse =>
    rw [run_statements_of_ok ha, hconfig, run_synthesizer_of_ok hread,
      Config.decode_eq_decode_iff.mpr hparse]
    rfl
  | dialect ha hconfig hread hparse hvalid =>
    rw [run_statements_of_ok ha, hconfig, run_synthesizer_of_ok hread,
      Config.decode_eq_emptyInDialect_iff.mpr ⟨_, hparse, hvalid⟩]
    rfl
  | input ha hs hinput =>
    rw [run_statements_of_ok ha, hs.run_synthesizer, run_inputText, hinput]
    rfl
  | event ha hs hinput hevent =>
    rw [run_statements_of_ok ha, hs.run_synthesizer, run_inputText, hinput]
    simp only [Except.mapError, bind, Except.bind, hevent]
    rfl
  | synthesis ha hs hinput hevent hsql =>
    rw [run_statements_of_ok ha, hs.run_synthesizer, run_inputText, hinput]
    simp only [Except.mapError, bind, Except.bind, hevent, hsql]
    rfl
  | done ha hs hinput hevent hsql =>
    rw [run_statements_of_ok ha, hs.run_synthesizer, run_inputText, hinput]
    simp only [Except.mapError, bind, Except.bind, hevent, hsql]

/-- A configuration is chosen, or the run ends before there is one. -/
theorem chosen_or_course (host : Host Id) {a : Arguments} (ha : Arguments.parse arguments = .ok a) :
    (∃ s, Chosen host a.config s) ∨ ∃ r, Course host arguments r := by
  cases hconfig : a.config with
  | none => exact Or.inl ⟨_, .standard⟩
  | some path =>
    cases hread : host.readFile path with
    | error fault => exact Or.inr ⟨_, .configFile ha hconfig hread⟩
    | ok text =>
      cases hparse : Config.shape.parse text with
      | error e => exact Or.inr ⟨_, .config ha hconfig hread hparse⟩
      | ok c =>
        cases hvalid : c.dialect.validate with
        | error r => exact Or.inr ⟨_, .dialect ha hconfig hread hparse hvalid⟩
        | ok _ => exact Or.inl ⟨_, .config hread hparse hvalid⟩

theorem exists_course (host : Host Id) (arguments : List String) :
    ∃ r, Course host arguments r := by
  cases ha : Arguments.parse arguments with
  | error e =>
    obtain ⟨first, argument, rest, a, harguments, hfirst, hrefuses⟩ :=
      Arguments.parse_eq_error_iff.mp ha
    exact ⟨_, .usage harguments hfirst hrefuses⟩
  | ok a =>
    rcases chosen_or_course host ha with ⟨s, hs⟩ | hcourse
    · cases hinput : source host a.input with
      | error fault => exact ⟨_, .input ha hs hinput⟩
      | ok text =>
        cases hevent : ChangeEvent.decode text with
        | error e => exact ⟨_, .event ha hs hinput hevent⟩
        | ok event =>
          cases hsql : s.synthesize event with
          | error e => exact ⟨_, .synthesis ha hs hinput hevent hsql⟩
          | ok sql => exact ⟨_, .done ha hs hinput hevent hsql⟩
    · exact hcourse

theorem Course.unique {r s : Except String String} (hr : Course host arguments r)
    (hs : Course host arguments s) : r = s :=
  hr.run_statements.symm.trans hs.run_statements

theorem Course.run_of_ok {sql : String} (h : Course host arguments (.ok sql)) :
    run host arguments = ⟨0, sql ++ "\n", ""⟩ := by
  have hresult : (statements host arguments).run = .ok sql :=
    mapError_eq_ok_iff.mp h.run_statements
  show Outcome.ofResult (statements host arguments).run = _
  rw [hresult]
  rfl

theorem Course.run_of_error {message : String} (h : Course host arguments (.error message)) :
    run host arguments = ⟨1, "", "cdc-ddl: " ++ message ++ "\n"⟩ := by
  obtain ⟨failure, hresult, rfl⟩ := mapError_eq_error_iff.mp h.run_statements
  show Outcome.ofResult (statements host arguments).run = _
  rw [hresult]
  rfl

/-! ### What a run depends on -/

theorem Chosen.transfer {config : Option String} {s : Synthesizer} (h : Chosen host config s)
    (hconfig : ∀ path, config = some path → other.readFile path = host.readFile path) :
    Chosen other config s := by
  cases h with
  | standard => exact .standard
  | config hread hparse hvalid => exact .config ((hconfig _ rfl).trans hread) hparse hvalid

/-- A run depends on its configuration file and, once that has been accepted, on its input. -/
theorem Course.transfer {r : Except String String} (h : Course host arguments r)
    (hconfig : ∀ a path, Arguments.parse arguments = .ok a → a.config = some path →
      other.readFile path = host.readFile path)
    (hsource : ∀ a s, Arguments.parse arguments = .ok a → Chosen host a.config s →
      source other a.input = source host a.input) : Course other arguments r := by
  cases h with
  | usage harguments hfirst hrefuses => exact .usage harguments hfirst hrefuses
  | configFile ha hpath hread => exact .configFile ha hpath ((hconfig _ _ ha hpath).trans hread)
  | config ha hpath hread hparse =>
    exact .config ha hpath ((hconfig _ _ ha hpath).trans hread) hparse
  | dialect ha hpath hread hparse hvalid =>
    exact .dialect ha hpath ((hconfig _ _ ha hpath).trans hread) hparse hvalid
  | input ha hs hinput =>
    exact .input ha (hs.transfer fun _ ↦ hconfig _ _ ha) ((hsource _ _ ha hs).trans hinput)
  | event ha hs hinput hevent =>
    exact .event ha (hs.transfer fun _ ↦ hconfig _ _ ha) ((hsource _ _ ha hs).trans hinput) hevent
  | synthesis ha hs hinput hevent hsql =>
    exact .synthesis ha (hs.transfer fun _ ↦ hconfig _ _ ha) ((hsource _ _ ha hs).trans hinput)
      hevent hsql
  | done ha hs hinput hevent hsql =>
    exact .done ha (hs.transfer fun _ ↦ hconfig _ _ ha) ((hsource _ _ ha hs).trans hinput)
      hevent hsql

theorem run_congr {a : Arguments} (ha : Arguments.parse arguments = .ok a)
    (hconfig : ∀ path, a.config = some path → other.readFile path = host.readFile path)
    (hsource : ∀ s, Chosen host a.config s → source other a.input = source host a.input) :
    run other arguments = run host arguments := by
  have hsame : ∀ b, Arguments.parse arguments = .ok b → b = a :=
    fun b hb ↦ Except.ok.inj (hb.symm.trans ha)
  obtain ⟨r, hr⟩ := exists_course host arguments
  have hother : Course other arguments r :=
    hr.transfer (fun b path hb ↦ hsame b hb ▸ hconfig path) (fun b s hb ↦ hsame b hb ▸ hsource s)
  cases r with
  | ok sql => rw [hr.run_of_ok, hother.run_of_ok]
  | error message => rw [hr.run_of_error, hother.run_of_error]

/-- A run prints the statements and nothing else, or the message of the first stage that fails and
nothing else. When the configuration fails, the input does not matter; when an input file is named,
the standard input does not matter; and without a configuration file only the input matters. -/
theorem run_course (host : Host Id) (arguments : List String) :
    ((∃ sql, Course host arguments (.ok sql) ∧ run host arguments = ⟨0, sql ++ "\n", ""⟩) ∨
      ∃ message, Course host arguments (.error message) ∧
        run host arguments = ⟨1, "", "cdc-ddl: " ++ message ++ "\n"⟩) ∧
    (∀ r s, Course host arguments r → Course host arguments s → r = s) ∧
    ∀ (other : Host Id) (a : Arguments), Arguments.parse arguments = .ok a →
      (∀ path, a.config = some path → (¬ ∃ s, Chosen host (some path) s) →
        other.readFile path = host.readFile path → run other arguments = run host arguments) ∧
      (∀ path, a.input = some path → (∀ file, other.readFile file = host.readFile file) →
        run other arguments = run host arguments) ∧
      (a.config = none → source other a.input = source host a.input →
        run other arguments = run host arguments) := by
  refine ⟨?_, fun r s hr hs ↦ hr.unique hs, fun other a ha ↦ ⟨?_, ?_, ?_⟩⟩
  · obtain ⟨r, hr⟩ := exists_course host arguments
    cases r with
    | ok sql => exact Or.inl ⟨sql, hr, hr.run_of_ok⟩
    | error message => exact Or.inr ⟨message, hr, hr.run_of_error⟩
  · intro path hpath hfails hread
    refine run_congr ha (fun file hfile ↦ ?_) (fun s hs ↦ absurd ⟨s, hpath ▸ hs⟩ hfails)
    obtain rfl := Option.some.inj (hpath.symm.trans hfile)
    exact hread
  · intro path hpath hfiles
    refine run_congr ha (fun file _ ↦ hfiles file) (fun s _ ↦ ?_)
    rw [hpath]
    exact hfiles path
  · intro hnone hsource
    refine run_congr ha (fun path hpath ↦ ?_) (fun s _ ↦ hsource)
    rw [hnone] at hpath
    simp at hpath

/-- The configuration file is missing. What there is to read besides does not matter. -/
theorem run_course_missing :
    Arguments.parse ["-c", "c.json", "in.json"] = .ok ⟨some "c.json", some "in.json"⟩ ∧
      run ((Directory.mk []).host ByteArray.empty) ["-c", "c.json", "in.json"] =
        ⟨1, "", "cdc-ddl: No such file or directory (os error 2)\n"⟩ ∧
      run ((Directory.mk [(["in.json"], .file ByteArray.empty)]).host (ByteArray.mk #[255]))
          ["-c", "c.json", "in.json"] =
        ⟨1, "", "cdc-ddl: No such file or directory (os error 2)\n"⟩ := by
  have hparse : Arguments.parse ["-c", "c.json", "in.json"] =
      .ok ⟨some "c.json", some "in.json"⟩ := by rfl
  have hmissing : ((Directory.mk []).host ByteArray.empty).readFile "c.json" = .error .absent := by
    rfl
  have hrejected : ¬ ∃ s, Chosen ((Directory.mk []).host ByteArray.empty) (some "c.json") s := by
    rintro ⟨s, hs⟩
    cases hs with
    | config hread => simp [hmissing] at hread
  have hrun := (Course.configFile hparse rfl hmissing).run_of_error
  obtain ⟨_, _, hothers⟩ := run_course ((Directory.mk []).host ByteArray.empty)
    ["-c", "c.json", "in.json"]
  have hsame := (hothers ((Directory.mk [(["in.json"], .file ByteArray.empty)]).host
    (ByteArray.mk #[255])) _ hparse).1 "c.json" rfl hrejected rfl
  exact ⟨hparse, hrun, hsame.trans hrun⟩

end ChangeDdl.CommandLine
