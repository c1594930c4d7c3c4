import Scripting.Proofs.Reading.Literals
import Scripting.Proofs.Session.Termination
import Scripting.Proofs.Token.Bare

/-!
# How running a text ends

A run has a value, or it fails in one of few ways. Syntax errors and calls that are nested too
deeply are failures that a host has to expect. One more is left: a text with an integer literal of
more digits than the host takes for a number fails with nothing but the number of these digits,
where a literal that is merely too large is one syntax error among the others.

Which calls are nested too deeply is up to the recursion limit in the options. A higher limit never
changes a value that a run has under a lower one.
-/

namespace Scripting

/-- The largest recursion limit that a host is able to set. Asked for a larger one it breaks off a
run before anything is evaluated. -/
def largestRecursionLimit : Int := 2147483647

/-- The first integer literal of a text with more digits than the limit. -/
def overlongLiteral? (text : String) : Option String :=
  (integerLiterals text).find? fun literal => digitLimit < literal.length

/-- The integer literals of a text for numbers above the largest integer. -/
def oversizedLiterals (text : String) : List String :=
  (integerLiterals text).filter fun literal => largestInteger < literalValue literal

theorem literalFault_of_digitRow {literal : String} (h : DigitRow literal) :
    literalFault? literal =
      if digitLimit < literal.length then some (.literalTooLong literal.length)
      else if largestInteger < literalValue literal then some (.integerTooLarge literal)
      else none := by
  rw [literalFault?, literalDigits_of_digitRow h, String.length_toList]

section

variable {literals : List String} (hrows : ∀ literal ∈ literals, DigitRow literal)

include hrows

/-- The first literal that is too long is the one that a reading is refused for. -/
theorem findSome_tooLong :
    (literals.filterMap literalFault?).findSome? SyntaxError.tooLong? =
      (literals.find? fun literal => digitLimit < literal.length).map String.length := by
  induction literals with
  | nil => rfl
  | cons literal literals ih =>
      obtain ⟨hrow, hrows⟩ := List.forall_mem_cons.mp hrows
      rw [List.filterMap_cons, literalFault_of_digitRow hrow]
      by_cases hlong : digitLimit < literal.length
      · rw [List.find?_cons_of_pos (by simpa using hlong), if_pos hlong]
        rfl
      · rw [List.find?_cons_of_neg (by simpa using hlong), if_neg hlong, ← ih hrows]
        by_cases hlarge : largestInteger < literalValue literal
        · rw [if_pos hlarge]
          rfl
        · rw [if_neg hlarge]

/-- Where no literal is too long, those that are too large are refused. -/
theorem filterMap_literalFault (hshort : ∀ literal ∈ literals, literal.length ≤ digitLimit) :
    literals.filterMap literalFault? =
      (literals.filter fun literal => largestInteger < literalValue literal).map
        .integerTooLarge := by
  induction literals with
  | nil => rfl
  | cons literal literals ih =>
      obtain ⟨hrow, hrows⟩ := List.forall_mem_cons.mp hrows
      obtain ⟨hlength, hshort⟩ := List.forall_mem_cons.mp hshort
      rw [List.filterMap_cons, literalFault_of_digitRow hrow, if_neg (Nat.not_lt.mpr hlength),
        ih hrows hshort]
      by_cases hlarge : largestInteger < literalValue literal
      · rw [List.filter_cons_of_pos (by simpa using hlarge), if_pos hlarge]
        rfl
      · rw [List.filter_cons_of_neg (by simpa using hlarge), if_neg hlarge]

end

namespace SyntaxError

theorem tooLong_eq_some {e : SyntaxError} {digits : Nat} :
    e.tooLong? = some digits ↔ e = .literalTooLong digits := by
  cases e <;> simp [tooLong?]

end SyntaxError

namespace Reading

variable {reading : Reading}

/-- What keeps a reading from giving a program. -/
theorem program?_eq_error {failure : Failure} (h : reading.program? = .error failure) :
    (∃ digits, .literalTooLong digits ∈ reading.errors ∧ failure = .literalTooLong digits) ∨
      reading.errors ≠ [] ∧ failure = .syntaxErrors reading.errors := by
  rw [program?] at h
  split at h
  · next digits htooLong =>
      cases h
      obtain ⟨e, he, hdigits⟩ := List.exists_of_findSome?_eq_some htooLong
      exact .inl ⟨digits, SyntaxError.tooLong_eq_some.mp hdigits ▸ he, rfl⟩
  · split at h
    · cases h
    · next hne =>
        cases h
        exact .inr ⟨fun hnil => hne (List.isEmpty_iff.mpr hnil), rfl⟩

theorem program?_of_tooLong {digits : Nat} (h : reading.tooLong? = some digits) :
    reading.program? = .error (.literalTooLong digits) := by
  rw [program?, h]

theorem program?_of_errors (h : reading.tooLong? = none) (hne : reading.errors ≠ []) :
    reading.program? = .error (.syntaxErrors reading.errors) := by
  rw [program?, h, if_neg (by simpa using hne)]

end Reading

namespace Session

variable {session : Session} {text : String}

theorem run_of_program?_error {failure : Failure}
    (h : (Reading.ofText text).program? = .error failure) :
    session.run text = (.error failure, session) := by
  rw [run, h]

/-- How a run ends. -/
theorem run_cases (session : Session) (text : String) :
    (∃ v, (session.run text).1 = .ok v) ∨
      (Reading.ofText text).errors ≠ [] ∧
        (session.run text).1 = .error (.syntaxErrors (Reading.ofText text).errors) ∨
      (session.run text).1 = .error .tooDeep ∨
      ∃ literal ∈ integerLiterals text, digitLimit < literal.length ∧
        (session.run text).1 = .error (.literalTooLong literal.length) := by
  cases hprogram : (Reading.ofText text).program? with
  | error failure =>
      rw [run_of_program?_error hprogram]
      obtain ⟨digits, hmem, rfl⟩ | ⟨hne, rfl⟩ := Reading.program?_eq_error hprogram
      · obtain ⟨literal, hliteral, hfault⟩ := Reading.exists_literal_of_blames hmem rfl
        rw [literalFault_of_digitRow (digitRow_of_mem_integerLiterals hliteral)] at hfault
        refine .inr (.inr (.inr ⟨literal, hliteral, ?_⟩))
        split at hfault
        · next hlong =>
            cases hfault
            exact ⟨hlong, rfl⟩
        · split at hfault <;> cases hfault
      · exact .inr (.inl ⟨hne, rfl⟩)
  | ok program =>
      rw [run_of_read hprogram, evaluateWithin_eq]
      split
      · exact .inl ⟨_, rfl⟩
      · exact .inr (.inr (.inl rfl))

/-- A run that counts runtime errors as failures ends as a run does, but for these. -/
theorem runOrFail_cases (session : Session) (text : String) :
    (session.runOrFail text).1 = (session.run text).1 ∨
      ∃ e, (session.run text).1 = .ok (.failed e) ∧
        (session.runOrFail text).1 = .error (.runtime e) := by
  unfold runOrFail
  split
  · next e _ h => exact .inr ⟨e, by rw [h], rfl⟩
  · exact .inl rfl

/-- A run fails for calls that are nested too deeply exactly if its text is read without faults as a
program that nests more bodies than the recursion limit allows. -/
theorem run_eq_tooDeep_iff (session : Session) (text : String) :
    (session.run text).1 = .error .tooDeep ↔
      ∃ program, (Reading.ofText text).program? = .ok program ∧
        (Part.block program).Nests session.options session.options.depthLimit session.root
          session.state := by
  cases hprogram : (Reading.ofText text).program? with
  | error failure =>
      rw [run_of_program?_error hprogram]
      obtain ⟨digits, -, rfl⟩ | ⟨-, rfl⟩ := Reading.program?_eq_error hprogram
      · simp
      · simp
  | ok program =>
      rw [run_of_read hprogram, evaluateWithin_eq_tooDeep_iff]
      simp

/-- Where bodies nest no deeper than the recursion limit allows, a run has the value that there is
under the lower limit. -/
theorem run_of_runWithin {depth : Nat} {v : Value} {after : Session}
    (hle : depth ≤ session.options.depthLimit)
    (h : session.runWithin depth text = (.ok v, after)) : session.run text = (.ok v, after) := by
  rw [run_eq_runWithin]
  cases hprogram : (Reading.ofText text).program? with
  | error failure =>
      rw [runWithin_of_not_read hprogram] at h
      cases h
  | ok program =>
      rw [runWithin_of_read hprogram] at h ⊢
      exact evaluateWithin_mono_depth hle h

variable {f : String → String}

/-- A text that would be fine with other integers in it is refused for the first literal that is
too long. -/
theorem run_of_overlong
    (hfine : (Reading.ofTokens ((tokenize text).map (Token.respell f))).errors = [])
    {literal : String} (hlong : overlongLiteral? text = some literal) :
    session.run text = (.error (.literalTooLong literal.length), session) := by
  refine run_of_program?_error (Reading.program?_of_tooLong ?_)
  rw [Reading.tooLong?, Reading.errors_of_respell f text hfine,
    findSome_tooLong fun _ => digitRow_of_mem_integerLiterals]
  exact congrArg (Option.map String.length) hlong

/-- A text that would be fine with other integers in it, none of them too long, has one syntax error
for each that is too large. -/
theorem run_of_oversized
    (hfine : (Reading.ofTokens ((tokenize text).map (Token.respell f))).errors = [])
    (hshort : overlongLiteral? text = none) (hlarge : oversizedLiterals text ≠ []) :
    session.run text =
      (.error (.syntaxErrors ((oversizedLiterals text).map .integerTooLarge)), session) := by
  have hrows : ∀ literal ∈ integerLiterals text, DigitRow literal := fun _ =>
    digitRow_of_mem_integerLiterals
  have hlengths : ∀ literal ∈ integerLiterals text, literal.length ≤ digitLimit := by
    simpa [overlongLiteral?] using hshort
  have herrors := Reading.errors_of_respell f text hfine
  have hnone : (Reading.ofText text).tooLong? = none := by
    rw [Reading.tooLong?, herrors, findSome_tooLong hrows]
    exact congrArg (Option.map String.length) hshort
  rw [filterMap_literalFault hrows hlengths] at herrors
  have hne : (Reading.ofText text).errors ≠ [] := by
    rw [herrors]
    exact mt List.map_eq_nil_iff.mp hlarge
  rw [run_of_program?_error (Reading.program?_of_errors hnone hne), herrors, oversizedLiterals]

end Session

/-- The wording of syntax errors for literals that are too large. -/
theorem Failure.message_integerTooLarge (literals : List String) :
    (Failure.syntaxErrors (literals.map .integerTooLarge)).message =
      "\n".intercalate (literals.map fun literal =>
        "could not parse \"" ++ literal ++ "\" as integer") := by
  rw [message, List.map_map]
  rfl

/-! ### Texts of digits -/

theorem integerLiterals_eq (text : String) :
    integerLiterals text = (integerTokens (bareTokens text.toList)).map Token.literal := by
  rw [bareTokens, integerTokens, List.filter_map, List.map_map]
  rfl

theorem Reading.ofTokens_respell_bareTokens (f : String → String) (text : String) :
    ofTokens ((tokenize text).map (Token.respell f)) =
      ofTokens ((bareTokens text.toList).map (Token.respell f)) := by
  have hcomm : ∀ t : Token, (t.respell f).bare = t.bare.respell f :=
    fun t => apply_ite Token.bare _ _ _
  rw [← ofTokens_bare, List.map_map, bareTokens, List.map_map]
  exact congrArg ofTokens (List.map_congr_left fun t _ => hcomm t)

theorem bareTokens_of_digitRow {text : String} (hne : text ≠ "") (h : DigitRow text) :
    bareTokens text.toList = [⟨.int, text, 0⟩, ⟨.eof, "", 0⟩] := by
  rw [← List.append_nil text.toList, bareTokens_digitRow hne h endsRun_nil, bareTokens_nil]

theorem integerLiterals_of_digitRow {text : String} (hne : text ≠ "") (h : DigitRow text) :
    integerLiterals text = [text] := by
  rw [integerLiterals_eq, bareTokens_of_digitRow hne h]
  rfl

theorem Reading.errors_zero_of_digitRow {text : String} (hne : text ≠ "") (h : DigitRow text) :
    (ofTokens ((tokenize text).map (Token.respell fun _ => "0"))).errors = [] := by
  rw [ofTokens_respell_bareTokens, bareTokens_of_digitRow hne h]
  cbv

/-- A number that is written with ones. -/
def rowOfOnes (digits : Nat) : String :=
  String.ofList (List.replicate digits '1')

theorem length_rowOfOnes (digits : Nat) : (rowOfOnes digits).length = digits := by
  rw [rowOfOnes, String.length_ofList, List.length_replicate]

theorem digitRow_rowOfOnes (digits : Nat) : DigitRow (rowOfOnes digits) := by
  intro c hc
  rw [rowOfOnes, String.toList_ofList] at hc
  rw [List.eq_of_mem_replicate hc]
  rfl

theorem rowOfOnes_ne {digits : Nat} (h : digits ≠ 0) : rowOfOnes digits ≠ "" := by
  intro hempty
  have hlength := length_rowOfOnes digits
  rw [hempty] at hlength
  exact h hlength.symm

/-! ### The boundary -/

/-- The boundary of runs. Reading a text takes its course whatever integers are in it: it records
what is wrong with each that it takes for an operand among the errors that it finds anyway. A run
under a recursion limit that the host can set has a value, or it fails for syntax errors, for calls
that are nested too deeply or, where the host wants that, for a runtime error; the only other way
out that a text can take is an integer literal with more digits than the limit. Where integers are
all that is wrong with a text, those that are too large are its syntax errors unless there is one
that is too long, which keeps any of them from being reported.

Failures of the host itself are not among those here. Setting the recursion limit always succeeds
(`Session.evaluate`), so that no step of the proof needs the premise about it: the premise keeps the
statement to limits that a host does set. Printing always succeeds too (`Eval.printLine`), where the
stream of a host may refuse a character or be closed, and memory and the stack while a text is read
are taken to suffice. -/
theorem runs_fail_in_few_ways (session : Session) (text : String) :
    (∀ f : String → String, ∃ taken rest marks, tokenize text = taken ++ rest ∧
      Marks taken marks ∧
      (Reading.ofText text).errors.map SyntaxError.bare = marks.flatMap (Mark.errors id) ∧
      (Reading.ofTokens ((tokenize text).map (Token.respell f))).errors.map SyntaxError.bare =
        marks.flatMap (Mark.errors f)) ∧
    (session.options.recursionLimit ≤ largestRecursionLimit →
      ∀ outcome ∈ [(session.run text).1, (session.runOrFail text).1],
        (∃ v, outcome = .ok v) ∨
          (Reading.ofText text).errors ≠ [] ∧
            outcome = .error (.syntaxErrors (Reading.ofText text).errors) ∨
          outcome = .error .tooDeep ∨
          (∃ e, (session.run text).1 = .ok (.failed e) ∧ outcome = .error (.runtime e)) ∨
          ∃ literal ∈ integerLiterals text, digitLimit < literal.length ∧
            outcome = .error (.literalTooLong literal.length)) ∧
    ∀ f : String → String,
      (Reading.ofTokens ((tokenize text).map (Token.respell f))).errors = [] →
        (∀ literal, overlongLiteral? text = some literal →
          session.run text = (.error (.literalTooLong literal.length), session)) ∧
        (overlongLiteral? text = none → oversizedLiterals text ≠ [] →
          ∃ failure, session.run text = (.error failure, session) ∧
            failure = .syntaxErrors ((oversizedLiterals text).map .integerTooLarge) ∧
            failure.message = "\n".intercalate ((oversizedLiterals text).map fun literal =>
              "could not parse \"" ++ literal ++ "\" as integer")) := by
  refine ⟨fun f => ?_, fun _ outcome houtcome => ?_, fun f hfine => ⟨fun literal => ?_, ?_⟩⟩
  · obtain ⟨taken, rest, marks, hsplit, hmarks, herrors, herrors', -⟩ :=
      Reading.ofTokens_respell f (tokenize text)
    exact ⟨taken, rest, marks, hsplit, hmarks, herrors, herrors'⟩
  · have hrun : (session.run text).1 = outcome ∨
        ∃ e, (session.run text).1 = .ok (.failed e) ∧ outcome = .error (.runtime e) := by
      simp only [List.mem_cons, List.not_mem_nil, or_false] at houtcome
      obtain rfl | rfl := houtcome
      · exact .inl rfl
      · exact (session.runOrFail_cases text).imp_left Eq.symm
    obtain rfl | hfailed := hrun
    · obtain h | h | h | h := session.run_cases text
      · exact .inl h
      · exact .inr (.inl h)
      · exact .inr (.inr (.inl h))
      · exact .inr (.inr (.inr (.inr h)))
    · exact .inr (.inr (.inr (.inl hfailed)))
  · exact Session.run_of_overlong hfine
  · intro hshort hlarge
    exact ⟨_, Session.run_of_oversized hfine hshort hlarge, rfl,
      Failure.message_integerTooLarge _⟩

theorem runs_fail_in_few_ways_of_ones :
    (Session.start {}).options.recursionLimit ≤ largestRecursionLimit ∧
      (Session.start {}).run (rowOfOnes 4301) =
        (.error (.literalTooLong 4301), Session.start {}) ∧
      ∃ failure, (Session.start {}).run (rowOfOnes 20) = (.error failure, Session.start {}) ∧
        failure.message = "could not parse \"11111111111111111111\" as integer" := by
  have hliterals (digits : Nat) (h : digits ≠ 0) :
      integerLiterals (rowOfOnes digits) = [rowOfOnes digits] :=
    integerLiterals_of_digitRow (rowOfOnes_ne h) (digitRow_rowOfOnes digits)
  have hfine (digits : Nat) (h : digits ≠ 0) :=
    Reading.errors_zero_of_digitRow (rowOfOnes_ne h) (digitRow_rowOfOnes digits)
  obtain ⟨-, -, hlong⟩ := runs_fail_in_few_ways (Session.start {}) (rowOfOnes 4301)
  obtain ⟨-, -, hlarge⟩ := runs_fail_in_few_ways (Session.start {}) (rowOfOnes 20)
  refine ⟨by decide, ?_, ?_⟩
  · have hfound : overlongLiteral? (rowOfOnes 4301) = some (rowOfOnes 4301) := by
      rw [overlongLiteral?, hliterals 4301 (by decide)]
      refine List.find?_cons_of_pos ?_
      rw [length_rowOfOnes]
      decide
    have hrun := (hlong _ (hfine 4301 (by decide))).1 _ hfound
    rwa [length_rowOfOnes] at hrun
  · have hones := hliterals 20 (by decide)
    have hshort : overlongLiteral? (rowOfOnes 20) = none := by
      rw [overlongLiteral?, hones]
      decide
    have hkept : oversizedLiterals (rowOfOnes 20) = [rowOfOnes 20] := by
      rw [oversizedLiterals, hones]
      decide
    obtain ⟨failure, hrun, -, hmessage⟩ :=
      (hlarge _ (hfine 20 (by decide))).2 hshort (hkept ▸ List.cons_ne_nil _ _)
    refine ⟨failure, hrun, ?_⟩
    rw [hmessage, hkept]
    decide

end Scripting
