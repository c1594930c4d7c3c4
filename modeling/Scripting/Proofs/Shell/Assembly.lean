import Mathlib
import Scripting.Shell

/-!
# How a shell assembles source text

A shell collects lines of source text until their brackets are closed, and hands them to its session
as one piece. So the lines that are to be evaluated fall into pieces, one behind the other, and the
lines that are still open. A piece closes with its last line and not before: `IsPiece` and
`StaysOpen` say so, and `exists_pieces` is the induction along the lines.
-/

namespace Scripting

/-- The source text of a line that asks for an evaluation. -/
def LineCommand.source? : LineCommand → Option String
  | source text => some text
  | _ => none

/-- What is evaluated of a line is the stripped line. -/
theorem LineCommand.eq_strip_of_source? {line text : String}
    (h : (ofLine line).source? = some text) : text = Text.strip line := by
  unfold ofLine at h
  dsimp only at h
  split at h
  · cases h
  · cases h
  · cases h
    rfl
  · split at h <;> cases h
    rfl

namespace Shell

/-- The text that lines make, each ended by a newline. -/
def joinLines (lines : List String) : String :=
  String.join (lines.map (· ++ "\n"))

@[simp] theorem joinLines_nil : joinLines [] = "" := rfl

theorem joinLines_cons (line : String) (lines : List String) :
    joinLines (line :: lines) = line ++ "\n" ++ joinLines lines := by
  rw [joinLines, List.map_cons, String.join_cons, joinLines]

theorem joinLines_append (lines more : List String) :
    joinLines (lines ++ more) = joinLines lines ++ joinLines more := by
  rw [joinLines, List.map_append, String.join_append, joinLines, joinLines]

theorem joinLines_singleton (line : String) : joinLines [line] = line ++ "\n" := by
  rw [joinLines_cons, joinLines_nil, String.append_empty]

theorem join_map_joinLines (pieces : List (List String)) :
    String.join (pieces.map joinLines) = joinLines pieces.flatten := by
  induction pieces with
  | nil => rfl
  | cons piece pieces ih =>
      rw [List.map_cons, String.join_cons, ih, List.flatten_cons, joinLines_append]

/-- The text that lines make is empty only where there are none. -/
theorem joinLines_eq_empty_iff (lines : List String) : joinLines lines = "" ↔ lines = [] := by
  cases lines with
  | nil => exact iff_of_true rfl rfl
  | cons line lines =>
      refine iff_of_false ?_ (List.cons_ne_nil _ _)
      rw [joinLines_cons]
      simp

/-- How many brackets are open at the end of a text. -/
def openBrackets (text : String) : Int :=
  bracketDepth (tokenize text)

theorem openBrackets_empty : openBrackets "" = 0 := by
  rw [openBrackets, tokenize, String.toList_empty, tokensFrom_nil]
  rfl

/-- A bracket is open behind every line. -/
def StaysOpen (lines : List String) : Prop :=
  ∀ earlier later, lines = earlier ++ later → earlier ≠ [] → 0 < openBrackets (joinLines earlier)

/-- A bracket is open behind every line but the last, and none behind the last. -/
structure IsPiece (lines : List String) : Prop where
  ne_nil : lines ≠ []
  closed : openBrackets (joinLines lines) ≤ 0
  before : ∀ earlier later, lines = earlier ++ later → earlier ≠ [] → later ≠ [] →
    0 < openBrackets (joinLines earlier)

theorem StaysOpen.nil : StaysOpen [] := by
  intro earlier later h hne
  exact absurd (List.append_eq_nil_iff.mp h.symm).1 hne

theorem StaysOpen.depth_pos {lines : List String} (h : StaysOpen lines) (hne : lines ≠ []) :
    0 < openBrackets (joinLines lines) :=
  h lines [] (List.append_nil _).symm hne

theorem StaysOpen.depth_pos_iff {lines : List String} (h : StaysOpen lines) :
    0 < openBrackets (joinLines lines) ↔ joinLines lines ≠ "" := by
  rw [ne_eq, joinLines_eq_empty_iff]
  constructor
  · rintro hopen rfl
    exact absurd openBrackets_empty (Int.ne_of_gt hopen)
  · exact h.depth_pos

theorem StaysOpen.snoc {lines : List String} (h : StaysOpen lines) {line : String}
    (hopen : 0 < openBrackets (joinLines (lines ++ [line]))) : StaysOpen (lines ++ [line]) := by
  intro earlier later hsplit hne
  rcases List.eq_nil_or_concat later with rfl | ⟨init, last, rfl⟩
  · rw [List.append_nil] at hsplit
    exact hsplit ▸ hopen
  · rw [List.concat_eq_append, ← List.append_assoc] at hsplit
    exact h earlier init (List.append_inj_left' hsplit rfl) hne

theorem StaysOpen.isPiece {lines : List String} (h : StaysOpen lines) {line : String}
    (hclosed : openBrackets (joinLines (lines ++ [line])) ≤ 0) : IsPiece (lines ++ [line]) where
  ne_nil := List.append_ne_nil_of_right_ne_nil _ (List.cons_ne_nil _ _)
  closed := hclosed
  before earlier later hsplit hne hlater := by
    rcases List.eq_nil_or_concat later with rfl | ⟨init, last, rfl⟩
    · exact absurd rfl hlater
    · rw [List.concat_eq_append, ← List.append_assoc] at hsplit
      exact h earlier init (List.append_inj_left' hsplit rfl) hne

/-! ### Texts and their lines -/

/-- Where no line has a newline in it, what ends with a newline at the head of the text of some
lines is the text of the first of them. -/
theorem exists_of_joinLines_eq {lines : List String} (hlines : ∀ line ∈ lines, '\n' ∉ line.toList)
    {head rest : List Char} (h : (joinLines lines).toList = head ++ '\n' :: rest) :
    ∃ earlier later, lines = earlier ++ later ∧ (joinLines earlier).toList = head ++ ['\n'] ∧
      (joinLines later).toList = rest := by
  induction lines generalizing head with
  | nil => exact absurd h.symm (List.append_ne_nil_of_right_ne_nil _ (List.cons_ne_nil _ _))
  | cons line lines ih =>
      have hline : '\n' ∉ line.toList := hlines line List.mem_cons_self
      have hfirst : (joinLines [line]).toList = line.toList ++ ['\n'] := by
        rw [joinLines_singleton, String.toList_append]
        rfl
      rw [← List.singleton_append, joinLines_append, String.toList_append, hfirst,
        List.append_assoc] at h
      rcases List.append_eq_append_iff.mp h with ⟨more, hhead, hrest⟩ | ⟨more, hline', hrest⟩
      · cases more with
        | nil =>
            obtain ⟨-, rfl⟩ := List.cons.inj hrest
            refine ⟨[line], lines, rfl, ?_, rfl⟩
            rw [hfirst, hhead, List.append_nil]
        | cons c more =>
            obtain ⟨rfl, hmore⟩ := List.cons.inj hrest
            obtain ⟨earlier, later, rfl, hearlier, hlater⟩ :=
              ih (fun l hl => hlines l (List.mem_cons_of_mem _ hl)) hmore
            refine ⟨line :: earlier, later, rfl, ?_, hlater⟩
            rw [← List.singleton_append, joinLines_append, String.toList_append, hfirst, hearlier,
              hhead, List.append_assoc, List.append_assoc]
            rfl
      · cases more with
        | nil =>
            obtain ⟨-, rfl⟩ := List.cons.inj hrest
            refine ⟨[line], lines, rfl, ?_, rfl⟩
            rw [hfirst, hline', List.append_nil]
        | cons c more =>
            obtain ⟨rfl, -⟩ := List.cons.inj hrest
            refine absurd ?_ hline
            rw [hline']
            exact List.mem_append_right _ List.mem_cons_self

/-- A piece whose lines have no newline in them is open behind every newline in its text but the
last. -/
theorem IsPiece.depth_pos {lines : List String} (h : IsPiece lines)
    (hlines : ∀ line ∈ lines, '\n' ∉ line.toList) {head rest : List Char}
    (hsplit : (joinLines lines).toList = head ++ '\n' :: rest) (hrest : rest ≠ []) :
    0 < openBrackets (String.ofList (head ++ ['\n'])) := by
  obtain ⟨earlier, later, rfl, hearlier, hlater⟩ := exists_of_joinLines_eq hlines hsplit
  have hne : earlier ≠ [] := by
    rintro rfl
    exact absurd hearlier.symm (List.append_ne_nil_of_right_ne_nil _ (List.cons_ne_nil _ _))
  have hlater : later ≠ [] := by
    rintro rfl
    exact hrest hlater.symm
  rw [← hearlier, String.ofList_toList]
  exact h.before earlier later rfl hne hlater

/-! ### One line -/

/-- The shell behind a line. -/
def next (shell : Shell) (line : String) : Shell :=
  (shell.answer line).2

/-- The source text that a shell hands to its session to answer a line, if the line closes one. -/
def handed? (shell : Shell) (line : String) : Option String :=
  (LineCommand.ofLine line).source?.bind fun text =>
    if 0 < openBrackets (shell.pending ++ text ++ "\n") then none
    else some (shell.pending ++ text ++ "\n")

variable {shell : Shell} {line text source : String}

theorem answer_of_source? (h : (LineCommand.ofLine line).source? = some text) :
    shell.answer line = shell.feed text := by
  unfold answer
  cases hline : LineCommand.ofLine line with
  | source text' =>
      rw [hline] at h
      cases h
      rfl
  | _ =>
      rw [hline] at h
      cases h

/-- A line that asks for no evaluation leaves the shell as it is. -/
theorem next_of_no_source (h : (LineCommand.ofLine line).source? = none) :
    shell.next line = shell := by
  unfold next answer
  cases hline : LineCommand.ofLine line with
  | source text' =>
      rw [hline] at h
      cases h
  | _ => rfl

/-- A line of source text that leaves a bracket open is kept. -/
theorem answer_of_open (h : (LineCommand.ofLine line).source? = some text)
    (hopen : 0 < openBrackets (shell.pending ++ text ++ "\n")) :
    shell.answer line = (.ok ⟨"", false⟩,
      { shell with pending := shell.pending ++ text ++ "\n", prompt := furtherPrompt }) := by
  rw [answer_of_source? h]
  exact if_pos hopen

/-- A line of source text that closes the brackets makes the session run what is pending. Whatever
comes of that, nothing is pending behind it. -/
theorem answer_of_handed (h : shell.handed? line = some source) :
    shell.answer line =
      ((report (shell.session.run source).1).map fun shown =>
          ⟨(shell.session.run source).2.takeOutput.1 ++ shown, false⟩,
        ⟨(shell.session.run source).2.takeOutput.2, "", firstPrompt⟩) := by
  obtain ⟨text, htext, hsource⟩ := Option.bind_eq_some_iff.mp h
  rw [answer_of_source? htext]
  split at hsource
  · cases hsource
  · next hclosed =>
      cases hsource
      exact if_neg hclosed

/-- Only what is handed to the session changes it. -/
theorem session_next_of_none (h : shell.handed? line = none) :
    (shell.next line).session = shell.session := by
  cases htext : (LineCommand.ofLine line).source? with
  | none => rw [next_of_no_source htext]
  | some text =>
      rw [handed?, htext, Option.bind_some] at h
      split at h
      · next hopen => rw [next, answer_of_open htext hopen]
      · cases h

/-! ### Some lines -/

/-- The shell behind some lines. -/
def nextAll (shell : Shell) (lines : List String) : Shell :=
  lines.foldl next shell

/-- The source texts that a shell hands to its session on the way through some lines. -/
def handed (shell : Shell) : List String → List String
  | [] => []
  | line :: rest => (shell.handed? line).toList ++ (shell.next line).handed rest

/-- The source texts of the lines that ask for an evaluation. -/
def evaluated (lines : List String) : List String :=
  lines.filterMap fun line => (LineCommand.ofLine line).source?

/-- The evaluated lines fall into the pieces that are handed over and what is still open. -/
structure Assembled (opened : List String) (shell : Shell) (lines : List String)
    (pieces : List (List String)) (stillOpen : List String) : Prop where
  handed : shell.handed lines = pieces.map joinLines
  pending : (shell.nextAll lines).pending = joinLines stillOpen
  split : opened ++ evaluated lines = pieces.flatten ++ stillOpen
  pieces : ∀ piece ∈ pieces, IsPiece piece
  stillOpen : StaysOpen stillOpen

theorem exists_pieces {opened : List String} (hpending : shell.pending = joinLines opened)
    (hopened : StaysOpen opened) (lines : List String) :
    ∃ pieces stillOpen, Assembled opened shell lines pieces stillOpen := by
  induction lines generalizing shell opened with
  | nil =>
      exact ⟨[], opened, rfl, hpending, List.append_nil _, fun _ h => (nomatch h), hopened⟩
  | cons line lines ih =>
      cases htext : (LineCommand.ofLine line).source? with
      | none =>
          -- A command: the shell goes on as it was.
          have hnext : shell.next line = shell := next_of_no_source htext
          obtain ⟨pieces, stillOpen, h⟩ := ih (hnext.symm ▸ hpending) hopened
          refine ⟨pieces, stillOpen, ?_, h.pending, ?_, h.pieces, h.stillOpen⟩
          · rw [Shell.handed, h.handed, handed?, htext]
            rfl
          · rw [evaluated, List.filterMap_cons, htext]
            exact h.split
      | some text =>
          have hsource : shell.pending ++ text ++ "\n" = joinLines (opened ++ [text]) := by
            rw [joinLines_append, joinLines_singleton, hpending, String.append_assoc]
          have hevaluated : evaluated (line :: lines) = text :: evaluated lines := by
            rw [evaluated, List.filterMap_cons, htext]
            rfl
          by_cases hopen : 0 < openBrackets (shell.pending ++ text ++ "\n")
          · have hnext : (shell.next line).pending = joinLines (opened ++ [text]) := by
              rw [next, answer_of_open htext hopen, ← hsource]
            have hnone : shell.handed? line = none := by
              rw [handed?, htext, Option.bind_some, if_pos hopen]
            obtain ⟨pieces, stillOpen, h⟩ := ih hnext (hopened.snoc (hsource ▸ hopen))
            refine ⟨pieces, stillOpen, ?_, h.pending, ?_, h.pieces, h.stillOpen⟩
            · rw [Shell.handed, h.handed, hnone]
              rfl
            · rw [hevaluated, ← h.split, List.append_assoc, List.singleton_append]
          · have hhanded : shell.handed? line = some (joinLines (opened ++ [text])) := by
              rw [handed?, htext, Option.bind_some, if_neg hopen, hsource]
            have hnext : (shell.next line).pending = joinLines [] := by
              rw [next, answer_of_handed hhanded]
              rfl
            obtain ⟨pieces, stillOpen, h⟩ := ih hnext .nil
            refine ⟨(opened ++ [text]) :: pieces, stillOpen, ?_, h.pending, ?_, ?_, h.stillOpen⟩
            · rw [Shell.handed, h.handed, hhanded]
              rfl
            · rw [hevaluated, List.flatten_cons, List.append_assoc, ← h.split, List.append_assoc]
              rfl
            · exact List.forall_mem_cons.mpr
                ⟨hopened.isPiece (hsource ▸ Int.not_lt.mp hopen), h.pieces⟩

/-- The prompt tells whether anything is pending. -/
def PromptFits (shell : Shell) : Prop :=
  shell.prompt = if shell.pending = "" then firstPrompt else furtherPrompt

theorem promptFits_next (h : shell.PromptFits) (line : String) : (shell.next line).PromptFits := by
  cases htext : (LineCommand.ofLine line).source? with
  | none => rwa [next_of_no_source htext]
  | some text =>
      by_cases hopen : 0 < openBrackets (shell.pending ++ text ++ "\n")
      · rw [next, answer_of_open htext hopen]
        have hne : shell.pending ++ text ++ "\n" ≠ "" := by simp
        exact (if_neg hne).symm
      · have hhanded : shell.handed? line = some (shell.pending ++ text ++ "\n") := by
          rw [handed?, htext, Option.bind_some, if_neg hopen]
        rw [next, answer_of_handed hhanded]
        rfl

theorem promptFits_nextAll (h : shell.PromptFits) (lines : List String) :
    (shell.nextAll lines).PromptFits := by
  induction lines generalizing shell with
  | nil => exact h
  | cons line lines ih => exact ih (promptFits_next h line)

theorem prompt_eq_furtherPrompt_iff (h : shell.PromptFits) :
    shell.prompt = furtherPrompt ↔ shell.pending ≠ "" := by
  rw [h]
  split
  · next hempty => exact iff_of_false (by decide) (not_not_intro hempty)
  · next hne => exact iff_of_true rfl hne

theorem prompt_eq_firstPrompt_iff (h : shell.PromptFits) :
    shell.prompt = firstPrompt ↔ shell.pending = "" := by
  rw [h]
  split
  · next hempty => exact iff_of_true rfl hempty
  · next hne => exact iff_of_false (by decide) hne

/-- Whatever lines a shell has answered, the source texts that it handed to its session and what is
pending make up the evaluated lines, stripped and each ended by a newline. Each source text closes
the brackets with its last line and not before. The prompt asks for a further line exactly while
something is pending, and that is while a bracket is open. A line that asks for no evaluation
changes nothing, only a source text that is handed over changes the session, and whatever comes of
that, nothing is pending behind it. -/
theorem lines_are_assembled (options : Options) (lines : List String) :
    (String.join ((start options).handed lines) ++ ((start options).nextAll lines).pending =
        joinLines (evaluated lines) ∧
      ∀ line text, LineCommand.ofLine line = .source text → text = Text.strip line) ∧
    (∃ (pieces : List (List String)) (stillOpen : List String), (start options).handed lines = pieces.map joinLines ∧
      ((start options).nextAll lines).pending = joinLines stillOpen ∧
      evaluated lines = pieces.flatten ++ stillOpen ∧ ∀ piece ∈ pieces, IsPiece piece) ∧
    ((∀ text ∈ evaluated lines, '\n' ∉ text.toList) →
      ∀ source ∈ (start options).handed lines, openBrackets source ≤ 0 ∧
        ∀ head rest, source.toList = head ++ '\n' :: rest → rest ≠ [] →
          0 < openBrackets (String.ofList (head ++ ['\n']))) ∧
    (((start options).nextAll lines).prompt = ".. " ↔
      ((start options).nextAll lines).pending ≠ "") ∧
    (((start options).nextAll lines).prompt = ">> " ↔
      ((start options).nextAll lines).pending = "") ∧
    (((start options).nextAll lines).prompt = ".. " ↔
      0 < openBrackets ((start options).nextAll lines).pending) ∧
    ∀ (shell : Shell) (line : String),
      ((∀ text, LineCommand.ofLine line ≠ .source text) → shell.next line = shell) ∧
      (shell.handed? line = none → (shell.next line).session = shell.session) ∧
      ∀ source, shell.handed? line = some source →
        (shell.next line).session = (shell.session.run source).2.takeOutput.2 ∧
          (shell.next line).pending = "" ∧ (shell.next line).prompt = ">> " := by
  have hempty : (start options).pending = joinLines [] := rfl
  obtain ⟨pieces, stillOpen, h⟩ := exists_pieces hempty .nil lines
  have hstart : (start options).PromptFits := rfl
  have hprompt : ((start options).nextAll lines).PromptFits := promptFits_nextAll hstart lines
  have hsplit : evaluated lines = pieces.flatten ++ stillOpen := h.split
  refine ⟨⟨?_, fun line text hline => LineCommand.eq_strip_of_source? (by rw [hline]; rfl)⟩,
    ⟨pieces, stillOpen, h.handed, h.pending, hsplit, h.pieces⟩, ?_,
    prompt_eq_furtherPrompt_iff hprompt, prompt_eq_firstPrompt_iff hprompt, ?_, ?_⟩
  · rw [h.handed, h.pending, hsplit, joinLines_append, join_map_joinLines]
  · intro hlines source hsource
    rw [h.handed] at hsource
    obtain ⟨piece, hpiece, rfl⟩ := List.mem_map.mp hsource
    refine ⟨(h.pieces piece hpiece).closed, fun head rest htext hrest => ?_⟩
    refine (h.pieces piece hpiece).depth_pos (fun line hline => hlines line ?_) htext hrest
    rw [hsplit]
    exact List.mem_append_left _ (List.mem_flatten_of_mem hpiece hline)
  · rw [h.pending, h.stillOpen.depth_pos_iff, ← h.pending]
    exact prompt_eq_furtherPrompt_iff hprompt
  · intro shell line
    refine ⟨fun hline => next_of_no_source ?_, session_next_of_none, fun source hsource => ?_⟩
    · cases hcommand : LineCommand.ofLine line with
      | source text => exact absurd hcommand (hline text)
      | _ => rfl
    · rw [next, answer_of_handed hsource]
      exact ⟨rfl, rfl, rfl⟩

/-- Lines with a command in the middle of a block, and another block that stays open. -/
def blockLines : List String :=
  ["let f = func() \x7b", " ast 1 + 2", "return 1 \x7d  ", "f("]

theorem lines_are_assembled_of_blockLines :
    (start {}).handed blockLines = ["let f = func() \x7b\nreturn 1 \x7d\n"] ∧
      ((start {}).nextAll blockLines).pending = "f(\n" ∧
      ((start {}).nextAll blockLines).prompt = ".. " ∧
      0 < openBrackets "let f = func() \x7b\n" := by
  have hhanded : (start {}).handed blockLines = ["let f = func() \x7b\nreturn 1 \x7d\n"] := by cbv
  have hpending : ((start {}).nextAll blockLines).pending = "f(\n" := by cbv
  have hevaluated : ∀ text ∈ evaluated blockLines, '\n' ∉ text.toList := by decide
  obtain ⟨-, -, htexts, hprompt, -⟩ := lines_are_assembled {} blockLines
  refine ⟨hhanded, hpending, hprompt.mpr ?_, ?_⟩
  · rw [hpending]
    decide
  · have hsource := htexts hevaluated _ (hhanded ▸ List.mem_singleton_self _)
    exact hsource.2 "let f = func() \x7b".toList "return 1 \x7d\n".toList (by decide) (by decide)

end Shell

end Scripting
