import Scripting.Proofs.Shell.Assembly
import Scripting.Proofs.Token.Lines

/-!
# The depth of some lines

How deep a shell is in brackets is a matter of its lines one by one: a line break that stands
neither in a string nor in a block comment splits the tokens of what is collected, so as many
brackets are open as its lines open together. The last line may end as it likes.
-/

namespace Scripting

namespace Shell

theorem openBrackets_append_newline {a : String} (h : endsOpen a.toList = false) (b : String) :
    openBrackets (a ++ "\n" ++ b) = openBrackets a + openBrackets b := by
  have hend : openBrackets a = bracketDepth (tokenize a).dropLast := by
    rw [openBrackets, (tokenize_eq_dropLast_append a).1, List.dropLast_concat, bracketDepth_append]
    exact Int.add_zero _
  rw [hend, openBrackets, tokenize_append_newline h, bracketDepth_append, bracketDepth_map_shift,
    openBrackets]

/-- A line break at the end opens and closes nothing, in whatever it stands. -/
theorem openBrackets_newline (a : String) : openBrackets (a ++ "\n") = openBrackets a := by
  cases h : endsOpen a.toList with
  | false =>
      have hsplit := openBrackets_append_newline h ""
      rwa [String.append_empty, openBrackets_empty, Int.add_zero] at hsplit
  | true =>
      have hkinds := kinds_append_of_endsOpen h (List.not_mem_nil (a := '"')) rfl 0
      have hline : (a ++ "\n").toList = a.toList ++ ['\n'] := by
        rw [String.toList_append]
        rfl
      rw [← hline] at hkinds
      exact bracketDepth_eq_of_kinds hkinds

/-- Lines open together what each of them opens, if none but the last ends inside a string or a
block comment. -/
theorem openBrackets_joinLines_concat {lines : List String}
    (h : ∀ line ∈ lines, endsOpen line.toList = false) (last : String) :
    openBrackets (joinLines (lines ++ [last])) =
      (lines.map openBrackets).sum + openBrackets last := by
  induction lines with
  | nil => rw [List.nil_append, joinLines_singleton, openBrackets_newline, List.map_nil,
      List.sum_nil, Int.zero_add]
  | cons line lines ih =>
      obtain ⟨hline, hlines⟩ := List.forall_mem_cons.mp h
      rw [List.cons_append, joinLines_cons, openBrackets_append_newline hline, ih hlines,
        List.map_cons, List.sum_cons, Int.add_assoc]

theorem openBrackets_joinLines {lines : List String}
    (h : ∀ line ∈ lines.dropLast, endsOpen line.toList = false) :
    openBrackets (joinLines lines) = (lines.map openBrackets).sum := by
  rcases List.eq_nil_or_concat lines with rfl | ⟨init, last, rfl⟩
  · exact openBrackets_empty
  · rw [List.concat_eq_append, List.dropLast_concat] at h
    rw [List.concat_eq_append, openBrackets_joinLines_concat h, List.map_append, List.sum_append,
      List.map_singleton, List.sum_singleton]

theorem handed?_eq_none_iff {shell : Shell} {line text : String}
    (h : LineCommand.ofLine line = .source text) :
    shell.handed? line = none ↔ 0 < openBrackets (shell.pending ++ text ++ "\n") := by
  have hsource : (LineCommand.ofLine line).source? = some text := by
    rw [h]
    rfl
  rw [handed?, hsource, Option.bind_some]
  split
  · next hopen => exact iff_of_true rfl hopen
  · next hclosed => exact iff_of_false (Option.some_ne_none _) hclosed

/-- A line break splits the tokens of a text, whatever is behind it, exactly if the text in front of
it does not end inside a string or a block comment: the tokens are those in front without the end
token, and those behind, moved by what is in front of them. So brackets add up over such a line
break, and over all the lines of a text of which none but the last ends inside a string or a block
comment. And so does a shell find the depth of what it has collected, with the next line of source
text: it goes on collecting while its lines together open more brackets than they close. -/
theorem tokens_split_at_line_breaks :
    (∀ a : String, endsOpen a.toList = false ↔ ∀ b, tokenize (a ++ "\n" ++ b) =
      (tokenize a).dropLast ++ (tokenize b).map (Token.shift (a.length + 1))) ∧
    (∀ a : String, tokenize a = (tokenize a).dropLast ++ [⟨.eof, "", a.length⟩] ∧
      ∀ t ∈ (tokenize a).dropLast, t.kind ≠ .eof) ∧
    (∀ a : String, endsOpen a.toList = false →
      ∀ b, openBrackets (a ++ "\n" ++ b) = openBrackets a + openBrackets b) ∧
    (∀ lines : List String, (∀ line ∈ lines.dropLast, endsOpen line.toList = false) →
      openBrackets (joinLines lines) = (lines.map openBrackets).sum) ∧
    ∀ (options : Options) (lines : List String), ∃ collected,
      ((start options).nextAll lines).pending = joinLines collected ∧
      collected <:+ evaluated lines ∧
      ∀ line text, LineCommand.ofLine line = .source text →
        (∀ earlier ∈ collected, endsOpen earlier.toList = false) →
          openBrackets (((start options).nextAll lines).pending ++ text ++ "\n") =
            (collected.map openBrackets).sum + openBrackets text ∧
          (((start options).nextAll lines).handed? line = none ↔
            0 < (collected.map openBrackets).sum + openBrackets text) := by
  refine ⟨endsOpen_eq_false_iff, tokenize_eq_dropLast_append,
    fun a h => openBrackets_append_newline h, fun lines h => openBrackets_joinLines h,
    fun options lines => ?_⟩
  have hempty : (start options).pending = joinLines [] := rfl
  obtain ⟨pieces, collected, h⟩ := exists_pieces hempty .nil lines
  refine ⟨collected, h.pending, ⟨pieces.flatten, h.split.symm⟩, fun line text hline hclosed => ?_⟩
  have hsource : ((start options).nextAll lines).pending ++ text ++ "\n" =
      joinLines (collected ++ [text]) := by
    rw [joinLines_append, joinLines_singleton, h.pending, String.append_assoc]
  have hdepth := openBrackets_joinLines_concat hclosed text
  rw [← hsource] at hdepth
  exact ⟨hdepth, hdepth ▸ handed?_eq_none_iff hline⟩

/-- Lines that open two brackets, with a quote in a comment and a bracket in a string. -/
def callLines : List String :=
  ["f( // \"", "g[\")\""]

theorem tokens_split_at_line_breaks_of_callLines :
    (∀ line ∈ callLines, endsOpen line.toList = false) ∧
      tokenize ("f( // \"" ++ "\n" ++ "] /*") =
        (tokenize "f( // \"").dropLast ++ [⟨.rbracket, "]", 8⟩, ⟨.eof, "", 12⟩] ∧
      openBrackets (joinLines callLines) = 2 ∧
      ((start {}).nextAll callLines).handed? "] /*" = none := by
  have hclosed : ∀ line ∈ callLines, endsOpen line.toList = false := by
    intro line hline
    rcases List.mem_pair.mp hline with rfl | rfl <;> cbv
  have hpending : ((start {}).nextAll callLines).pending = "f( // \"\ng[\")\"\n" := by cbv
  have hevaluated : evaluated callLines = callLines := by decide
  obtain ⟨hsplit, -, -, hsum, hshell⟩ := tokens_split_at_line_breaks
  obtain ⟨collected, hcollected, hsuffix, hnext⟩ := hshell {} callLines
  have hline : LineCommand.ofLine "] /*" = .source "] /*" := by cbv
  obtain ⟨hdepth, hnone⟩ := hnext _ _ hline fun earlier hmem =>
    hclosed earlier (hevaluated ▸ hsuffix.subset hmem)
  refine ⟨hclosed, ?_, ?_, hnone.mpr ?_⟩
  · have hfirst := hclosed "f( // \"" List.mem_cons_self
    rw [(hsplit _).mp hfirst]
    cbv
  · rw [hsum callLines fun line hmem => hclosed line (List.dropLast_subset _ hmem)]
    cbv
  · rw [← hdepth, hpending]
    cbv

end Shell

end Scripting
