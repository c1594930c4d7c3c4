import Scripting.Proofs.Reading.Nested
import Scripting.Proofs.Shell.Assembly

/-!
# When source text is complete

A shell counts brackets to tell whether source text goes on in the next line, and the grammar reads
the text. The two agree on texts without a fault: their brackets are nested, so none is open at the
end, and the shell runs such a text with the line that completes it.
-/

namespace Scripting

namespace Shell

variable {shell : Shell} {line text : String}

/-- A line that closes the brackets of what is pending is handed over with it. -/
theorem handed?_of_closed {source : String} (h : LineCommand.ofLine line = .source source)
    (hclosed : openBrackets (shell.pending ++ source ++ "\n") = 0) :
    shell.handed? line = some (shell.pending ++ source ++ "\n") := by
  have hopen : ¬0 < openBrackets (shell.pending ++ source ++ "\n") := by
    rw [hclosed]
    exact Int.lt_irrefl 0
  have hsource : (LineCommand.ofLine line).source? = some source := by
    rw [h]
    rfl
  rw [handed?, hsource, Option.bind_some, if_neg hopen]

/-- The brackets of a text that is read without a fault are nested, each closed by its own kind, so
that as many are closed as are opened, and at no token more. Hence a shell runs such a text at once
with the line that completes it, whatever stood in the lines before. -/
theorem faultless_texts_are_nested (text : String) (h : (Reading.ofText text).errors = []) :
    Nested (tokenize text) ∧ openBrackets text = 0 ∧
      (∀ earlier later, tokenize text = earlier ++ later → 0 ≤ bracketDepth earlier) ∧
      ∀ (shell : Shell) (line source : String), LineCommand.ofLine line = .source source →
        shell.pending ++ source ++ "\n" = text →
          shell.handed? line = some text ∧
            (shell.next line).session = (shell.session.run text).2.takeOutput.2 ∧
            (shell.next line).pending = "" := by
  have hnested : Nested (tokenize text) := Reading.nested_tokenize h
  have hclosed : openBrackets text = 0 := hnested.depth_eq_zero
  refine ⟨hnested, hclosed, fun earlier later hsplit => ?_, ?_⟩
  · exact Nested.depth_nonneg (hsplit ▸ hnested)
  · rintro shell line source hline rfl
    have hhanded := handed?_of_closed hline hclosed
    rw [next, answer_of_handed hhanded]
    exact ⟨hhanded, rfl, rfl⟩

/-- A function over two lines. -/
def twoLines : String :=
  "let f = func(x) \x7b\nif (x[0]) \x7b \"(\" \x7d \x7d\n"

theorem faultless_texts_are_nested_of_twoLines :
    (Reading.ofText twoLines).errors = [] ∧ Nested (tokenize twoLines) ∧
      ((start {}).next "let f = func(x) \x7b").pending = "let f = func(x) \x7b\n" ∧
      ((start {}).next "let f = func(x) \x7b").handed? "if (x[0]) \x7b \"(\" \x7d \x7d" =
        some twoLines := by
  have hread : (Reading.ofText twoLines).errors = [] := by cbv
  have hpending : ((start {}).next "let f = func(x) \x7b").pending = "let f = func(x) \x7b\n" := by
    cbv
  have hline : LineCommand.ofLine "if (x[0]) \x7b \"(\" \x7d \x7d" =
      .source "if (x[0]) \x7b \"(\" \x7d \x7d" := by
    cbv
  obtain ⟨hnested, -, -, hruns⟩ := faultless_texts_are_nested twoLines hread
  obtain ⟨hhanded, -⟩ := hruns ((start {}).next "let f = func(x) \x7b") _ _ hline
    (by rw [hpending]; rfl)
  exact ⟨hread, hnested, hpending, hhanded⟩

end Shell

end Scripting
