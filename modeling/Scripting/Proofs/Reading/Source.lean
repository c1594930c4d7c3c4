import Scripting.Proofs.Reading.Join
import Scripting.Proofs.Token.Source

/-!
# Reading from a source

Tokens can be read while they are pulled from a text, or from a list that is replayed with or
without its end token. A reading of a source is the one that all of its beginnings have which are
long enough, and it is the same for all these sources: behind the tokens of a text they hand out
end tokens, which show nothing new. A reading without a fault ends in front of the first end token,
so for it nothing that stands behind that token matters.
-/

namespace Scripting

/-- End tokens behind a token list show nothing that the list does not. -/
theorem Alike.append_replicate {e : Token} (hkind : e.kind = .eof) (hliteral : e.literal = "")
    (ts : List Token) (n : Nat) : Alike (ts ++ List.replicate n e) ts := by
  intro i
  rcases Nat.lt_or_ge i ts.length with hlt | hle
  · rw [shown, shown, List.getElem?_append_left hlt]
  · rw [shown, shown_of_length_le hle, List.getElem?_append_right hle, List.getElem?_replicate]
    split
    · change Token.mk e.kind e.literal 0 = _
      rw [hkind, hliteral]
      rfl
    · rfl

namespace Reading

/-- All beginnings of what a source hands out that are long enough have this reading. -/
def Settles {σ : Type} (next : σ → Token × σ) (s : σ) (reading : Reading) : Prop :=
  ∃ n, ∀ m, n ≤ m → ofTokens (handOut next m s) = reading

theorem settles_of_streams {σ : Type} {next : σ → Token × σ} {s : σ} {ts : List Token} {e : Token}
    (h : Streams next s ts e) (hkind : e.kind = .eof) (hliteral : e.literal = "") :
    Settles next s (ofTokens ts) := by
  refine ⟨ts.length, fun m hm => ?_⟩
  obtain ⟨n, rfl⟩ := Nat.exists_eq_add_of_le hm
  rw [h.handOut_eq]
  exact ofTokens_of_alike (.append_replicate hkind hliteral ts n)

/-- A replay puts an end token behind tokens that have none. -/
theorem settles_replay {ts : List Token} (hts : ∀ t ∈ ts, t.kind ≠ .eof) :
    Settles Replay.next (Replay.ofTokens ts) (ofTokens ts) :=
  settles_of_streams (Replay.streams_ofTokens (Replay.ended_of_no_eof hts))
    (Replay.kind_endBehind _) (Replay.literal_endBehind _)

/-- A reading without a fault ends in front of the first end token. -/
theorem ofTokens_append_eof {ts : List Token} (hts : ∀ t ∈ ts, t.kind ≠ .eof)
    (hread : (ofTokens ts).errors = []) {e : Token} (he : e.kind = .eof) (more : List Token) :
    ofTokens (ts ++ e :: more) = ofTokens ts := by
  obtain ⟨rest, hspelled⟩ := program_spelled hread
  obtain rfl := hspelled.rest_eq_nil hts
  obtain ⟨us, hregrown, hus⟩ := hspelled.regrow (e :: more) he
  rw [← hregrown.of_nil, ofTokens_of_spelled hus, ← hread]

end Reading

/-- The reading of a text is the same from all sources of its tokens: pulled from the text, and
replayed from the list of its tokens, be its end token left out or not. Where tokens without an
end token among them are read without a fault, they are read like that in front of an end token
too, whatever stands behind it. -/
theorem readings_agree_on_sources :
    (∀ text, Reading.Settles Lexer.next (Lexer.ofText text) (Reading.ofText text) ∧
      Reading.Settles Replay.next (Replay.ofTokens (tokenize text)) (Reading.ofText text) ∧
      Reading.Settles Replay.next (Replay.ofTokens (tokenize text).dropLast)
        (Reading.ofText text) ∧
      Reading.ofTokens (tokenize text).dropLast = Reading.ofText text) ∧
    ∀ (ts : List Token) (e : Token) (more : List Token), (∀ t ∈ ts, t.kind ≠ .eof) →
      (Reading.ofTokens ts).errors = [] → e.kind = .eof →
        Reading.ofTokens (ts ++ e :: more) = ⟨(Reading.ofTokens ts).program, []⟩ ∧
          Reading.Settles Replay.next (Replay.ofTokens ts) ⟨(Reading.ofTokens ts).program, []⟩ ∧
          Reading.Settles Replay.next (Replay.ofTokens (ts ++ e :: more))
            ⟨(Reading.ofTokens ts).program, []⟩ := by
  refine ⟨fun text => ?_, fun ts e more hts hread he => ?_⟩
  · obtain ⟨ts, e, hts, hend, hkind, hliteral⟩ : ∃ ts e, (∀ t ∈ ts, t.kind ≠ .eof) ∧
        tokensFrom 0 text.toList = ts ++ [e] ∧ e.kind = .eof ∧ e.literal = "" := by
      obtain ⟨ts, hts, hend, -⟩ := exists_tokensFrom_append 0 text.toList
      exact ⟨ts, _, hts, hend, rfl, rfl⟩
    have htext : tokenize text = ts ++ [e] := hend
    have hwithout : Reading.ofText text = Reading.ofTokens ts := by
      rw [Reading.ofText, htext]
      exact Reading.ofTokens_of_alike (.append_replicate hkind hliteral ts 1)
    rw [hwithout, htext, List.dropLast_concat]
    refine ⟨?_, ?_, ?_, rfl⟩
    · exact Reading.settles_of_streams (streams_lexer hend) hkind hliteral
    · have hstreams := Replay.streams_ofTokens (Replay.ended_concat hkind ts)
      exact Reading.settles_of_streams hstreams hkind hliteral
    · exact Reading.settles_replay hts
  · have hreading : Reading.mk (Reading.ofTokens ts).program [] = Reading.ofTokens ts := by
      rw [← hread]
    rw [hreading]
    refine ⟨Reading.ofTokens_append_eof hts hread he more, Reading.settles_replay hts,
      (ts ++ e :: more).length + 1, fun m hm => ?_⟩
    obtain ⟨behind, hhanded⟩ := Replay.exists_handOut_eq_append hm
    rw [hhanded, List.append_assoc, List.cons_append]
    exact Reading.ofTokens_append_eof hts hread he _

theorem readings_agree_on_sources_of_strayElse :
    (∀ t ∈ plainConditional, t.kind ≠ .eof) ∧ (Reading.ofTokens plainConditional).errors = [] ∧
      Reading.ofTokens (plainConditional ++ ⟨.eof, "", 17⟩ :: strayElse) =
        ⟨[.expr (.cond (.ident "a") [.ret .missing] none)], []⟩ := by
  have hend : ∀ t ∈ plainConditional, t.kind ≠ .eof := by decide
  have hread : (Reading.ofTokens plainConditional).errors = [] := by decide
  exact ⟨hend, hread,
    (readings_agree_on_sources.2 plainConditional ⟨.eof, "", 17⟩ strayElse hend hread rfl).1⟩

end Scripting
