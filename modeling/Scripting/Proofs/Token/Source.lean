import Scripting.Proofs.Token.Join

/-!
# Where tokens are pulled from

Tokens are pulled one at a time, from a text or from a token list. A source hands out its tokens one
after another and then one end token without end: `Streams` follows it from call to call. A lexer
hands out the tokens of its text, and a replay those of its list, with an end token behind them if
the list has none.
-/

namespace Scripting

/-- The first tokens that are pulled from a source. -/
def handOut {σ : Type} (next : σ → Token × σ) : Nat → σ → List Token
  | 0, _ => []
  | n + 1, s => (next s).1 :: handOut next n (next s).2

/-- From a place on, a source hands out the tokens of a list and after them one token for ever. -/
inductive Streams {σ : Type} (next : σ → Token × σ) : σ → List Token → Token → Prop where
  | stays {s behind : σ} {e : Token} (h : next s = (e, behind))
      (hstays : next behind = (e, behind)) : Streams next s [] e
  | hands {s behind : σ} {t e : Token} {ts : List Token} (h : next s = (t, behind))
      (hbehind : Streams next behind ts e) : Streams next s (t :: ts) e

namespace Streams

variable {σ : Type} {next : σ → Token × σ} {s other : σ} {ts : List Token} {e : Token}

theorem of_next_eq (h : next s = next other) (hother : Streams next other ts e) :
    Streams next s ts e := by
  cases hother with
  | stays h' hstays => exact .stays (h.trans h') hstays
  | hands h' hbehind => exact .hands (h.trans h') hbehind

theorem handOut_of_stays (h : next s = (e, s)) (n : Nat) :
    handOut next n s = List.replicate n e := by
  induction n with
  | zero => rfl
  | succ n ih => rw [handOut, h, ih, List.replicate_succ]

theorem handOut_eq (h : Streams next s ts e) (n : Nat) :
    handOut next (ts.length + n) s = ts ++ List.replicate n e := by
  induction h with
  | stays h hstays =>
      cases n with
      | zero => rfl
      | succ n =>
          rw [List.length_nil, Nat.zero_add, handOut, h, handOut_of_stays hstays,
            List.replicate_succ]
          rfl
  | hands h _ ih =>
      rw [List.length_cons, Nat.succ_add, handOut, h, ih, List.cons_append]

end Streams

/-- A lexer hands out the tokens of the text in front of it. -/
theorem streams_lexer {position : Nat} {cs : List Char} {ts : List Token} {e : Token}
    (h : tokensFrom position cs = ts ++ [e]) : Streams Lexer.next ⟨cs, position⟩ ts e := by
  induction hn : cs.length using Nat.strongRecOn generalizing position cs ts with
  | ind n ih =>
      subst hn
      cases cs with
      | nil =>
          rw [tokensFrom_nil, ← List.nil_append [_]] at h
          obtain ⟨rfl, he⟩ := List.append_inj' h rfl
          obtain rfl := List.head_eq_of_cons_eq he
          exact .stays (Lexer.next_nil position) (Lexer.next_nil position)
      | cons c cs =>
          have hlt : (cs.drop (lexeme c cs).extra).length < (c :: cs).length := by
            rw [List.length_drop, List.length_cons]
            omega
          have hnext := Lexer.next_cons c cs position
          rw [tokensFrom_cons] at h
          cases htoken : (lexeme c cs).token? with
          | none =>
              rw [htoken] at h hnext
              exact .of_next_eq hnext (ih _ hlt h rfl)
          | some token =>
              rw [htoken] at h hnext
              cases ts with
              | nil =>
                  -- Behind the token at the head there is still an end token.
                  obtain ⟨us, -, hend, -⟩ := exists_tokensFrom_append
                    (position + 1 + (lexeme c cs).extra) (cs.drop (lexeme c cs).extra)
                  obtain ⟨-, hrest⟩ := List.cons.inj h
                  rw [hend] at hrest
                  exact absurd hrest (by simp)
              | cons t ts =>
                  obtain ⟨rfl, hrest⟩ := List.cons.inj h
                  exact .hands hnext (ih _ hlt hrest rfl)

/-- A token list that is handed out token by token. -/
structure Replay where
  tokens : List Token
  ne_nil : tokens ≠ []
  index : Nat

namespace Replay

/-- The end token that is put behind tokens that have none. -/
def endBehind : Option Token → Token
  | some t => ⟨.eof, "", t.position + t.literal.length⟩
  | none => ⟨.eof, "", 0⟩

/-- The tokens with an end token behind them, unless they end with one. -/
def ended (ts : List Token) : List Token :=
  if ts.getLast?.any (·.kind = .eof) then ts else ts ++ [endBehind ts.getLast?]

theorem ended_ne_nil (ts : List Token) : ended ts ≠ [] := by
  unfold ended
  split
  · rintro rfl
    contradiction
  · exact List.append_ne_nil_of_right_ne_nil _ (List.cons_ne_nil _ _)

/-- A replay of a token list from its start. -/
def ofTokens (ts : List Token) : Replay :=
  ⟨ended ts, ended_ne_nil ts, 0⟩

/-- The next token and the replay behind it. Behind the last token it stays where it is and gives
that token again. -/
def next (replay : Replay) : Token × Replay :=
  match replay.tokens[replay.index]? with
  | some t => (t, { replay with index := replay.index + 1 })
  | none => (replay.tokens.getLast replay.ne_nil, replay)

theorem ended_concat {e : Token} (he : e.kind = .eof) (ts : List Token) :
    ended (ts ++ [e]) = ts ++ [e] := by
  have hlast : (ts ++ [e]).getLast?.any (·.kind = .eof) = true := by
    rw [List.getLast?_concat]
    exact decide_eq_true he
  exact if_pos hlast

theorem ended_of_no_eof {ts : List Token} (h : ∀ t ∈ ts, t.kind ≠ .eof) :
    ended ts = ts ++ [endBehind ts.getLast?] := by
  have hlast : ¬ts.getLast?.any (·.kind = .eof) = true := by
    cases hts : ts.getLast? with
    | none => exact Bool.false_ne_true
    | some t => exact fun hend => h t (List.mem_of_getLast? hts) (of_decide_eq_true hend)
  exact if_neg hlast

theorem kind_endBehind (last : Option Token) : (endBehind last).kind = .eof := by
  cases last <;> rfl

theorem literal_endBehind (last : Option Token) : (endBehind last).literal = "" := by
  cases last <;> rfl

variable {replay : Replay} {front behind : List Token} {t e : Token}

theorem next_of_append (h : replay.tokens = front ++ t :: behind)
    (hindex : replay.index = front.length) :
    replay.next = (t, { replay with index := replay.index + 1 }) := by
  have hget : replay.tokens[replay.index]? = some t := by
    rw [h, hindex, List.getElem?_append_right (Nat.le_refl _), Nat.sub_self]
    rfl
  rw [next, hget]

theorem next_of_length_le (h : replay.tokens.length ≤ replay.index) :
    replay.next = (replay.tokens.getLast replay.ne_nil, replay) := by
  rw [next, List.getElem?_eq_none h]

/-- A replay hands out the tokens that it has not handed out yet, and its last token for ever. -/
theorem streams (h : replay.tokens = front ++ (behind ++ [e]))
    (hindex : replay.index = front.length) : Streams next replay behind e := by
  induction behind generalizing replay front with
  | nil =>
      have hlast : replay.tokens.getLast replay.ne_nil = e := by
        simp only [h, List.nil_append, List.getLast_concat]
      have hlength : replay.tokens.length = replay.index + 1 := by
        rw [h, hindex, List.length_append]
        rfl
      refine .stays (next_of_append h hindex) ?_
      rw [next_of_length_le (Nat.le_of_eq hlength)]
      exact congrArg (·, _) hlast
  | cons t behind ih =>
      have htokens : replay.tokens = front ++ [t] ++ (behind ++ [e]) := by
        rw [List.append_assoc]
        exact h
      have hlength : replay.index + 1 = (front ++ [t]).length := by
        rw [List.length_append, ← hindex]
        rfl
      exact .hands (next_of_append h hindex) (ih htokens hlength)

theorem streams_ofTokens {ts us : List Token} (h : ended ts = us ++ [e]) :
    Streams next (ofTokens ts) us e := by
  have htokens : (ofTokens ts).tokens = [] ++ (us ++ [e]) := h
  exact streams htokens rfl

/-- Whatever a token list ends with, its replay hands out the list first. -/
theorem exists_handOut_eq_append {ts : List Token} {n : Nat} (h : ts.length < n) :
    ∃ more, handOut next n (ofTokens ts) = ts ++ more := by
  have hsplit := List.dropLast_concat_getLast (ended_ne_nil ts)
  obtain ⟨extra, hextra, hlength⟩ : ∃ extra, ended ts = ts ++ extra ∧ extra.length ≤ 1 := by
    unfold ended
    split
    · exact ⟨[], (List.append_nil ts).symm, Nat.zero_le 1⟩
    · exact ⟨_, rfl, Nat.le_refl 1⟩
  obtain ⟨k, rfl⟩ : ∃ k, n = (ended ts).dropLast.length + (k + 1) := by
    have hle : (ended ts).length ≤ ts.length + 1 := by
      rw [hextra, List.length_append]
      omega
    have hpos := List.length_pos_iff.mpr (ended_ne_nil ts)
    rw [List.length_dropLast]
    exact ⟨n - (ended ts).length, by omega⟩
  refine ⟨extra ++ List.replicate k ((ended ts).getLast (ended_ne_nil ts)), ?_⟩
  rw [(streams_ofTokens hsplit.symm).handOut_eq, List.replicate_succ, List.append_cons, hsplit,
    ← List.append_assoc, ← hextra]

end Replay

end Scripting
