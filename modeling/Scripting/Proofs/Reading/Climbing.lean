import Scripting.Proofs.Reading.Chain
import Scripting.Proofs.Reading.Join

/-!
# Precedence climbing

Operands are read with their prefixes and suffixes, and a chain of them is read as what it means:
the reader takes one operator after another and asks each time how tightly the next one binds, and
comes to the tree that the operator that binds least in the whole chain splits.

`IsOperand` and `IsLinks` say which tokens make an operand and which make the links of a chain. What
stands between brackets in them is any expression that can be read by itself.
-/

namespace Scripting

open Step Precedence

/-! ### Operands -/

/-- Tokens that are read as an expression by themselves, all of them and without a fault. -/
def IsExpression (ts : List Token) (e : Expr) : Prop :=
  (Grammar.expression (Grammar.fuelFor ts) lowest).Yields ts e []

/-- Whether an expression ends with a bracket of its own: an array, a map, a function or a new
object. -/
def Expr.isBracketed : Expr → Bool
  | .array _ | .map _ | .function _ | .new _ _ => true
  | _ => false

/-- Expressions behind commas. -/
inductive IsMoreArguments : List Token → List Expr → Prop where
  | none : IsMoreArguments [] []
  | more (ht : t.kind = .comma) (h : IsExpression ts e) (hes : IsMoreArguments us es) :
      IsMoreArguments (t :: (ts ++ us)) (e :: es)

/-- Expressions with commas between them. -/
inductive IsArguments : List Token → List Expr → Prop where
  | none : IsArguments [] []
  | some (h : IsExpression ts e) (hes : IsMoreArguments us es) : IsArguments (ts ++ us) (e :: es)

/-- A name, a literal that can be read, or an expression in parentheses. The word `print` is no name,
and comes with its arguments. -/
inductive IsPrimary : List Token → Expr → Prop where
  | leaf (h : t.leaf? = some e) : IsPrimary [t] e
  | bracketed (h : IsExpression ts e) (he : e.isBracketed = true) : IsPrimary ts e
  | grouped (ht : t.kind = .lparen) (h : IsExpression ts e) (hu : u.kind = .rparen) :
      IsPrimary (t :: (ts ++ [u])) e
  | print (ht : t.kind = .printWord) (hu : u.kind = .lparen) (h : IsArguments ts es)
      (hv : v.kind = .rparen) : IsPrimary (t :: u :: (ts ++ [v])) (.call (.ident t.literal) es)

/-- What calls an expression, indexes it or asks it for a property, and what comes of it. -/
inductive IsSuffix : List Token → Expr → Expr → Prop where
  | call (ht : t.kind = .lparen) (h : IsArguments ts es) (hu : u.kind = .rparen) :
      IsSuffix (t :: (ts ++ [u])) left (.call left es)
  | index (ht : t.kind = .lbracket) (h : IsExpression ts e) (hu : u.kind = .rbracket) :
      IsSuffix (t :: (ts ++ [u])) left (.index left e)
  | property (ht : t.kind = .dot) (hu : u.kind = .ident) :
      IsSuffix [t, u] left (.property left u.literal)

/-- A primary with any number of suffixes. -/
inductive IsSuffixed : List Token → Expr → Prop where
  | primary (h : IsPrimary ts e) : IsSuffixed ts e
  | suffix (h : IsSuffixed ts left) (hs : IsSuffix us left whole) : IsSuffixed (ts ++ us) whole

/-- Any number of prefixes in front of a primary with its suffixes. -/
inductive IsOperand : List Token → Expr → Prop where
  | suffixed (h : IsSuffixed ts e) : IsOperand ts e
  | prefixed (ht : t.kind.isUnary = true) (h : IsOperand ts e) :
      IsOperand (t :: ts) (.unary t.literal e)

/-- Operators, each with the operand behind it. -/
inductive IsLinks : List Token → List Link → Prop where
  | nil : IsLinks [] []
  | cons (ht : t.kind.joins = true) (h : IsOperand ts e) (hlinks : IsLinks us links) :
      IsLinks (t :: (ts ++ us)) (⟨t, e⟩ :: links)

/-- Names and properties, each with an assignment sign behind it. -/
inductive IsTargets : List Token → List Expr → Prop where
  | nil : IsTargets [] []
  | cons (h : IsSuffixed ts e) (he : e.isAssignable = true) (ht : t.kind = .assign)
      (hes : IsTargets us es) : IsTargets (ts ++ t :: us) (e :: es)

/-! ### How they are spelled -/

open Phrase

variable {t u : Token} {ts us mid rest : List Token} {e left whole : Expr} {es : List Expr}
  {precedence : Nat} {links : List Link}

namespace IsExpression

theorem of_spelled (h : (expression lowest e).Spelled ts []) : IsExpression ts e :=
  h.read _ (by unfold Grammar.fuelFor; omega)

theorem spelled (h : IsExpression ts e) : (expression lowest e).Spelled ts [] :=
  (Grammar.soundAt _).expression (Nat.le_refl _) h

/-- An expression is spelled in front of whatever ends it. -/
theorem spelled_append {kind : TokenKind} (h : IsExpression ts e) (ht : t.kind = kind)
    (hkind : kind.precedence = lowest) (helse : kind ≠ .elseWord) (rest : List Token) :
    (expression lowest e).Spelled (ts ++ t :: rest) (t :: rest) := by
  subst ht
  obtain ⟨ts', hts, hspelled⟩ := h.spelled.regrow (t :: rest) (.of_end rfl hkind helse rest)
  rw [← hts.of_nil]
  exact hspelled

end IsExpression

/-- Operators make nothing that ends with a bracket of its own. -/
theorem Phrase.Spelled.not_isBracketed (h : (operation left whole).Spelled ts rest) :
    whole.isBracketed = false := by
  cases h <;> rfl

/-- Behind an operand that ends with a bracket of its own there were no operators. -/
theorem Phrase.Spelled.operators_of_isBracketed {phrase : Phrase} (h : phrase.Spelled ts rest)
    (hphrase : phrase = operators precedence left whole) (hwhole : whole.isBracketed = true) :
    left = whole ∧ ts = rest := by
  induction h generalizing left with
  | noOperator => cases hphrase; exact ⟨rfl, rfl⟩
  | operator _ hjoined _ _ ih =>
      cases hphrase
      obtain ⟨rfl, -⟩ := ih rfl
      rw [hjoined.not_isBracketed] at hwhole
      cases hwhole
  | _ => cases hphrase

/-- An operand that ends with a bracket of its own can stand in front of anything. -/
theorem Phrase.Spelled.regrow_of_isBracketed (h : (operand e).Spelled ts rest)
    (he : e.isBracketed = true) (rest' : List Token) :
    ∃ ts', Regrown rest rest' ts ts' ∧ (operand e).Spelled ts' rest' := by
  cases h with
  | leaf h => exact ⟨_, .cons _ .rest, .leaf h⟩
  | unary | print => cases he
  | grouped ht h hu =>
      obtain ⟨ts', hts, h'⟩ := h.regrow (_ :: rest') (.inl rfl)
      exact ⟨_, .cons _ (hts.trans (.cons _ .rest)), .grouped ht h' hu⟩
  | condition _ h => cases h <;> cases he
  | function ht h =>
      obtain ⟨ts', hts, h'⟩ := h.regrow rest' trivial
      exact ⟨_, hts.cons _, .function ht h'⟩
  | array ht h =>
      obtain ⟨ts', hts, h'⟩ := h.regrow rest' trivial
      exact ⟨_, hts.cons _, .array ht h'⟩
  | map ht h hu =>
      obtain ⟨ts', hts, h'⟩ := h.regrow (_ :: rest') rfl
      exact ⟨_, .cons _ (hts.trans (.cons _ .rest)), .map ht h' hu⟩
  | new ht hu hv h =>
      obtain ⟨ts', hts, h'⟩ := h.regrow rest' trivial
      exact ⟨_, ((hts.cons _).cons _).cons _, .new ht hu hv h'⟩

/-- An argument is spelled in front of the others and the parenthesis behind them. -/
theorem IsExpression.spelled_argument (h : IsExpression ts e) (hes : IsMoreArguments us es)
    (hu : u.kind = .rparen) (rest : List Token) :
    (expression lowest e).Spelled (ts ++ (us ++ u :: rest)) (us ++ u :: rest) := by
  cases hes with
  | none => exact h.spelled_append hu rfl nofun rest
  | more ht => exact h.spelled_append ht rfl nofun _

theorem IsMoreArguments.spelled (h : IsMoreArguments ts es) (hu : u.kind = .rparen)
    (rest : List Token) : (moreExpressions es).Spelled (ts ++ u :: rest) (u :: rest) := by
  induction h with
  | none =>
      have hne : u.kind ≠ .comma := hu ▸ nofun
      exact .noMoreExpressions hne
  | more ht h hes ih =>
      rw [List.cons_append, List.append_assoc]
      exact .moreExpressions ht (h.spelled_argument hes hu rest) ih

theorem IsArguments.spelled (h : IsArguments ts es) (hu : u.kind = .rparen) (rest : List Token) :
    (expressions .rparen es).Spelled (ts ++ u :: rest) rest := by
  have hends : u.kind.endsList = true := by rw [hu]; rfl
  rw [← hu]
  cases h with
  | none => exact .noExpressions hends
  | some h hes =>
      rw [List.append_assoc]
      exact .someExpressions (h.spelled_argument hes hu rest) (hes.spelled hu rest) hends

/-- A primary is an operand in front of anything. -/
theorem IsPrimary.spelled (h : IsPrimary ts e) (rest : List Token) :
    (operand e).Spelled (ts ++ rest) rest := by
  cases h with
  | leaf h => exact .leaf h
  | bracketed h he =>
      cases h.spelled with
      | expression hleft hwhole =>
          obtain ⟨rfl, rfl⟩ := hwhole.operators_of_isBracketed rfl he
          obtain ⟨ts', hts, hspelled⟩ := hleft.regrow_of_isBracketed he rest
          rw [← hts.of_nil]
          exact hspelled
  | grouped ht h hu =>
      rw [List.cons_append, List.append_assoc]
      exact .grouped ht (h.spelled_append hu rfl nofun rest) hu
  | print ht hu h hv =>
      rw [List.cons_append, List.cons_append, List.append_assoc]
      exact .print ht hu (h.spelled hv rest)

/-- A suffix binds tighter than any prefix and any operator. -/
theorem IsSuffix.spelled {joined : Expr} (h : IsSuffix us left joined) (hp : precedence ≤ unary)
    (hwhole : (operators precedence joined whole).Spelled mid rest) :
    (operators precedence left whole).Spelled (us ++ mid) rest := by
  have htight : precedence < 9 := Nat.lt_succ_of_le hp
  cases h with
  | call ht h hu =>
      rw [List.cons_append, List.append_assoc]
      exact .operator (ht ▸ htight) (.call ht (h.spelled hu mid)) hwhole
  | index ht h hu =>
      rw [List.cons_append, List.append_assoc]
      exact .operator (ht ▸ htight) (.index ht (h.spelled_append hu rfl nofun mid) hu) hwhole
  | property ht hu => exact .operator (ht ▸ htight) (.property ht hu) hwhole

theorem IsSuffixed.spelled (h : IsSuffixed ts e) (hp : precedence ≤ unary)
    (hwhole : (operators precedence e whole).Spelled mid rest) :
    (expression precedence whole).Spelled (ts ++ mid) rest := by
  induction h generalizing mid with
  | primary h => exact .expression (h.spelled mid) hwhole
  | suffix _ hs ih =>
      rw [List.append_assoc]
      exact ih (hs.spelled hp hwhole)

/-- An operand is read with its prefixes and suffixes where no suffix follows, and then come the
operators behind it. -/
theorem IsOperand.spelled (h : IsOperand ts e) (hp : precedence ≤ unary)
    (hmid : (aheadKind mid).precedence ≤ unary)
    (hwhole : (operators precedence e whole).Spelled mid rest) :
    (expression precedence whole).Spelled (ts ++ mid) rest := by
  induction h generalizing precedence whole rest with
  | suffixed h => exact h.spelled hp hwhole
  | prefixed ht _ ih =>
      exact .expression (.unary ht (ih (Nat.le_refl _) (.noOperator hmid))) hwhole

/-! ### Chains -/

namespace TokenKind

theorem mem_of_joins {kind : TokenKind} (h : kind.joins = true) : kind ∈ levels.flatten :=
  List.contains_iff_mem.mp h

/-- Among the operators between two operands the level decides which binds tighter. -/
theorem precedence_of_joins {kind : TokenKind} (h : kind.joins = true) :
    kind.precedence = kind.level + 3 := by
  have hall : ∀ kind ∈ levels.flatten, kind.precedence = kind.level + 3 := by decide
  exact hall kind (mem_of_joins h)

theorem precedence_le_of_joins {kind : TokenKind} (h : kind.joins = true) :
    kind.precedence ≤ unary := by
  have hall : ∀ kind ∈ levels.flatten, kind.precedence ≤ unary := by decide
  exact hall kind (mem_of_joins h)

theorem isBinary_of_joins {kind : TokenKind} (h : kind.joins = true)
    (hlogical : ¬(kind = .and ∨ kind = .or)) : kind.isBinary = true := by
  have hall : ∀ kind ∈ levels.flatten, ¬(kind = .and ∨ kind = .or) → kind.isBinary = true := by
    decide
  exact hall kind (mem_of_joins h) hlogical

end TokenKind

/-- An operator between two operands is followed by what binds tighter than it does. -/
theorem spelled_joined (ht : t.kind.joins = true)
    (h : (expression t.kind.precedence e).Spelled ts rest) :
    (operation left (left.joined t e)).Spelled (t :: ts) rest := by
  unfold Expr.joined
  split
  · next hlogical => exact .logical (by rcases hlogical with h | h <;> rw [h] <;> rfl) h
  · next hlogical => exact .binary (TokenKind.isBinary_of_joins ht hlogical) h

namespace IsLinks

theorem joins (h : IsLinks ts links) : ∀ link ∈ links, link.operator.kind.joins = true := by
  induction h with
  | nil => exact nofun
  | cons ht _ _ ih =>
      intro link hlink
      rcases List.mem_cons.mp hlink with rfl | hlink
      · exact ht
      · exact ih link hlink

theorem precedence_eq (h : IsLinks ts links) (link : Link) (hlink : link ∈ links) :
    link.operator.kind.precedence = link.level + 3 :=
  TokenKind.precedence_of_joins (h.joins link hlink)

/-- The tokens of a chain fall into those before a link, those of the link and those behind it. -/
theorem split {before behind : List Link} {low : Link}
    (h : IsLinks ts (before ++ low :: behind)) :
    ∃ ts₁ ts₂ ts₃, ts = ts₁ ++ low.operator :: (ts₂ ++ ts₃) ∧ IsLinks ts₁ before ∧
      IsOperand ts₂ low.operand ∧ IsLinks ts₃ behind := by
  induction before generalizing ts with
  | nil =>
      cases h with
      | cons _ h hlinks => exact ⟨[], _, _, rfl, .nil, h, hlinks⟩
  | cons link before ih =>
      cases h with
      | cons ht h hlinks =>
          obtain ⟨ts₁, ts₂, ts₃, rfl, h₁, h₂, h₃⟩ := ih hlinks
          exact ⟨_, ts₂, ts₃, by simp, .cons ht h h₁, h₂, h₃⟩

theorem precedence_le (h : IsLinks ts links) (hmid : (aheadKind mid).precedence ≤ unary) :
    (aheadKind (ts ++ mid)).precedence ≤ unary := by
  cases h with
  | nil => exact hmid
  | cons ht _ _ => exact TokenKind.precedence_le_of_joins ht

/-- Links whose operators bind tighter than is asked for, in front of what binds no tighter than any
of them, are read as what the chain means. -/
theorem spelled {first : Expr} (h : IsLinks ts links)
    (htight : ∀ link ∈ links, precedence < link.operator.kind.precedence)
    (hmid : ∀ link ∈ links, (aheadKind mid).precedence ≤ link.operator.kind.precedence)
    (hwhole : (operators precedence (chainTree first links) whole).Spelled mid rest) :
    (operators precedence first whole).Spelled (ts ++ mid) rest := by
  -- On the number of links: the one that binds least has fewer on either side.
  induction hn : links.length using Nat.strongRecOn
    generalizing links ts mid rest first whole precedence with
  | ind n ih =>
      subst hn
      by_cases hnil : links = []
      · subst hnil
        cases h
        rwa [chainTree_nil] at hwhole
      · obtain ⟨before, low, behind, hsplit⟩ := exists_splitsAt hnil
        rw [chainTree_of_splitsAt first hsplit] at hwhole
        obtain ⟨rfl, hbefore, hbehind⟩ := hsplit
        have hlow : low ∈ before ++ low :: behind := List.mem_append_right _ List.mem_cons_self
        have hbefore' (link : Link) (hlink : link ∈ before) :
            low.operator.kind.precedence ≤ link.operator.kind.precedence := by
          rw [h.precedence_eq low hlow, h.precedence_eq link (List.mem_append_left _ hlink)]
          exact Nat.add_le_add_right (hbefore link hlink) 3
        have hbehind' (link : Link) (hlink : link ∈ behind) :
            low.operator.kind.precedence < link.operator.kind.precedence := by
          rw [h.precedence_eq low hlow,
            h.precedence_eq link (List.mem_append_right _ (List.mem_cons_of_mem low hlink))]
          exact Nat.add_lt_add_right (hbehind link hlink) 3
        have hunary := TokenKind.precedence_le_of_joins (h.joins low hlow)
        obtain ⟨ts₁, ts₂, ts₃, rfl, h₁, h₂, h₃⟩ := h.split
        have hright : (expression low.operator.kind.precedence
            (chainTree low.operand behind)).Spelled (ts₂ ++ (ts₃ ++ mid)) mid := by
          refine h₂.spelled hunary (h₃.precedence_le (Nat.le_trans (hmid low hlow) hunary)) ?_
          exact ih behind.length (by simp; omega) h₃ hbehind'
            (fun link hlink => Nat.le_trans (hmid low hlow) (Nat.le_of_lt (hbehind' link hlink)))
            (.noOperator (hmid low hlow)) rfl
        have hrest : (operators precedence (chainTree first before) whole).Spelled
            (low.operator :: (ts₂ ++ (ts₃ ++ mid))) rest :=
          .operator (htight low hlow) (spelled_joined (h.joins low hlow) hright) hwhole
        rw [List.append_assoc, List.cons_append, List.append_assoc]
        exact ih before.length (by simp) h₁
          (fun link hlink => htight link (List.mem_append_left _ hlink)) hbefore' hrest rfl

end IsLinks

/-! ### Assignments in front of a chain -/

/-- A chain is read as an expression in front of what is no operator. -/
theorem spelled_chain {firstTokens linkTokens : List Token} {first : Expr}
    (hfirst : IsOperand firstTokens first) (hlinks : IsLinks linkTokens links)
    (hrest : (aheadKind rest).precedence = lowest) :
    (expression lowest (chainTree first links)).Spelled (firstTokens ++ (linkTokens ++ rest))
      rest := by
  have hlowest (kind : TokenKind) : (aheadKind rest).precedence ≤ kind.precedence :=
    hrest ▸ TokenKind.lowest_le_precedence kind
  have hend : (aheadKind rest).precedence ≤ unary := hrest ▸ by decide
  refine hfirst.spelled (by decide) (hlinks.precedence_le hend) ?_
  refine hlinks.spelled (fun link hlink => ?_) (fun link _ => hlowest _) (.noOperator ?_)
  · rw [TokenKind.precedence_of_joins (hlinks.joins link hlink)]
    exact Nat.lt_add_left _ (by decide)
  · exact Nat.le_of_eq hrest

/-- A chain is an expression by itself. -/
theorem isExpression_chain {firstTokens linkTokens : List Token} {first : Expr}
    (hfirst : IsOperand firstTokens first) (hlinks : IsLinks linkTokens links) :
    IsExpression (firstTokens ++ linkTokens) (chainTree first links) := by
  have hspelled := spelled_chain hfirst hlinks (show (aheadKind []).precedence = lowest from rfl)
  rw [List.append_nil] at hspelled
  exact .of_spelled hspelled

/-- Assignments are read from the right, each with all that follows as its value. -/
theorem IsTargets.spelled {targets : List Expr} {tree : Expr} (h : IsTargets ts targets)
    (hrest : (aheadKind rest).precedence = lowest)
    (htree : (expression lowest tree).Spelled mid rest) :
    (expression lowest (targets.foldr .assign tree)).Spelled (ts ++ mid) rest := by
  induction h with
  | nil => exact htree
  | cons h he ht _ ih =>
      rw [List.append_assoc, List.cons_append]
      refine h.spelled (by decide) (.operator ?_ (.assign ht he ih) (.noOperator ?_))
      · rw [ht]
        decide
      · exact Nat.le_of_eq hrest

/-- A chain of operands is read without a fault and as what the chain means, split where it binds
least, and assignments in front of it nest to the right around that. It may end the tokens, or a
semicolon may stand behind it, and then what follows is read as by itself. -/
theorem chains_are_read_by_precedence {targetTokens firstTokens linkTokens : List Token}
    {targets : List Expr} {first : Expr} {links : List Link}
    (htargets : IsTargets targetTokens targets) (hfirst : IsOperand firstTokens first)
    (hlinks : IsLinks linkTokens links) :
    (∀ rest, aheadKind rest = .eof →
      Reading.ofTokens (targetTokens ++ (firstTokens ++ (linkTokens ++ rest))) =
        ⟨[.expr (targets.foldr .assign (chainTree first links))], []⟩) ∧
    ∀ (t : Token) (us : List Token), t.kind = .semicolon →
      Reading.ofTokens (targetTokens ++ (firstTokens ++ (linkTokens ++ t :: us))) =
        ⟨.expr (targets.foldr .assign (chainTree first links)) :: (Reading.ofTokens us).program,
          (Reading.ofTokens us).errors⟩ := by
  constructor
  · intro rest hend
    have hlowest : (aheadKind rest).precedence = lowest := by rw [hend]; rfl
    have hspelled := htargets.spelled hlowest (spelled_chain hfirst hlinks hlowest)
    have hne : aheadKind rest ≠ .semicolon := by rw [hend]; exact nofun
    rw [(Spelled.expr (.expressionStatement hspelled (.noSemicolon hne))).ofTokens_statement,
      Reading.ofTokens_of_spelled (.emptyProgram hend)]
    rfl
  · intro t us ht
    have hlowest : (aheadKind (t :: us)).precedence = lowest := by rw [aheadKind_cons, ht]; rfl
    have hspelled := htargets.spelled hlowest (spelled_chain hfirst hlinks hlowest)
    rw [(Spelled.expr (.expressionStatement hspelled (.semicolon ht))).ofTokens_statement]
    rfl

/-- Tokens of `a.b = x =`. -/
def twoTargets : List Token :=
  [⟨.ident, "a", 0⟩, ⟨.dot, ".", 1⟩, ⟨.ident, "b", 2⟩, ⟨.assign, "=", 4⟩, ⟨.ident, "x", 6⟩,
    ⟨.assign, "=", 8⟩]

/-- Tokens of `-f(s)`. -/
def negatedCall : List Token :=
  [⟨.minus, "-", 10⟩, ⟨.ident, "f", 11⟩, ⟨.lparen, "(", 12⟩, ⟨.ident, "s", 13⟩, ⟨.rparen, ")", 14⟩]

/-- Tokens of `* (y + z) && !c < d`. -/
def threeLinks : List Token :=
  [⟨.asterisk, "*", 16⟩, ⟨.lparen, "(", 18⟩, ⟨.ident, "y", 19⟩, ⟨.plus, "+", 21⟩,
    ⟨.ident, "z", 23⟩, ⟨.rparen, ")", 24⟩, ⟨.and, "&&", 26⟩, ⟨.bang, "!", 29⟩, ⟨.ident, "c", 30⟩,
    ⟨.lt, "<", 32⟩, ⟨.ident, "d", 34⟩]

/-- The link `* (y + z)`. -/
def sumLink : Link :=
  ⟨⟨.asterisk, "*", 16⟩, .binary (.ident "y") "+" (.ident "z")⟩

/-- The link `&& !c`. -/
def negatedLink : Link :=
  ⟨⟨.and, "&&", 26⟩, .unary "!" (.ident "c")⟩

/-- The link `< d`. -/
def lessLink : Link :=
  ⟨⟨.lt, "<", 32⟩, .ident "d"⟩

theorem chains_are_read_by_precedence_of_threeLinks :
    IsTargets twoTargets [.property (.ident "a") "b", .ident "x"] ∧
      IsOperand negatedCall (.unary "-" (.call (.ident "f") [.ident "s"])) ∧
      IsLinks threeLinks [sumLink, negatedLink, lessLink] ∧
      Reading.ofTokens (twoTargets ++ (negatedCall ++ (threeLinks ++ [⟨.eof, "", 35⟩]))) =
        ⟨[.expr (.assign (.property (.ident "a") "b") (.assign (.ident "x")
          (.logical
            (.binary (.unary "-" (.call (.ident "f") [.ident "s"])) "*"
              (.binary (.ident "y") "+" (.ident "z")))
            "&&" (.binary (.unary "!" (.ident "c")) "<" (.ident "d")))))], []⟩ := by
  have hname (name : String) (position : Int) :
      IsSuffixed [⟨.ident, name, position⟩] (.ident name) := .primary (.leaf rfl)
  have htargets : IsTargets twoTargets [.property (.ident "a") "b", .ident "x"] :=
    .cons (.suffix (hname "a" 0) (.property rfl rfl)) rfl rfl
      (.cons (hname "x" 6) rfl rfl .nil)
  have hargument : IsExpression [⟨.ident, "s", 13⟩] (.ident "s") := by
    simpa using isExpression_chain (.suffixed (hname "s" 13)) .nil
  have hfirst : IsOperand negatedCall (.unary "-" (.call (.ident "f") [.ident "s"])) :=
    .prefixed rfl (.suffixed (.suffix (hname "f" 11) (.call rfl (.some hargument .none) rfl)))
  have hsum : IsExpression [⟨.ident, "y", 19⟩, ⟨.plus, "+", 21⟩, ⟨.ident, "z", 23⟩]
      (.binary (.ident "y") "+" (.ident "z")) := by
    have hchain := isExpression_chain (.suffixed (hname "y" 19))
      (.cons (t := ⟨.plus, "+", 21⟩) rfl (.suffixed (hname "z" 23)) .nil)
    rw [chainTree_singleton] at hchain
    exact hchain
  have hlinks : IsLinks threeLinks [sumLink, negatedLink, lessLink] :=
    .cons rfl (.suffixed (.primary (.grouped rfl hsum rfl)))
      (.cons rfl (.prefixed rfl (.suffixed (hname "c" 30)))
        (.cons rfl (.suffixed (hname "d" 34)) .nil))
  have hsplit : SplitsAt [sumLink, negatedLink, lessLink] [sumLink] negatedLink [lessLink] :=
    ⟨rfl, by decide, by decide⟩
  refine ⟨htargets, hfirst, hlinks, ?_⟩
  rw [(chains_are_read_by_precedence htargets hfirst hlinks).1 [⟨.eof, "", 35⟩] rfl,
    chainTree_of_splitsAt _ hsplit, chainTree_singleton, chainTree_singleton]
  rfl

end Scripting
