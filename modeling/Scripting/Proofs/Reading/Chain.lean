import Scripting.Token
import Scripting.Tree

/-!
# Chains of operands

What a chain of operands means, with an operator between each two of them. The operator that binds
least is the outermost, and of several that bind equally it is the last. It splits the chain in two,
and its operands are what the chains on either side of it mean.
-/

namespace Scripting

namespace TokenKind

/-- The operators between two operands, those that bind least first. -/
def levels : List (List TokenKind) :=
  [[.and, .or], [.eq, .notEq], [.lt, .gt], [.plus, .minus], [.asterisk, .slash]]

/-- Whether an operator of a kind stands between two operands. -/
def joins (kind : TokenKind) : Bool :=
  levels.flatten.contains kind

/-- How tightly an operator between two operands binds. -/
def level (kind : TokenKind) : Nat :=
  levels.findIdx (·.contains kind)

end TokenKind

/-- The expression that an operator makes of its two operands. -/
def Expr.joined (left : Expr) (operator : Token) (right : Expr) : Expr :=
  if operator.kind = .and ∨ operator.kind = .or then .logical left operator.literal right
  else .binary left operator.literal right

/-- An operator and the operand behind it. -/
structure Link where
  operator : Token
  operand : Expr

/-- How tightly the operator of a link binds. -/
def Link.level (link : Link) : Nat :=
  link.operator.kind.level

/-- Of the links whose operators bind least the last one, with those before and those behind it. -/
def lastLowest : List Link → Option (List Link × Link × List Link)
  | [] => none
  | link :: links =>
      match lastLowest links with
      | none => some ([], link, links)
      | some (before, low, behind) =>
          if link.level < low.level then some ([], link, links)
          else some (link :: before, low, behind)

/-- The links are split at the last of those whose operators bind least. -/
structure SplitsAt (links before : List Link) (low : Link) (behind : List Link) : Prop where
  eq : links = before ++ low :: behind
  before_le : ∀ link ∈ before, low.level ≤ link.level
  lt_behind : ∀ link ∈ behind, low.level < link.level

theorem lastLowest_eq_none_iff (links : List Link) : lastLowest links = none ↔ links = [] := by
  cases links with
  | nil => exact iff_of_true rfl rfl
  | cons link links =>
      refine iff_of_false ?_ (List.cons_ne_nil _ _)
      rw [lastLowest]
      split
      · exact nofun
      · split <;> exact nofun

theorem SplitsAt.of_lastLowest {links before behind : List Link} {low : Link}
    (h : lastLowest links = some (before, low, behind)) : SplitsAt links before low behind := by
  induction links generalizing before low behind with
  | nil => cases h
  | cons link links ih =>
      rw [lastLowest] at h
      split at h
      · next hnone =>
          rw [lastLowest_eq_none_iff] at hnone
          subst hnone
          cases h
          exact ⟨rfl, nofun, nofun⟩
      · next before' low' behind' hsome =>
          have hsplit := ih hsome
          split at h
          · next hlt =>
              cases h
              refine ⟨rfl, nofun, fun other hother => ?_⟩
              rw [hsplit.eq, List.mem_append, List.mem_cons] at hother
              rcases hother with hbefore | rfl | hbehind
              · exact Nat.lt_of_lt_of_le hlt (hsplit.before_le other hbefore)
              · exact hlt
              · exact Nat.lt_trans hlt (hsplit.lt_behind other hbehind)
          · next hle =>
              cases h
              refine ⟨congrArg (link :: ·) hsplit.eq, fun other hother => ?_, hsplit.lt_behind⟩
              rcases List.mem_cons.mp hother with rfl | hother
              · exact Nat.le_of_not_lt hle
              · exact hsplit.before_le other hother

theorem SplitsAt.lastLowest_eq {links before behind : List Link} {low : Link}
    (h : SplitsAt links before low behind) : lastLowest links = some (before, low, behind) := by
  obtain ⟨rfl, hbefore, hbehind⟩ := h
  induction before with
  | nil =>
      rw [List.nil_append, lastLowest]
      split
      · rfl
      · next hsome =>
          have hmem := (SplitsAt.of_lastLowest hsome).eq ▸
            List.mem_append_right _ List.mem_cons_self
          rw [if_pos (hbehind _ hmem)]
  | cons link before ih =>
      rw [List.cons_append, lastLowest, ih fun other hother =>
        hbefore other (List.mem_cons_of_mem link hother)]
      exact if_neg (Nat.not_lt_of_le (hbefore link List.mem_cons_self))

/-- Links are split somewhere, unless there are none. -/
theorem exists_splitsAt {links : List Link} (h : links ≠ []) :
    ∃ before low behind, SplitsAt links before low behind := by
  cases hsplit : lastLowest links with
  | none => exact absurd ((lastLowest_eq_none_iff links).mp hsplit) h
  | some split => exact ⟨_, _, _, .of_lastLowest hsplit⟩

/-- What a chain means that begins with the operand `first` and goes on with the links. -/
def chainTree (first : Expr) (links : List Link) : Expr :=
  match _h : lastLowest links with
  | none => first
  | some (before, low, behind) =>
      (chainTree first before).joined low.operator (chainTree low.operand behind)
termination_by links.length
decreasing_by
  all_goals
    rw [(SplitsAt.of_lastLowest _h).eq, List.length_append, List.length_cons]
    omega

@[simp] theorem chainTree_nil (first : Expr) : chainTree first [] = first := by
  rw [chainTree]
  rfl

/-- A chain means what its operator that binds least makes of the chains on either side. -/
theorem chainTree_of_splitsAt {links before behind : List Link} {low : Link} (first : Expr)
    (h : SplitsAt links before low behind) :
    chainTree first links =
      (chainTree first before).joined low.operator (chainTree low.operand behind) := by
  rw [chainTree]
  split
  · next hnone =>
      rw [h.lastLowest_eq] at hnone
      cases hnone
  · next hsome =>
      rw [h.lastLowest_eq] at hsome
      cases hsome
      rfl

@[simp] theorem chainTree_singleton (first : Expr) (link : Link) :
    chainTree first [link] = first.joined link.operator link.operand := by
  have hsplit : SplitsAt [link] [] link [] := ⟨rfl, by simp, by simp⟩
  rw [chainTree_of_splitsAt first hsplit, chainTree_nil, chainTree_nil]

end Scripting
