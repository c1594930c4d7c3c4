/-!
# Options of a run

How methods are looked up, what assigning an undeclared name does, and a recursion limit that
the host is asked for. The choices are named by words.

The host counts its own calls against the recursion limit. A run counts nested bodies, of which
fewer fit under the same limit (`Options.depthLimit`).
-/

namespace Scripting

/-- Where a method is looked up. -/
inductive MethodResolution where
  /-- In the class of the object alone. -/
  | own
  /-- In the class of the object and its ancestors. -/
  | chain
  deriving DecidableEq, Repr

/-- What assigning an undeclared name does. -/
inductive AssignmentPolicy where
  /-- It is an error. -/
  | strict
  /-- It binds the name in the current scope. -/
  | lenient
  deriving DecidableEq, Repr

namespace MethodResolution

/-- The word for a choice. -/
def word : MethodResolution → String
  | own => "own"
  | chain => "chain"

/-- The choice of a word. -/
def ofWord? : String → Option MethodResolution
  | "own" => some own
  | "chain" => some chain
  | _ => none

theorem ofWord?_eq_some_iff (w : String) (m : MethodResolution) :
    ofWord? w = some m ↔ w = m.word := by
  constructor
  · intro h
    unfold ofWord? at h
    split at h <;> cases h <;> rfl
  · rintro rfl
    cases m <;> rfl

end MethodResolution

namespace AssignmentPolicy

/-- The word for a choice. -/
def word : AssignmentPolicy → String
  | strict => "strict"
  | lenient => "lenient"

/-- The choice of a word. -/
def ofWord? : String → Option AssignmentPolicy
  | "strict" => some strict
  | "lenient" => some lenient
  | _ => none

theorem ofWord?_eq_some_iff (w : String) (a : AssignmentPolicy) :
    ofWord? w = some a ↔ w = a.word := by
  constructor
  · intro h
    unfold ofWord? at h
    split at h <;> cases h <;> rfl
  · rintro rfl
    cases a <;> rfl

end AssignmentPolicy

/-- The recursion limit that the host has by itself. -/
def hostRecursionLimit : Nat := 1000

/-- The fewest calls of the host that there are from a body to one nested in it: making an object in
a constructor takes five, any other call takes more. -/
def callsPerBody : Nat := 5

/-- The options of a run. -/
structure Options where
  methodResolution : MethodResolution := .own
  assignment : AssignmentPolicy := .strict
  recursionLimit : Int := 10000
  deriving DecidableEq, Repr

namespace Options

/-- Whether methods are looked up in the ancestors of a class too. -/
def walksSuperclasses (options : Options) : Bool :=
  options.methodResolution == .chain

/-- Whether assigning an undeclared name is an error. -/
def strictAssignment (options : Options) : Bool :=
  options.assignment == .strict

/-- The recursion limit while a run lasts. It is raised to the one asked for and never lowered. -/
def raisedLimit (options : Options) : Nat :=
  max hostRecursionLimit options.recursionLimit.toNat

/-- How deep bodies may nest under the recursion limit. No run that the host gets through nests them
deeper. Close to the limit the host may give up before, for it also counts the calls for what stands
around the bodies. -/
def depthLimit (options : Options) : Nat :=
  options.raisedLimit / callsPerBody

/-- A limit below that of the host makes no difference. -/
theorem depthLimit_of_le {options : Options} (h : options.recursionLimit ≤ hostRecursionLimit) :
    options.depthLimit = hostRecursionLimit / callsPerBody := by
  rw [depthLimit, raisedLimit, Nat.max_eq_left (Int.toNat_le.mpr h)]

end Options

end Scripting
