import Scripting.Options.Setting

/-!
# Unchecked options

The fields of options can be overwritten with settings that are never checked. What is left then
stands for no `Options`, but it still answers the two questions that runs ask of options; on
checked fields the answers are those of the options themselves.
-/

namespace Scripting

/-- Options whose fields may hold anything. -/
structure UncheckedOptions where
  methodResolution : Setting
  assignment : Setting
  recursionLimit : Setting

/-- Options as fields that may be overwritten. -/
def Options.unchecked (options : Options) : UncheckedOptions :=
  { methodResolution := .text options.methodResolution.word
    assignment := .text options.assignment.word
    recursionLimit := .integer options.recursionLimit }

namespace UncheckedOptions

/-- Overwrites the fields that the changes name; other names change nothing. -/
def overwrite (options : UncheckedOptions) (changes : Table Setting) : UncheckedOptions :=
  let field (option : OptionName) (old : Setting) := (changes.get? option.name).getD old
  { methodResolution := field .methodResolution options.methodResolution
    assignment := field .assignment options.assignment
    recursionLimit := field .recursionLimit options.recursionLimit }

/-- Whether methods are looked up in the ancestors of a class too: only the very word says so. -/
def walksSuperclasses (options : UncheckedOptions) : Bool :=
  match options.methodResolution with
  | .text word => word == MethodResolution.chain.word
  | _ => false

/-- Whether assigning an undeclared name is an error: only the very word says so. -/
def strictAssignment (options : UncheckedOptions) : Bool :=
  match options.assignment with
  | .text word => word == AssignmentPolicy.strict.word
  | _ => false

theorem walksSuperclasses_unchecked (options : Options) :
    options.unchecked.walksSuperclasses = options.walksSuperclasses := by
  obtain ⟨method, policy, limit⟩ := options
  cases method <;> simp [Options.unchecked, walksSuperclasses, Options.walksSuperclasses,
    MethodResolution.word]

theorem strictAssignment_unchecked (options : Options) :
    options.unchecked.strictAssignment = options.strictAssignment := by
  obtain ⟨method, policy, limit⟩ := options
  cases policy <;> simp [Options.unchecked, strictAssignment, Options.strictAssignment,
    AssignmentPolicy.word]

@[simp] theorem overwrite_nil (options : UncheckedOptions) : options.overwrite [] = options := rfl

end UncheckedOptions

end Scripting
