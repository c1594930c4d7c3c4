import Scripting.Number.Binary64
import Scripting.Options
import Scripting.Options.IntegerText
import Scripting.Table

/-!
# Settings

Options are made from settings: values given by a caller under the name of the option, and texts
of environment variables named `SHO_` and the name of the option, both in any case. A caller's
value wins over a variable, and a variable over the default. Every option is checked, and all
faults are given together.
-/

namespace Scripting

/-- A value that a caller gives for an option. -/
inductive Setting where
  | text (s : String)
  | integer (n : Int)
  /-- A floating-point number, with or without a fraction. -/
  | real (x : Float)
  | boolean (b : Bool)
  | null
  | list (items : List Setting)
  | record (fields : List (String × Setting))

instance : Inhabited Setting := ⟨.null⟩

/-- The options that settings are for. -/
inductive OptionName where
  | methodResolution | assignment | recursionLimit
  deriving DecidableEq, Repr

/-- The name of an option in a setting. -/
def OptionName.name : OptionName → String
  | methodResolution => "method_resolution"
  | assignment => "assignment"
  | recursionLimit => "recursion_limit"

/-- What can be wrong with a setting. -/
inductive SettingFault where
  /-- Not one of the two words. -/
  | notAChoice (first second : String)
  /-- A text that spells no integer. -/
  | unreadableInteger
  /-- A number with a fraction. -/
  | fractionalInteger
  /-- An infinite number, or none at all where there should be one. -/
  | notFinite
  /-- A number that is too large, or a text with too many digits, to be taken as an integer. -/
  | oversizeInteger
  /-- Neither a number nor a text. -/
  | notAnInteger
  | belowMinimum (minimum : Int)
  deriving DecidableEq, Repr

namespace SettingFault

/-- The kind of a fault. -/
def kind : SettingFault → String
  | notAChoice _ _ => "literal_error"
  | unreadableInteger => "int_parsing"
  | fractionalInteger => "int_from_float"
  | notFinite => "finite_number"
  | oversizeInteger => "int_parsing_size"
  | notAnInteger => "int_type"
  | belowMinimum _ => "greater_than_equal"

/-- The wording of a fault. -/
def message : SettingFault → String
  | notAChoice first second => "Input should be '" ++ first ++ "' or '" ++ second ++ "'"
  | unreadableInteger => "Input should be a valid integer, unable to parse string as an integer"
  | fractionalInteger => "Input should be a valid integer, got a number with a fractional part"
  | notFinite => "Input should be a finite number"
  | oversizeInteger => "Unable to parse input string as an integer, exceeded maximum size"
  | notAnInteger => "Input should be a valid integer"
  | belowMinimum minimum => "Input should be greater than or equal to " ++ toString minimum

end SettingFault

namespace Setting

/-- The ASCII letter in lower case, any other character as it is. -/
def lowerLetter (c : Char) : Char :=
  if 'A' ≤ c ∧ c ≤ 'Z' then Char.ofNat (c.toNat + 32) else c

/-- A text with its ASCII letters in lower case. The words and names of the options have ASCII
letters only, and none that is the lower case of another character. -/
def lower (s : String) : String :=
  String.ofList (s.toList.map lowerLetter)

/-- The word that a setting gives for a choice, if it is a text: without blanks around it and in
lower case. -/
def word? : Setting → Option String
  | text s => some (lower (Text.strip s))
  | _ => none

/-- The method resolution that a setting asks for. -/
def methodResolution (setting : Setting) : Except SettingFault MethodResolution :=
  match setting.word?.bind MethodResolution.ofWord? with
  | some choice => .ok choice
  | none => .error (.notAChoice "own" "chain")

/-- The assignment policy that a setting asks for. -/
def assignment (setting : Setting) : Except SettingFault AssignmentPolicy :=
  match setting.word?.bind AssignmentPolicy.ofWord? with
  | some choice => .ok choice
  | none => .error (.notAChoice "strict" "lenient")

/-- The bound, 2^63, below which the size of a floating-point number must stay. -/
def realBound : Nat := 9223372036854775808

/-- The integer that a floating-point number equals. -/
def integerOfReal (x : Float) : Except SettingFault Int :=
  if x.isFinite then
    match (Binary64.ofFloat x).whole? with
    | none => .error .fractionalInteger
    | some n => if n.natAbs < realBound then .ok n else .error .oversizeInteger
  else .error .notFinite

/-- The integer that a setting stands for. A truth value counts as 0 or 1. -/
def integerValue : Setting → Except SettingFault Int
  | text s =>
      match IntegerText.value s with
      | .ok n => .ok n
      | .error .noInteger => .error .unreadableInteger
      | .error .tooLong => .error .oversizeInteger
  | integer n => .ok n
  | real x => integerOfReal x
  | boolean b => .ok (if b then 1 else 0)
  | _ => .error .notAnInteger

/-- The smallest recursion limit. -/
def minimumRecursionLimit : Int := 100

/-- The recursion limit that a setting asks for. -/
def recursionLimit (setting : Setting) : Except SettingFault Int := do
  let n ← setting.integerValue
  if n < minimumRecursionLimit then .error (.belowMinimum minimumRecursionLimit) else .ok n

end Setting

namespace Options

/-- The content of the last row whose name, in lower case, is the given one. -/
def lastNamed? {α : Type} (rows : Table α) (name : String) : Option α :=
  (rows.reverse.find? fun row => Setting.lower row.1 = name).map Prod.snd

/-- The setting of an option: the caller's, first of all under the very name of the option, or
else that of the last variable named for it. -/
def settingFor? (given : Table Setting) (environment : Table String) (option : OptionName) :
    Option Setting :=
  ((given.get? option.name).or (lastNamed? given option.name)).or
    ((lastNamed? environment ("sho_" ++ option.name)).map Setting.text)

/-- A checked setting, or the default where there is no setting. -/
def checked {α : Type} (setting? : Option Setting) (check : Setting → Except SettingFault α)
    (default : α) : Except SettingFault α :=
  match setting? with
  | none => .ok default
  | some setting => check setting

/-- The fault of an option, if there is one. -/
def faultOf {α : Type} (option : OptionName) :
    Except SettingFault α → List (OptionName × SettingFault)
  | .ok _ => []
  | .error fault => [(option, fault)]

/-- The options of a caller's settings and of environment variables, or all faults in them. -/
def ofSettings (given : Table Setting) (environment : Table String) :
    Except (List (OptionName × SettingFault)) Options :=
  let setting? := settingFor? given environment
  let methodResolution := checked (setting? .methodResolution) Setting.methodResolution .own
  let assignment := checked (setting? .assignment) Setting.assignment .strict
  let recursionLimit := checked (setting? .recursionLimit) Setting.recursionLimit 10000
  match methodResolution, assignment, recursionLimit with
  | .ok methodResolution, .ok assignment, .ok recursionLimit =>
      .ok { methodResolution, assignment, recursionLimit }
  | _, _, _ =>
      .error (faultOf .methodResolution methodResolution ++ faultOf .assignment assignment ++
        faultOf .recursionLimit recursionLimit)

end Options

end Scripting
