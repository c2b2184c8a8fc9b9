import Calculator.Evaluation
import Calculator.Text.Terminal

/-!
# The command line

The words of the command line, joined by spaces, are one expression; its value goes to the standard
output, an error to the error output.  Options are recognized only in front of the first word, so
that an expression may begin with a minus sign.
-/

namespace Calculator.CommandLine

/-- What a run writes, and the status it ends with. -/
structure Outcome where
  code : Nat
  stdout : String
  stderr : String
deriving DecidableEq

/-- What is shown if there is nothing to evaluate. -/
def usage : String := "Usage: exprcalc <expression>\n  exprcalc \"sin(pi/2) + 1\"\n"

/-- What is shown about the program itself. -/
def versionText : String := "exprcalc 0.1.0\n"

/-- Ends with an output. -/
def Outcome.success (text : String) : Outcome := ⟨0, text, ""⟩

/-- Ends with an error. -/
def Outcome.failure (text : String) : Outcome := ⟨2, "", "error: " ++ text ++ "\n"⟩

/-- Evaluates an expression. -/
def calculate (expression : String) : Outcome :=
  match evaluateText expression with
  | .ok x => .success (Decimal.resultText x.float ++ "\n")
  | .error e => .failure e.message

/-- Evaluates words as one expression, unless help is asked for or there are none. -/
def calculateWords (helpAsked : Bool) (words : List String) : Outcome :=
  if helpAsked || words.isEmpty then .success usage
  else calculate (String.intercalate " " words)

/-! ## Options -/

/-- What can be asked for in front of the first word. -/
inductive Flag where
  | help | version
deriving DecidableEq

/-- The long form of an option. -/
def Flag.long : Flag → String
  | help => "--help"
  | version => "--version"

/-- The option that a letter stands for. -/
def Flag.ofLetter? : Char → Option Flag
  | 'h' => some .help
  | 'V' => some .version
  | _ => none

/-- The options that an argument gives: one in its long form, or some in letters behind one minus
    sign. -/
def flags? (arg : String) : Option (List Flag) :=
  if arg = Flag.help.long then some [.help]
  else if arg = Flag.version.long then some [.version]
  else match arg.toList with
    | '-' :: letter :: letters => (letter :: letters).mapM Flag.ofLetter?
    | _ => none

/-- The value that an argument gives to a long option, which takes none. -/
def attachedValue? (arg : String) : Option (Flag × String) :=
  [Flag.help, Flag.version].findSome? fun flag =>
    (Grammar.afterSpelling? (flag.long ++ "=").toList arg.toList).map
      fun value => (flag, String.ofList value)

/-- The error for a second request for help. -/
def helpRepeated : Outcome :=
  .failure <| "the argument '--help' cannot be used multiple times\n\n" ++
    "Usage: exprcalc [EXPRESSION]..."

/-- The command line that is suggested to somebody who gave an option.  The version goes with a
    request for help or an expression; once help has been asked for, the two are alternatives. -/
def usageWith (helpAsked : Bool) (flag : Flag) : String :=
  match helpAsked, flag with
  | false, _ => flag.long ++ " [EXPRESSION]..."
  | true, .help => "<--help|EXPRESSION>"
  | true, .version => flag.long ++ " <--help|EXPRESSION>"

/-- The error for a value given to an option, which is quoted without control sequences. -/
def valueRefused (helpAsked : Bool) (flag : Flag) (value : String) : Outcome :=
  .failure <| "unexpected value '" ++ Text.shown value ++ "' for '" ++ flag.long ++
    "' found; no more were expected\n\n" ++ "Usage: exprcalc " ++ usageWith helpAsked flag

/-- Goes through options; the version and a repeated request for help end the run, otherwise it is
    known whether help is asked for. -/
def applyFlags (helpAsked : Bool) : List Flag → Except Outcome Bool
  | [] => .ok helpAsked
  | .help :: rest => if helpAsked then .error helpRepeated else applyFlags true rest
  | .version :: _ => .error (.success versionText)

/-- Goes through the arguments up to the first word. -/
def runAfter (helpAsked : Bool) : List String → Outcome
  | [] => calculateWords helpAsked []
  | arg :: rest =>
    if arg = "--" then calculateWords helpAsked rest
    else match flags? arg, attachedValue? arg with
      | some flags, _ =>
        match applyFlags helpAsked flags with
        | .ok asked => runAfter asked rest
        | .error outcome => outcome
      | none, some (flag, value) => valueRefused helpAsked flag value
      | none, none => calculateWords helpAsked (arg :: rest)

/-- Runs the calculator on the arguments of the command line. -/
def run (args : List String) : Outcome := runAfter false args

example : run ["2", "+", "2*3"] = ⟨0, "8.0\n", ""⟩ := by decide +kernel

example : run ["-5"] = ⟨0, "-5.0\n", ""⟩ := by decide +kernel

example : run ["1", "+"] =
    ⟨2, "", "error: invalid syntax at line 1, column 4: expected expression\n"⟩ := by
  decide +kernel

example : run ["-h", "--version=2"] =
    ⟨2, "", "error: unexpected value '2' for '--version' found; no more were expected\n\n" ++
      "Usage: exprcalc --version <--help|EXPRESSION>\n"⟩ := by
  decide +kernel

example : run ["-V"] = ⟨0, versionText, ""⟩ ∧ run [] = ⟨0, usage, ""⟩ := by decide +kernel

end Calculator.CommandLine
