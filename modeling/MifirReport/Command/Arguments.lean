/-!
# Arguments of the command

Arguments are options with values, flags, and values. A long option takes a value after an equals
sign or as the next argument; a short one also takes what follows it directly. The option for inputs
takes all values up to the next option, and may be given again; every other option and every flag
may be given once. A value that belongs to no option is refused, and so is an empty path.

The arguments are read from left to right, so that a request for help counts if nothing before it is
wrong. What is missing and what contradicts itself is found at the end.
-/

namespace MifirReport.Command

/-- The options with a value. -/
inductive Setting
  | input
  | output
  | outputDirectory
  | clientTable
  | clientMode
  | logLevel
  deriving DecidableEq, Repr

/-- The flags. -/
inductive Flag
  | keepGoing
  | warn
  | noWarn
  deriving DecidableEq, Repr

/-- What an option's name stands for. -/
inductive Meaning
  | setting (setting : Setting)
  | flag (flag : Flag)
  | help
  deriving DecidableEq, Repr

/-- The causes for which arguments are refused. -/
inductive UsageError
  | unknownOption (argument : String)
  | unexpectedValue (argument : String)
  | missingValue (setting : Setting)
  | emptyPath (setting : Setting)
  | repeatedSetting (setting : Setting)
  | repeatedFlag (flag : Flag)
  | noInput
  | noTarget
  | twoTargets
  | warnAndNoWarn
  deriving DecidableEq, Repr

/-- The arguments of a conversion. -/
structure Arguments where
  inputs : List String := []
  output : Option String := none
  outputDirectory : Option String := none
  clientTable : Option String := none
  clientMode : Option String := none
  logLevel : Option String := none
  keepGoing : Bool := false
  warn : Bool := false
  noWarn : Bool := false
  deriving DecidableEq, Repr

/-- What is asked for. -/
inductive Request
  | help
  | convert (arguments : Arguments)
  deriving DecidableEq, Repr

/-! ## Names -/

/-- What the name of a long option stands for. -/
def longMeaning? (name : String) : Option Meaning :=
  [("input", .setting .input), ("output", .setting .output),
    ("output-dir", .setting .outputDirectory), ("client-config", .setting .clientTable),
    ("client-mode", .setting .clientMode), ("log-level", .setting .logLevel),
    ("keep-going", .flag .keepGoing), ("warn", .flag .warn), ("no-warn", .flag .noWarn),
    ("help", .help)].lookup name

/-- What the letter of a short option stands for. -/
def shortMeaning? : Char → Option Meaning
  | 'i' => some (.setting .input)
  | 'o' => some (.setting .output)
  | 'h' => some .help
  | _ => none

/-- Whether the value of an option is a path. -/
def Setting.isPath : Setting → Bool
  | .input | .output | .outputDirectory | .clientTable => true
  | .clientMode | .logLevel => false

/-! ## Reading arguments -/

namespace Arguments

/-- Sets an option that may be given once. -/
def setOnce (setting : Setting) (value : String) :
    Option String → Except UsageError (Option String)
  | none => .ok (some value)
  | some _ => .error (.repeatedSetting setting)

/-- Gives an option one value. -/
def addValue (arguments : Arguments) (setting : Setting) (value : String) :
    Except UsageError Arguments :=
  if setting.isPath ∧ value = "" then .error (.emptyPath setting)
  else
    match setting with
    | .input => .ok { arguments with inputs := arguments.inputs ++ [value] }
    | .output =>
      (setOnce setting value arguments.output).map fun v => { arguments with output := v }
    | .outputDirectory =>
      (setOnce setting value arguments.outputDirectory).map fun v =>
        { arguments with outputDirectory := v }
    | .clientTable =>
      (setOnce setting value arguments.clientTable).map fun v => { arguments with clientTable := v }
    | .clientMode =>
      (setOnce setting value arguments.clientMode).map fun v => { arguments with clientMode := v }
    | .logLevel =>
      (setOnce setting value arguments.logLevel).map fun v => { arguments with logLevel := v }

/-- Sets a flag. -/
def setFlag (arguments : Arguments) (flag : Flag) : Except UsageError Arguments :=
  match flag with
  | .keepGoing =>
    if arguments.keepGoing then .error (.repeatedFlag flag)
    else .ok { arguments with keepGoing := true }
  | .warn =>
    if arguments.warn then .error (.repeatedFlag flag) else .ok { arguments with warn := true }
  | .noWarn =>
    if arguments.noWarn then .error (.repeatedFlag flag) else .ok { arguments with noWarn := true }

/-- Checks that nothing is missing and nothing contradicts itself. -/
def check (arguments : Arguments) : Except UsageError Arguments :=
  if arguments.inputs.isEmpty then .error .noInput
  else if arguments.output.isSome ∧ arguments.outputDirectory.isSome then .error .twoTargets
  else if arguments.output.isNone ∧ arguments.outputDirectory.isNone then .error .noTarget
  else if arguments.warn ∧ arguments.noWarn then .error .warnAndNoWarn
  else .ok arguments

end Arguments

/-- An option whose values may still come, and whether it has one. -/
structure Waiting where
  setting : Setting
  hasValue : Bool
  deriving DecidableEq, Repr

/-- Leaves an option, which must have a value by now. -/
def leave : Option Waiting → Except UsageError Unit
  | some ⟨setting, false⟩ => .error (.missingValue setting)
  | _ => .ok ()

/-- An argument by its form: the mark after which all are values, a long option with the value after
its equals sign, a short option with what follows its letter, or a value. -/
inductive Form
  | mark
  | long (name : String) (value : Option String)
  | short (letter : Char) (rest : List Char)
  | value
  deriving DecidableEq, Repr

/-- The form of an argument. -/
def formOf (argument : String) : Form :=
  match argument.toList with
  | ['-', '-'] => .mark
  | '-' :: '-' :: cs =>
    .long (String.ofList (cs.takeWhile (· ≠ '=')))
      (match cs.dropWhile (· ≠ '=') with
        | [] => none
        | _ :: value => some (String.ofList value))
  | '-' :: c :: cs => .short c cs
  | _ => .value

/-- The value in what follows the letter of a short option, if anything does. -/
def attachedValue? : List Char → Option String
  | [] => none
  | '=' :: value => some (String.ofList value)
  | value => some (String.ofList value)

/-- Reads the arguments that are left. -/
def readFrom (arguments : Arguments) (waiting : Option Waiting) :
    List String → Except UsageError Request
  | [] => do
    leave waiting
    .convert <$> arguments.check
  | argument :: rest =>
    let takeOption (meaning : Option Meaning) (value : Option String) :=
      match meaning, value with
      | none, _ => .error (.unknownOption argument)
      | some (.setting setting), some value => do
        leave waiting
        readFrom (← arguments.addValue setting value) none rest
      | some (.setting setting), none => do
        leave waiting
        readFrom arguments (some ⟨setting, false⟩) rest
      | some (.flag flag), none => do
        leave waiting
        readFrom (← arguments.setFlag flag) none rest
      | some (.flag _), some _ => .error (.unexpectedValue argument)
      | some .help, none => do
        leave waiting
        return .help
      | some .help, some _ => .error (.unexpectedValue argument)
    match formOf argument with
    | .mark =>
      match rest with
      | [] => do
        leave waiting
        .convert <$> arguments.check
      | value :: _ => .error (.unexpectedValue value)
    | .long name value => takeOption (longMeaning? name) value
    | .short letter cs =>
      takeOption (shortMeaning? letter) (if letter = 'h' then none else attachedValue? cs)
    | .value =>
      match waiting with
      | none => .error (.unexpectedValue argument)
      | some ⟨setting, _⟩ => do
        readFrom (← arguments.addValue setting argument)
          (if setting = .input then some ⟨setting, true⟩ else none) rest

/-- Reads the arguments of the command. -/
def readArguments (arguments : List String) : Except UsageError Request :=
  readFrom {} none arguments

/-! ## Wording -/

/-- The name of an option. -/
def Setting.name : Setting → String
  | .input => "--input"
  | .output => "--output"
  | .outputDirectory => "--output-dir"
  | .clientTable => "--client-config"
  | .clientMode => "--client-mode"
  | .logLevel => "--log-level"

/-- The name of a flag. -/
def Flag.name : Flag → String
  | .keepGoing => "--keep-going"
  | .warn => "--warn"
  | .noWarn => "--no-warn"

/-- The wording of a usage error. -/
def UsageError.message : UsageError → String
  | unknownOption argument => "unknown option " ++ argument
  | unexpectedValue argument => "unexpected value " ++ argument
  | missingValue setting => setting.name ++ " needs a value"
  | emptyPath setting => setting.name ++ " needs a path"
  | repeatedSetting setting => setting.name ++ " may be given once"
  | repeatedFlag flag => flag.name ++ " may be given once"
  | noInput => "--input is missing"
  | noTarget => "--output or --output-dir is missing"
  | twoTargets => "--output and --output-dir exclude each other"
  | warnAndNoWarn => "--warn and --no-warn exclude each other"

end MifirReport.Command
