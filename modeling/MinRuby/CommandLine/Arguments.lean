import MinRuby.Text.DecimalDigit

/-!
# Command line arguments

Options come before the first positional argument. That one names the script, and everything behind it
is left to the program, options included. Long options may be cut short, short ones may stand
together in one argument, and the value of an option may be attached to it. An argument that looks like
a negative number or holds a blank is no option unless it starts with one.

* `Arguments.parse` — what the arguments ask for.
-/

namespace MinRuby

/-- The options. -/
inductive Flag where
  | help | code | interactive | parse | debug | version
deriving DecidableEq, Repr

/-- The options of one letter. -/
def shortFlags : List (Char × Flag) := [('h', .help), ('e', .code), ('i', .interactive)]

/-- The options with a name. -/
def longFlags : List (String × Flag) :=
  [("--help", .help), ("--interactive", .interactive), ("--parse", .parse), ("--debug", .debug),
    ("--version", .version)]

/-- Why a command line is not understood. -/
inductive UsageError where
  | needsValue (flag : Flag)
  | takesNoValue (flag : Flag)
  | ambiguous (argument : String)
  | unrecognized (arguments : List String)
deriving DecidableEq, Repr

/-- What a command line says about a run. -/
structure Options where
  script : Option String := none
  /-- What follows the script. -/
  args : List String := []
  code : Option String := none
  interactive : Bool := false
  parse : Bool := false
  debug : Bool := false
deriving DecidableEq, Repr

/-- What a command line asks for. -/
inductive Request where
  | help
  | version
  | start (options : Options)
deriving DecidableEq, Repr

/-- The part that an argument plays before the first positional one. -/
inductive Role where
  | positional
  /-- The mark behind which all arguments are positional. -/
  | mark
  /-- Options without value, and a last one with the value that is attached to it. -/
  | flags (plain : List Flag) (last : Flag) (value : Option String)
  | invalid (error : UsageError)
  | unknown
deriving DecidableEq, Repr

namespace Arguments

/-- Whether a text is a minus sign, digits, and perhaps a fraction. -/
def isNegativeNumber (text : List Char) : Bool :=
  match text with
  | '-' :: rest =>
    let whole := rest.takeWhile Text.isDecimalDigit
    match rest.drop whole.length with
    | [] => !whole.isEmpty
    | '.' :: fraction => !fraction.isEmpty && fraction.all Text.isDecimalDigit
    | _ => false
  | _ => false

/-- The role of an option with an attached value. -/
def withValue (plain : List Flag) (flag : Flag) (value : String) : Role :=
  if flag = .code then .flags plain flag (some value) else .invalid (.takesNoValue flag)

/-- The role of the letters of short options, the first of which is known. -/
def shortRole (plain : List Flag) (flag : Flag) : List Char → Role
  | [] => .flags plain flag none
  | '=' :: value => withValue plain flag (String.ofList value)
  | c :: rest =>
    if flag = .code then .flags plain flag (some (String.ofList (c :: rest)))
    else
      match shortFlags.lookup c with
      | some next => shortRole (plain ++ [flag]) next rest
      | none => .invalid (.takesNoValue flag)

/-- The role of an argument that starts with two minus signs. -/
def longRole (argument : String) : Role :=
  let chars := argument.toList
  let name := String.ofList (chars.takeWhile (· ≠ '='))
  let value := chars.drop (name.length + 1)
  let attached := chars.contains '='
  let role (flag : Flag) : Role :=
    if attached then withValue [] flag (String.ofList value) else .flags [] flag none
  match longFlags.lookup name with
  | some flag => role flag
  | none =>
    match longFlags.filter fun f => f.1.startsWith name with
    | [f] => role f.2
    | [] => if chars.contains ' ' then .positional else .unknown
    | _ => .invalid (.ambiguous argument)

/-- The role of an argument. -/
def roleOf (argument : String) : Role :=
  if argument = "--" then .mark
  else
    match argument.toList with
    | '-' :: '-' :: _ => longRole argument
    | '-' :: c :: rest =>
      match shortFlags.lookup c with
      | some flag => shortRole [] flag rest
      | none =>
        if isNegativeNumber argument.toList || argument.toList.contains ' ' then .positional
        else .unknown
    | _ => .positional

/-- Takes note of an option; asking for help or the version ends it. -/
def note (options : Options) : Flag → Option String → Except Request Options
  | .help, _ => .error .help
  | .version, _ => .error .version
  | .code, value => .ok { options with code := value }
  | .interactive, _ => .ok { options with interactive := true }
  | .parse, _ => .ok { options with parse := true }
  | .debug, _ => .ok { options with debug := true }

/-- Takes note of options, the last of which may have a value. -/
def noteAll (options : Options) (plain : List Flag) (last : Flag) (value : Option String) :
    Except Request Options := do
  let options ← plain.foldlM (fun o f => note o f none) options
  note options last value

/-- The script and the arguments for the program. A mark right behind the script is dropped. -/
def positionals (options : Options) (script : String) (rest : List String) : Options :=
  { options with
    script := some script
    args := if rest.head? = some "--" then rest.tail else rest }

/-- The request when all arguments have been read. -/
def finish (options : Options) (unknown : List String) : Except UsageError Request :=
  if unknown.isEmpty then .ok (.start options) else .error (.unrecognized unknown)

/-- What the remaining arguments ask for. -/
def parseFrom (options : Options) (unknown : List String) : List String → Except UsageError Request
  | [] => finish options unknown
  | argument :: rest =>
    match roleOf argument with
    | .positional => finish (positionals options argument rest) unknown
    | .mark =>
      match rest with
      | [] => finish options unknown
      | script :: args => finish { options with script := some script, args } unknown
    | .invalid e => .error e
    | .unknown => parseFrom options (unknown ++ [argument]) rest
    | .flags plain .code none =>
      match rest with
      | value :: rest =>
        if roleOf value = .positional then
          match noteAll options plain .code (some value) with
          | .ok options => parseFrom options unknown rest
          | .error request => .ok request
        else .error (.needsValue .code)
      | [] => .error (.needsValue .code)
    | .flags plain last value =>
      match noteAll options plain last value with
      | .ok options => parseFrom options unknown rest
      | .error request => .ok request

/-- What the arguments ask for. With code given all positional arguments are for the program. -/
def parse (args : List String) : Except UsageError Request :=
  parseFrom {} [] args

end Arguments

end MinRuby
