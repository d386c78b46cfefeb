import DeadCode.Text

/- The options of a check, read from the words of a command line. An option that takes a value waits
   for it: the value is looked at when the next option is recognised or the words are used up, so a
   word that is not known at all is complained about first. -/
namespace DeadCode

inductive Format where
  | text
  | json
  deriving DecidableEq, Repr, Inhabited

structure Options where
  root : Option String := none
  minLines : Nat := 10
  format : Format := .text
  output : Option String := none
  exclude : List String := []
  verbose : Nat := 0
  quiet : Bool := false
  deriving DecidableEq, Repr, Inhabited

inductive UsageError where
  | unknownArgument
  | invalidValue
  | valueValidation
  | argumentConflict
  | displayHelp
  | tooManyValues
  deriving DecidableEq, Repr, Inhabited

inductive Setting where
  | root
  | minLines
  | format
  | output
  | exclude
  deriving DecidableEq, Repr

namespace Setting

def ofName? : String → Option Setting
  | "root" => some .root
  | "min-lines" => some .minLines
  | "format" => some .format
  | "output" => some .output
  | "exclude" => some .exclude
  | _ => none

end Setting

inductive Flag where
  | verbose
  | quiet
  | help
  deriving DecidableEq, Repr

namespace Flag

def ofName? : String → Option Flag
  | "verbose" => some .verbose
  | "quiet" => some .quiet
  | "help" => some .help
  | _ => none

def ofLetter? : Char → Option Flag
  | 'v' => some .verbose
  | 'q' => some .quiet
  | 'h' => some .help
  | _ => none

end Flag

namespace Options

def countLimit : Nat := 18446744073709551616

def count? (text : String) : Option Nat :=
  let digits := match text.toList with
    | '+' :: rest => rest
    | all => all
  if digits.isEmpty || !digits.all Char.isDigit then none
  else
    let n := digits.foldl (fun n c => 10 * n + (c.toNat - '0'.toNat)) 0
    if n < countLimit then some n else none

def path? (text : String) : Except UsageError String :=
  if text == "" then .error .invalidValue else .ok text

def assign (o : Options) (setting : Setting) (value : String) : Except UsageError Options :=
  match setting with
  | .root => return { o with root := some (← path? value) }
  | .output => return { o with output := some (← path? value) }
  | .minLines =>
    match count? value with
    | some n => .ok { o with minLines := n }
    | none => .error .valueValidation
  | .format =>
    if value == "text" then .ok { o with format := .text }
    else if value == "json" then .ok { o with format := .json }
    else .error .invalidValue
  | .exclude => .ok { o with exclude := o.exclude ++ [value] }

def verboseLimit : Nat := 255

end Options

/-- Options that are being read: those given so far, and the setting that waits, perhaps with the
    word that may be its value. -/
structure OptionReader where
  options : Options := {}
  given : List Setting := []
  waiting : Option (Setting × Option String) := none
  deriving DecidableEq, Repr

namespace OptionReader

/-- Only names of directories to exclude may be given more than once. -/
def give (r : OptionReader) (setting : Setting) (value : String) : Except UsageError OptionReader :=
  if setting != .exclude && r.given.contains setting then .error .argumentConflict
  else do
    let options ← r.options.assign setting value
    return { options, given := setting :: r.given }

def settle (r : OptionReader) : Except UsageError OptionReader :=
  match r.waiting with
  | none => .ok r
  | some (_, none) => .error .invalidValue
  | some (setting, some value) => r.give setting value

def raise (r : OptionReader) (flag : Flag) : Except UsageError OptionReader := do
  let r ← r.settle
  match flag with
  | .help => .error .displayHelp
  | .verbose =>
    return { r with options.verbose := min Options.verboseLimit (r.options.verbose + 1) }
  | .quiet =>
    if r.options.quiet then .error .argumentConflict
    else return { r with options.quiet := true }

def plain (r : OptionReader) (word : String) : Except UsageError OptionReader :=
  match r.waiting with
  | some (setting, none) => .ok { r with waiting := some (setting, some word) }
  | _ => .error .unknownArgument

def long (r : OptionReader) (name : String) (value : Option String) :
    Except UsageError OptionReader :=
  match Setting.ofName? name, Flag.ofName? name with
  | some setting, _ => do
    let r ← r.settle
    match value with
    | some value => r.give setting value
    | none => return { r with waiting := some (setting, none) }
  | none, some flag => if value.isSome then .error .tooManyValues else r.raise flag
  | none, none => .error .unknownArgument

def short (r : OptionReader) : List Char → Except UsageError OptionReader
  | [] => .ok r
  | c :: rest =>
    match Flag.ofLetter? c with
    | some flag => do short (← r.raise flag) rest
    | none => .error .unknownArgument

def splitValue (text : List Char) : String × Option String :=
  let name := text.takeWhile (· != '=')
  (String.ofList name,
    match text.drop name.length with
    | [] => none
    | _ :: value => some (String.ofList value))

/-- Two dashes alone end the options; what follows can only be values that nobody takes. -/
def read (r : OptionReader) : List String → Except UsageError OptionReader
  | [] => r.settle
  | word :: rest =>
    match word.toList with
    | ['-', '-'] => if rest.isEmpty then r.settle else .error .unknownArgument
    | '-' :: '-' :: '=' :: _ => do read (← r.plain word) rest
    | '-' :: '-' :: text => do
      let (name, value) := splitValue text
      read (← r.long name value) rest
    | '-' :: c :: letters => do read (← r.short (c :: letters)) rest
    | _ => do read (← r.plain word) rest

end OptionReader

namespace Options

def ofWords (words : List String) : Except UsageError Options :=
  (OptionReader.read {} words).map (·.options)

def logLevel (o : Options) : String :=
  if o.quiet then "error"
  else match o.verbose with
    | 0 => "warn"
    | 1 => "info"
    | 2 => "debug"
    | _ => "trace"

end Options
end DeadCode
