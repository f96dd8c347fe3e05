import NamedSchemas.Document.Bodies
import NamedSchemas.Storage.Path
import NamedSchemas.Text.Digits
import NamedSchemas.Text.Quoted
/-!
# Arguments

What the arguments of the command line ask for. Options may be shortened as long as they stay
unambiguous, values may be attached to them, and after a double hyphen nothing is an option.
-/

namespace NamedSchemas.CommandLine

inductive Flag where
  | help
  | entrypoint
  | output
  | format
  | noPretty
  | mediaType
  | noSchemaIds
  | noShorten
  | verbose
  deriving DecidableEq

namespace Flag

def all : List Flag :=
  [help, entrypoint, output, format, noPretty, mediaType, noSchemaIds, noShorten, verbose]

/-- How an option is written, its short form first. -/
def spellings : Flag → List String
  | help => ["-h", "--help"]
  | entrypoint => ["--entrypoint"]
  | output => ["-o", "--output"]
  | format => ["--format"]
  | noPretty => ["--no-pretty"]
  | mediaType => ["--media-type"]
  | noSchemaIds => ["--no-schema-ids"]
  | noShorten => ["--no-shorten"]
  | verbose => ["--verbose"]

def takesValue : Flag → Bool
  | entrypoint => true
  | output => true
  | format => true
  | mediaType => true
  | _ => false

def table : List (Text × Flag) :=
  all.flatMap fun flag => flag.spellings.map fun s => (Text.ofString s, flag)

def ofSpelling (t : Text) : Option Flag := table.lookup t

def name (flag : Flag) : Text := Text.join "/" (flag.spellings.map Text.ofString)

end Flag

inductive UsageFault where
  | ambiguous (argument : Text) (matching : List Text)
  | expectedValue (flag : Flag)
  | ignoredValue (flag : Flag) (value : Text)
  | invalidFormat (value : Text)
  | unrecognized (arguments : List Text)
  deriving DecidableEq

def UsageFault.message : UsageFault → Text
  | .ambiguous argument matching =>
    Text.ofString "ambiguous option: " ++ argument ++ Text.ofString " could match " ++
      Text.join ", " matching
  | .expectedValue flag =>
    Text.ofString "argument " ++ flag.name ++ Text.ofString ": expected one argument"
  | .ignoredValue flag value =>
    Text.ofString "argument " ++ flag.name ++ Text.ofString ": ignored explicit argument " ++
      value.quoted
  | .invalidFormat value =>
    Text.ofString "argument " ++ Flag.format.name ++ Text.ofString ": invalid choice: " ++
      value.quoted ++ Text.ofString " (choose from 'json', 'yaml')"
  | .unrecognized arguments =>
    Text.ofString "unrecognized arguments: " ++ Text.join " " arguments

inductive Argument where
  /-- No option. -/
  | plain (t : Text)
  /-- The double hyphen that ends the options. -/
  | separator
  /-- An option, perhaps with a value attached to it. -/
  | option (flag : Flag) (short : Bool) (attached : Option Text)
  /-- It looks like an option and is none. -/
  | unknown (t : Text)

/-- Cuts a text at its first equals sign. -/
def cutEquals (t : Text) : Text × Option Text :=
  let before := t.takeWhile fun p => p ≠ CodePoint.ofChar '='
  match t.drop before.length with
  | [] => (before, none)
  | _ :: value => (before, some value)

def isDigits (t : Text) : Bool := !t.isEmpty && t.all CodePoint.isDecimalDigit

/-- Is the text a negative number: a hyphen and digits, or a hyphen and a fraction? A line feed may
end it. -/
def isNegativeNumber (t : Text) : Bool :=
  match t with
  | [] => false
  | sign :: rest =>
    let rest := if Text.endsWith "\n" rest then rest.dropLast else rest
    sign = '-' && (isDigits rest ||
      match rest.dropWhile CodePoint.isDecimalDigit with
      | [] => false
      | point :: fraction => point = '.' && isDigits fraction)

/-- The options that an argument with one hyphen or two may stand for, each as it is written in
full. -/
def readings (t : Text) : List (Text × Argument) :=
  if Text.startsWith "--" t then
    let (name, value) := cutEquals t
    (Flag.table.filter fun entry => Text.startsWith name entry.1).map fun entry =>
      (entry.1, .option entry.2 false value)
  else
    (Flag.table.filter fun entry => entry.1 = t.take 2).map fun entry =>
      (entry.1, .option entry.2 true (some (t.drop 2)))

/-- What an argument in front of the double hyphen is. -/
def classifyOne (t : Text) : Except UsageFault Argument :=
  let isShort (spelling : Text) : Bool := !Text.startsWith "--" spelling
  if !Text.startsWith "-" t || t.length = 1 then .ok (.plain t)
  else match Flag.ofSpelling t with
    | some flag => .ok (.option flag (isShort t) none)
    | none =>
      match cutEquals t with
      | (name, some value) =>
        match Flag.ofSpelling name with
        | some flag => .ok (.option flag (isShort name) (some value))
        | none => unspelled t
      | _ => unspelled t
where
  /-- An argument that is not the full spelling of an option. -/
  unspelled (t : Text) : Except UsageFault Argument :=
    match readings t with
    | [(_, argument)] => .ok argument
    | [] =>
      if isNegativeNumber t || CodePoint.ofChar ' ' ∈ t then .ok (.plain t) else .ok (.unknown t)
    | several => .error (.ambiguous t (several.map Prod.fst))

def classify : List Text → Except UsageFault (List Argument)
  | [] => .ok []
  | t :: rest =>
    if t = Text.ofString "--" then .ok (.separator :: rest.map .plain)
    else do
      let argument ← classifyOne t
      pure (argument :: (← classify rest))

structure Request where
  /-- The value of the option for the document to read. -/
  entrypoint : Option Text
  /-- The argument that is no option. -/
  positional : Option Text
  output : Option Text
  format : Option Format
  pretty : Bool
  mediaType : Text
  assignIds : Bool
  shortenNames : Bool
  verbose : Bool

def Request.usual : Request := ⟨none, none, none, none, true, jsonMediaType, true, true, false⟩

inductive Command where
  | help
  | run (request : Request)

def formatOf? (t : Text) : Option Format :=
  [Format.json, Format.yaml].find? fun format => format.name = t

/-- The value that an option ends up with: a double hyphen is taken out and leaves nothing. -/
def ownValue (value : Text) : Option Text := if value = Text.ofString "--" then none else some value

/-- How nothing reads where a media type is expected. -/
def emptyMediaType : Text := "[]"

/-- Takes the value of an option into a request; a later value replaces an earlier one. -/
def Request.take (r : Request) (flag : Flag) (value : Text) : Except UsageFault Request :=
  match flag, ownValue value with
  | .entrypoint, value => .ok { r with entrypoint := value }
  | .output, value => .ok { r with output := value }
  | .mediaType, value => .ok { r with mediaType := value.getD emptyMediaType }
  | .format, none => .ok { r with format := none }
  | .format, some value =>
    match formatOf? value with
    | some format => .ok { r with format := some format }
    | none => .error (.invalidFormat value)
  | _, _ => .ok r

def Request.switch (r : Request) : Flag → Request
  | .noPretty => { r with pretty := false }
  | .noSchemaIds => { r with assignIds := false }
  | .noShorten => { r with shortenNames := false }
  | .verbose => { r with verbose := true }
  | _ => r

def valueNext : List Argument → Bool
  | .plain _ :: _ => true
  | _ => false

/-- Checks short options that are run together after the one for help; none of them takes effect,
because help comes first. -/
def checkCluster (rest : List Argument) : Text → Except UsageFault Unit
  | [] => .ok ()
  | letter :: more =>
    match Flag.ofSpelling [CodePoint.ofChar '-', letter] with
    | some .help => checkCluster rest more
    | some flag =>
      if more.isEmpty && !valueNext rest then .error (.expectedValue flag) else .ok ()
    | none => .error (.ignoredValue .help (letter :: more))

/-- Checks what is attached to an option that takes no value. -/
def checkSwitch (flag : Flag) (short : Bool) (attached : Option Text) (rest : List Argument) :
    Except UsageFault Unit :=
  match attached with
  | none => .ok ()
  | some value =>
    if !short || value.isEmpty then .error (.ignoredValue flag value) else checkCluster rest value

def finish (extras : List Text) (r : Request) : Except UsageFault Command :=
  if extras.isEmpty then .ok (.run r) else .error (.unrecognized extras)

/-- Takes one argument after the other into a request. `awaiting` tells whether the one argument
that is no option is still to come; `extras` are the arguments left over so far. -/
def collect (awaiting : Bool) (extras : List Text) (r : Request) :
    List Argument → Except UsageFault Command
  | [] => finish extras r
  | .plain t :: rest =>
    if !awaiting then collect false (extras ++ [t]) r rest
    else match rest with
      | .separator :: rest => collect false extras { r with positional := some t } rest
      | rest => collect false extras { r with positional := some t } rest
  | .separator :: rest =>
    if !awaiting then collect false (extras ++ [Text.ofString "--"]) r rest
    else match rest with
      | .plain t :: rest => collect false extras { r with positional := some t } rest
      | rest => collect false extras r rest
  | .unknown t :: rest => collect awaiting (extras ++ [t]) r rest
  | .option flag short attached :: rest =>
    if flag.takesValue then
      match attached, rest with
      | some value, rest => do collect awaiting extras (← r.take flag value) rest
      | none, .plain t :: rest => do collect awaiting extras (← r.take flag t) rest
      | none, _ => .error (.expectedValue flag)
    else do
      checkSwitch flag short attached rest
      if flag = .help then pure .help else collect awaiting extras (r.switch flag) rest

/-- What the arguments ask for. -/
def Command.ofArguments (arguments : List Text) : Except UsageFault Command := do
  collect true [] .usual (← classify arguments)

end NamedSchemas.CommandLine
