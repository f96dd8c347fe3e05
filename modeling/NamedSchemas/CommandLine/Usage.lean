import NamedSchemas.CommandLine.Arguments
/-!
# Usage and help

What the command line tells about itself. The usage fills lines of 78 columns and indents further
lines to where the first option stands.
-/

namespace NamedSchemas.CommandLine

def lineWidth : Nat := 78

def usageLead : Text := "usage: "

def valueName : Flag → Text
  | .entrypoint => "ENTRYPOINT"
  | .output => "OUTPUT"
  | .mediaType => "MEDIA_TYPE"
  | .format => "\x7bjson,yaml\x7d"
  | _ => []

/-- An option as the usage shows it: in its short form, with its value. -/
def usagePart (flag : Flag) : Text :=
  Text.ofString "[" ++ Text.ofString (flag.spellings.headD "") ++
    (if flag.takesValue then Text.ofString " " ++ valueName flag else []) ++ Text.ofString "]"

/-- Fills lines with parts. `line` is the line so far, and every further line starts with
`indent`. -/
def fill (indent : Nat) (line : Text) : List Text → List Text
  | [] => [line]
  | part :: rest =>
    if lineWidth < line.length + 1 + part.length then
      line :: fill indent (List.replicate indent (CodePoint.ofChar ' ') ++ part) rest
    else fill indent (line ++ CodePoint.ofChar ' ' :: part) rest

def usage (program : Text) : Text :=
  let lead := usageLead ++ program
  let indent := lead.length + 1
  let options := fill indent lead (Flag.all.map usagePart)
  let positional := List.replicate indent (CodePoint.ofChar ' ') ++ Text.ofString "[entrypoint_pos]"
  (options ++ [positional]).flatMap fun line => line ++ Text.ofString "\n"

/-- What the help says after the usage. -/
def helpLines : List String := [
  "",
  "Extract inline request/response schemas of an OpenAPI document into named",
  "components.",
  "",
  "positional arguments:",
  "  entrypoint_pos        Path to the OpenAPI JSON/YAML file (positional,",
  "                        optional if --entrypoint is provided).",
  "",
  "options:",
  "  -h, --help            show this help message and exit",
  "  --entrypoint ENTRYPOINT",
  "                        Path to the OpenAPI JSON/YAML file.",
  "  -o OUTPUT, --output OUTPUT",
  "                        Write output to this file (default: stdout).",
  "  --format \x7bjson,yaml\x7d  Output format. Defaults to the format of the",
  "                        entrypoint.",
  "  --no-pretty           Emit compact output instead of pretty-printed output.",
  "  --media-type MEDIA_TYPE",
  "                        Content type whose schemas are extracted (default:",
  "                        application/json).",
  "  --no-schema-ids       Do not add a '$id' equal to the component name to each",
  "                        extracted schema.",
  "  --no-shorten          Keep first-seen names for schemas used in several",
  "                        places instead of renaming them after their shallowest",
  "                        usage.",
  "  --verbose             Report every extracted schema and rename on stderr."]

def help (program : Text) : Text :=
  usage program ++ helpLines.flatMap fun line => Text.ofString line ++ Text.ofString "\n"

/-- What is said when arguments are refused. -/
def refusal (program : Text) (fault : UsageFault) : Text :=
  usage program ++ program ++ Text.ofString ": error: " ++ fault.message ++ Text.ofString "\n"

end NamedSchemas.CommandLine
