/-
How the program ends: an exit code and what is written to the two outputs. A failure names what was
attempted and then what it was caused by, the causes numbered if there are several. A fault ends the
program where it comes up, with a code of its own.
-/
import PacedChip8.CommandLine.Options

namespace PacedChip8.CommandLine

/-- The end of the program. -/
structure Exit where
  code : Nat
  stdout : String
  stderr : String
  deriving DecidableEq

namespace Exit

/-- Everything went well. -/
def success (stdout : String) : Exit := ⟨0, stdout, ""⟩

/-- The causes of a failure, one a line. -/
def causeLines : List String → String
  | [cause] => "    " ++ cause ++ "\n"
  | causes =>
    String.join (causes.mapIdx fun k cause => "    " ++ Numeral.decimal k ++ ": " ++ cause ++ "\n")

/-- Something that was attempted did not work. -/
def failure (attempt : String) (causes : List String) : Exit :=
  ⟨1, "", "Error: " ++ attempt ++ "\n" ++
    (if causes.isEmpty then "" else "\nCaused by:\n" ++ causeLines causes)⟩

/-- The program has run into a fault, which it does not look after. -/
def stopped (fault : Fault) : Exit := ⟨101, "", fault.message ++ "\n"⟩

/-- How the program is called. -/
def usage : String := "Usage: chip8 [OPTIONS] <ROM>\n"

/-- One option and what it means, the meanings all starting in one column. -/
def optionLine (option meaning : String) : String :=
  String.ofList (option.toList.rightpad 37 ' ') ++ meaning ++ "\n"

/-- What the options mean. -/
def helpText : String :=
  "A cost-paced Chip-8 interpreter\n\n" ++ usage ++ "\n" ++
  "Arguments:\n" ++
  "  <ROM>  Path to the ROM to run\n\n" ++
  "Options:\n" ++
  optionLine "      --scale <SCALE>" "Size multiplier for each pixel [default: 10]" ++
  optionLine "      --frame-budget <FRAME_BUDGET>"
    "Abstract microseconds of instruction cost executed per frame [default: 16666]" ++
  optionLine "      --headless" "Run without a window and print the final frame as text" ++
  optionLine "      --frames <FRAMES>" "Number of frames to run in headless mode [default: 60]" ++
  optionLine "      --seed <SEED>" "Seed the random number generator for reproducible runs" ++
  optionLine "  -h, --help" "Print help" ++
  optionLine "  -V, --version" "Print version"

/-- Where to find more. -/
def tryHelp : String := "\nFor more information, try '--help'.\n"

/-- The end of a program whose arguments give no options. -/
def ofRefusal : Refusal → Exit
  | .version => success "chip8 0.1.0\n"
  | .help => success helpText
  | .misuse => ⟨2, "", "error: invalid arguments\n\n" ++ usage ++ tryHelp⟩

end Exit
end PacedChip8.CommandLine
