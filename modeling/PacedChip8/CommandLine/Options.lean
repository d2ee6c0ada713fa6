/-
The options of the command line. Arguments are read from left to right and the first that is wrong
ends the reading; so does a request for the version or the help. A setting is given as two arguments
or as one with `=` in it, at most once, and `--` makes everything after it an operand. The one
operand is the path of the program.
-/
import PacedChip8.Machine.Basic
import PacedChip8.Window

namespace PacedChip8.CommandLine

/-- What the command line asks for. -/
structure Options where
  rom : String
  scale : Nat
  config : Config
  headless : Bool
  frames : Nat
  deriving DecidableEq

/-- The frames that are run unless another number is asked for: one second. -/
def standardFrames : Nat := 60

/-- Why the arguments give no options. -/
inductive Refusal where
  /-- The version was asked for. -/
  | version
  /-- The help was asked for. -/
  | help
  /-- An argument is missing, unknown, repeated or wrong. -/
  | misuse
  deriving DecidableEq

/-! ## Numbers -/

/-- A number below `bound` from its digits. -/
def below? (bound : Nat) (digits : List Char) : Option Nat :=
  (Numeral.toNat? digits).filter (· < bound)

/-- A 32-bit number: decimal digits after an optional sign, a minus being good for zero alone. -/
def number32? (text : String) : Option Nat :=
  match text.toList with
  | '+' :: digits => below? 4294967296 digits
  | '-' :: digits => below? 1 digits
  | digits => below? 4294967296 digits

/-- A 64-bit number: decimal digits after an optional plus. -/
def number64? (text : String) : Option UInt64 :=
  match text.toList with
  | '+' :: digits => (below? 18446744073709551616 digits).map UInt64.ofNat
  | digits => (below? 18446744073709551616 digits).map UInt64.ofNat

/-! ## Single arguments -/

/-- The options that have a value. -/
inductive Setting where
  | scale
  | frameBudget
  | frames
  | seed
  deriving DecidableEq

/-- The setting with this name. -/
def Setting.ofName? : String → Option Setting
  | "scale" => some .scale
  | "frame-budget" => some .frameBudget
  | "frames" => some .frames
  | "seed" => some .seed
  | _ => none

/-- What one argument is by itself. -/
inductive Argument where
  | endOfOptions
  | version
  | help
  | headless
  /-- A setting whose value is the next argument. -/
  | setting (s : Setting)
  /-- A setting with its value. -/
  | assigned (s : Setting) (value : String)
  /-- A path, or the value of the setting before it. -/
  | operand (text : String)
  | unknown
  deriving DecidableEq

namespace Argument

/-- What `--name` is. -/
def ofName (name : String) : Argument :=
  match name with
  | "headless" => .headless
  | "version" => .version
  | "help" => .help
  | _ =>
    match Setting.ofName? name with
    | some s => .setting s
    | none => .unknown

/-- What `--name=value` is; only settings take a value. -/
def ofAssignment (name value : String) : Argument :=
  match Setting.ofName? name with
  | some s => .assigned s value
  | none => .unknown

/-- What follows two dashes, cut at the first equals sign if there is one. -/
def ofLong (text : List Char) : Argument :=
  let name := String.ofList (text.takeWhile (· != '='))
  match text.dropWhile (· != '=') with
  | [] => ofName name
  | _ :: value => ofAssignment name (String.ofList value)

/-- What an argument is. A single dash is an operand; of letters after one dash the first decides. -/
def ofString (text : String) : Argument :=
  match text.toList with
  | ['-', '-'] => .endOfOptions
  | '-' :: '-' :: rest => ofLong rest
  | '-' :: 'V' :: _ => .version
  | '-' :: 'h' :: _ => .help
  | '-' :: _ :: _ => .unknown
  | _ => .operand text

end Argument

/-! ## Lists of arguments -/

/-- What the arguments so far have given. -/
structure Given where
  rom : Option String
  scale : Option Nat
  frameBudget : Option Nat
  frames : Option Nat
  seed : Option UInt64
  headless : Bool
  deriving DecidableEq

namespace Given

/-- Nothing yet. -/
def nothing : Given := ⟨none, none, none, none, none, false⟩

/-- Fills a place that has to be empty with a value that has to be readable. -/
def fill {α : Type} (place : Option α) (value : Option α) : Except Refusal (Option α) :=
  match place, value with
  | none, some a => .ok (some a)
  | _, _ => .error .misuse

/-- Notes the value of a setting. -/
def set (g : Given) (s : Setting) (value : String) : Except Refusal Given :=
  match s with
  | .scale => (fill g.scale (number32? value)).map fun a => { g with scale := a }
  | .frameBudget => (fill g.frameBudget (number32? value)).map fun a => { g with frameBudget := a }
  | .frames => (fill g.frames (number32? value)).map fun a => { g with frames := a }
  | .seed => (fill g.seed (number64? value)).map fun a => { g with seed := a }

/-- Notes the path, which must not be empty. -/
def setRom (g : Given) (path : String) : Except Refusal Given :=
  (fill g.rom (if path = "" then none else some path)).map fun a => { g with rom := a }

/-- Notes that no window is wanted. -/
def setHeadless (g : Given) : Except Refusal Given :=
  if g.headless then .error .misuse else .ok { g with headless := true }

/-- Reads arguments that are all operands. -/
def readOperands (g : Given) : List String → Except Refusal Given
  | [] => .ok g
  | path :: rest => (g.setRom path).bind fun g => g.readOperands rest

/-- Reads arguments. -/
def read (g : Given) : List String → Except Refusal Given
  | [] => .ok g
  | arg :: rest =>
    match Argument.ofString arg with
    | .endOfOptions => g.readOperands rest
    | .version => .error .version
    | .help => .error .help
    | .unknown => .error .misuse
    | .headless => g.setHeadless.bind fun g => g.read rest
    | .operand path => (g.setRom path).bind fun g => g.read rest
    | .assigned s value => (g.set s value).bind fun g => g.read rest
    | .setting s =>
      match rest with
      | [] => .error .misuse
      | next :: rest =>
        match Argument.ofString next with
        | .operand value => (g.set s value).bind fun g => g.read rest
        | _ => .error .misuse

/-- The options, with what was not given at its default; a path has to be given. -/
def options (g : Given) : Except Refusal Options :=
  match g.rom with
  | none => .error .misuse
  | some rom => .ok {
      rom := rom
      scale := g.scale.getD Window.defaultScale
      config := { budget := g.frameBudget.getD standardBudget, seed := g.seed }
      headless := g.headless
      frames := g.frames.getD standardFrames }

end Given

/-- The options that arguments ask for. -/
def Options.ofArguments (args : List String) : Except Refusal Options :=
  (Given.nothing.read args).bind Given.options

end PacedChip8.CommandLine
