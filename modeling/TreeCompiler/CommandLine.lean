import TreeCompiler.Session
import TreeCompiler.Samples
import TreeCompiler.Directory

/-!
The command: how its arguments are read, and what a run leaves behind. Arguments are read from
left to right; the first one that is not known, and a request for the version or for help, end
the reading. What is missing, repeated or not a sample's name is found when all are read.
-/

namespace TreeCompiler.CommandLine

/-- An option that takes a value. -/
inductive Slot where
  | output
  | program
deriving DecidableEq, Repr

def Slot.flag : Slot → String
  | output => "-o"
  | program => "--program"

/-- What is wrong with the arguments. -/
inductive UsageError where
  | unexpected (arg : String)
  | missingValue (option : String)
  | repeated (option : String)
  | notASample (name : String)
deriving DecidableEq, Repr

def UsageError.message : UsageError → String
  | unexpected arg => "unexpected argument '" ++ arg ++ "'"
  | missingValue option => "option '" ++ option ++ "' needs a value"
  | repeated option => "option '" ++ option ++ "' was given more than once"
  | notASample name => "'" ++ name ++ "' is not a sample program"

/-- The options found so far, each as often as it was given. A value that did not follow its
option is `none`. -/
structure Found where
  keepGoing : Nat := 0
  allowRedeclaration : Nat := 0
  output : List (Option String) := []
  program : List (Option String) := []
deriving DecidableEq, Repr

def Found.add (found : Found) (slot : Slot) (value : Option String) : Found :=
  match slot with
  | .output => { found with output := found.output ++ [value] }
  | .program => { found with program := found.program ++ [value] }

/-- Records that an option's value did not come. -/
def Found.waive (found : Found) : Option Slot → Found
  | some slot => found.add slot none
  | none => found

structure BuildRequest where
  output : String
  sample : Sample
  options : Options
deriving DecidableEq, Repr

inductive Request where
  | version
  | help
  | build (b : BuildRequest)
deriving DecidableEq, Repr

/-- What one argument comes to. -/
inductive Step where
  | found (f : Found)
  | awaiting (f : Found) (slot : Slot)
  | version
  | help
  | unexpected
deriving DecidableEq, Repr

/-- Reads the letters of a bundle of short options. A letter that takes a value takes the rest
of the bundle, less a leading equals sign, or else the next argument. -/
def readShort (found : Found) : List Char → Step
  | [] => .found found
  | 'k' :: rest => readShort { found with keepGoing := found.keepGoing + 1 } rest
  | 'V' :: _ => .version
  | 'h' :: _ => .help
  | 'o' :: [] => .awaiting found .output
  | 'o' :: '=' :: value => .found (found.add .output (some (String.ofList value)))
  | 'o' :: value => .found (found.add .output (some (String.ofList value)))
  | _ => .unexpected

/-- Reads the text after two dashes: a name, perhaps with a value behind an equals sign. -/
def readLong (found : Found) (text : List Char) : Step :=
  match String.ofList (text.takeWhile (· ≠ '=')), text.dropWhile (· ≠ '=') with
  | "keep-going", [] => .found { found with keepGoing := found.keepGoing + 1 }
  | "allow-redeclaration", [] =>
    .found { found with allowRedeclaration := found.allowRedeclaration + 1 }
  | "program", [] => .awaiting found .program
  | "program", _ :: value => .found (found.add .program (some (String.ofList value)))
  | "version", [] => .version
  | "help", [] => .help
  | _, _ => .unexpected

/-- Whether an argument has the form of an option. A single dash is a value. -/
def isOption (arg : String) : Bool :=
  match arg.toList with
  | '-' :: _ :: _ => true
  | _ => false

def readOption (found : Found) (arg : String) : Step :=
  match arg.toList with
  | '-' :: '-' :: text => readLong found text
  | '-' :: letters => readShort found letters
  | _ => .unexpected

def single (option : String) : List (Option String) → Except UsageError (Option String)
  | [] => .ok none
  | [some value] => .ok (some value)
  | [none] => .error (.missingValue option)
  | _ => .error (.repeated option)

def flag (option : String) : Nat → Except UsageError Bool
  | 0 => .ok false
  | 1 => .ok true
  | _ => .error (.repeated option)

/-- The build that the options ask for: by default the first sample, to the standard output. -/
def Found.request (found : Found) : Except UsageError Request := do
  let output ← single Slot.output.flag found.output
  let name ← single Slot.program.flag found.program
  let keepGoing ← flag "--keep-going" found.keepGoing
  let allowRedeclaration ← flag "--allow-redeclaration" found.allowRedeclaration
  let name := name.getD Sample.sum.name
  match Sample.ofName? name with
  | none => .error (.notASample name)
  | some sample => return .build ⟨output.getD "-", sample, ⟨keepGoing, allowRedeclaration⟩⟩

/-- Reads arguments; the slot is that of an option before them which still waits for its value.
A double dash ends the options, and nothing may follow it. -/
def readArgs (found : Found) : Option Slot → List String → Except UsageError Request
  | slot, [] => (found.waive slot).request
  | slot, arg :: rest =>
    if arg == "--" then
      match rest with
      | [] => (found.waive slot).request
      | next :: _ => .error (.unexpected next)
    else if isOption arg then
      match readOption (found.waive slot) arg with
      | .found f => readArgs f none rest
      | .awaiting f slot => readArgs f (some slot) rest
      | .version => .ok .version
      | .help => .ok .help
      | .unexpected => .error (.unexpected arg)
    else
      match slot with
      | some slot => readArgs (found.add slot (some arg)) none rest
      | none => .error (.unexpected arg)

def parse (args : List String) : Except UsageError Request := readArgs {} none args

def versionText : String := "minicc 0.1.0\n"

def helpText : String := versionText ++
  "Compiles a built-in program to x86-64 NASM assembly\n\n" ++
  "USAGE:\n    minicc [OPTIONS]\n\n" ++
  "OPTIONS:\n" ++
  "        --allow-redeclaration    Accept two declarations of the same name in one scope\n" ++
  "    -h, --help                   Print help information\n" ++
  "    -k, --keep-going             Report every semantic error instead of " ++
  "stopping at the first one\n" ++
  "    -o <FILE>                    Output file ('-' for stdout) [default: -]\n" ++
  "        --program <NAME>         Built-in program to compile [default: sum] " ++
  "[possible values: sum,\n" ++
  "                                 fibonacci, classify]\n" ++
  "    -V, --version                Print version information\n"

/-- What a build writes, what it complains about, and its exit status. -/
structure Built where
  output : ByteArray
  complaint : String := ""
  status : UInt32 := 0

def build (b : BuildRequest) : Built :=
  match ({ options := b.options } : Session).compile none b.sample.program with
  | .ok c =>
    match c.error with
    | none => { output := c.output }
    | some (.semantic errors) =>
      let noun := if errors.length = 1 then "error" else "errors"
      { output := c.output
        complaint := Diagnostic.listing errors ++
          "Build failed with " ++ toString errors.length ++ " " ++ noun ++ "\n"
        status := 1 }
    | some (.codegen e) =>
      { output := c.output
        complaint := "Error: Failed to generate code: " ++ e.message ++ "\n"
        status := 1 }
  | .error d =>
    { output := ByteArray.empty
      complaint := "Error: no symbol with id " ++ toString d.id ++ "\n"
      status := 1 }

def openFailure (path cause : String) : String :=
  "Error: Failed to open for writing: " ++ path ++ "\n\nCaused by:\n    " ++ cause ++ "\n"

def usageStatus : UInt32 := 2

/-- What a run leaves behind. -/
structure Report where
  status : UInt32 := 0
  stdout : ByteArray := ByteArray.empty
  stderr : String := ""
  files : List (String × ByteArray) := []

/-- A run of the command, where `create` gives the file that is left where a path leads, if it
is to be seen, or why it cannot be made. -/
def run (create : String → Except String (Option String)) (args : List String) : Report :=
  match parse args with
  | .error e => { status := usageStatus, stderr := "error: " ++ e.message ++ "\n" }
  | .ok .version => { stdout := versionText.toUTF8 }
  | .ok .help => { stdout := helpText.toUTF8 }
  | .ok (.build b) =>
    if b.output == "-" then
      let built := build b
      { status := built.status, stdout := built.output, stderr := built.complaint }
    else
      match create b.output with
      | .error cause => { status := 1, stderr := openFailure b.output cause }
      | .ok file =>
        let built := build b
        { status := built.status
          stderr := built.complaint
          files := file.toList.map (·, built.output) }

/-- A run in an empty directory. -/
def runInEmptyDirectory (args : List String) : Report :=
  run (fun path => (Directory.create path).mapError (·.message)) args

end TreeCompiler.CommandLine
