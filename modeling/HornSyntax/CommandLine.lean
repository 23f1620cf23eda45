import HornSyntax.Directory
import HornSyntax.Staging

/-!
The command line: what the arguments ask for and what a run does. A run checks
a directory and either prints the report or writes it. Arguments are read from
left to right, and the first that asks for help or the version, or that is
wrong, decides. What a run does is said once for every host that it can run on;
one of them is a tree of files.
-/

namespace HornSyntax

/-- How to check, with the defaults for what the arguments leave open. -/
structure Options where
  dir : Text
  output : Text
  toStdout : Bool
  verbosity : Nat
  deriving DecidableEq

/-- The entries of a log that the verbosity asks for. -/
def Options.shown (options : Options) (log : List LogEntry) : List LogEntry :=
  log.filter (·.level.shownAt options.verbosity)

/-- What the arguments ask for. -/
inductive Request where
  | check (options : Options)
  | help
  | version
  | refused
  deriving DecidableEq

namespace CommandLine

/-- How the next argument is to be taken: as an option or the directory, as
the value of the option before it, or, after a double dash, as the directory. -/
inductive Expecting where
  | anything
  | value
  | directory
  deriving DecidableEq

/-- The options read so far. -/
structure Draft where
  dir : Option Text
  output : Option Text
  toStdout : Bool
  verbosity : Nat
  expecting : Expecting

def Draft.initial : Draft := ⟨none, none, false, 0, .anything⟩

/-- Reading an argument either goes on or settles the request. -/
abbrev Reading := Except Request Draft

namespace Draft

/-- One directory may be named, and its name is not empty. -/
def setDir (d : Draft) (value : Text) : Reading :=
  if value = [] || d.dir.isSome then .error .refused
  else .ok { d with dir := some value }

/-- One output may be named, and its name is not empty. -/
def setOutput (d : Draft) (value : Text) : Reading :=
  if value = [] || d.output.isSome then .error .refused
  else .ok { d with output := some value, expecting := .anything }

def setStdout (d : Draft) : Reading :=
  if d.toStdout then .error .refused else .ok { d with toStdout := true }

def addVerbosity (d : Draft) : Draft := { d with verbosity := d.verbosity + 1 }

/-- An option that is written out, with what follows its first equals sign. -/
def readLong (d : Draft) (name : Text) (value : Option Text) : Reading :=
  match String.ofList name, value with
  | "output", some value => d.setOutput value
  | "output", none => .ok { d with expecting := .value }
  | "stdout", none => d.setStdout
  | "verbose", none => .ok d.addVerbosity
  | "help", none => .error .help
  | "version", none => .error .version
  | _, _ => .error .refused

/-- Options of one letter each. The letters after an output option are its
value, and an equals sign before them is left out. -/
def readLetters (d : Draft) : Text → Reading
  | [] => .ok d
  | 'o' :: [] => .ok { d with expecting := .value }
  | 'o' :: '=' :: value => d.setOutput value
  | 'o' :: value => d.setOutput value
  | 'v' :: rest => d.addVerbosity.readLetters rest
  | 'h' :: _ => .error .help
  | 'V' :: _ => .error .version
  | _ :: _ => .error .refused

/-- A dash with something after it begins an option; a dash alone is a name. -/
def readArgument (d : Draft) (argument : Text) : Reading :=
  match d.expecting, argument with
  | .directory, _ => d.setDir argument
  | .value, '-' :: _ :: _ => .error .refused
  | .value, _ => d.setOutput argument
  | .anything, ['-', '-'] => .ok { d with expecting := .directory }
  | .anything, '-' :: '-' :: long =>
    let value := match long.dropWhile (· != '=') with
      | [] => none
      | _ :: value => some value
    d.readLong (long.takeWhile (· != '=')) value
  | .anything, '-' :: letter :: more => d.readLetters (letter :: more)
  | .anything, _ => d.setDir argument

def options (d : Draft) : Options where
  dir := d.dir.getD ['.']
  output := d.output.getD "output.txt".toList
  toStdout := d.toStdout
  verbosity := d.verbosity

end Draft

/-- What a list of arguments asks for. A value that is still missing at the
end is an error. -/
def request (arguments : List Text) : Request :=
  match arguments.foldlM Draft.readArgument Draft.initial with
  | .error request => request
  | .ok d => if d.expecting = .value then .refused else .check d.options

def helpLines : List String :=
  ["Syntax checker for Prolog-style clause files",
    "",
    "Usage: clause-check [OPTIONS] [DIR]",
    "",
    "Arguments:",
    "  [DIR]  Directory holding 1.txt, 2.txt, ... [default: .]",
    "",
    "Options:",
    "  -o, --output <OUTPUT>  Where to write the aggregate report [default: output.txt]",
    "      --stdout           Print the report instead of writing it",
    "  -v, --verbose...       More logging (-v info, -vv debug, -vvv trace)",
    "  -h, --help             Print help",
    "  -V, --version          Print version"]

def helpText : Text := helpLines.flatMap fun line => line.toList ++ ['\n']

def versionText : Text := "clause-check 0.1.0\n".toList

/-- What a run can do where it runs. -/
structure Host (m : Type → Type) where
  checkDirectory : Text → m (Except Failure Summary)
  replaceFile : Text → Text → m (Except Fault Unit)
  print : Text → m Unit
  fail : Failure → m Unit
  refuse : m Unit
  log : List LogEntry → m Unit

/-- The line on standard error for a failure. -/
def failureLine (failure : Failure) : Text := "error: ".toList ++ failure.message ++ ['\n']

/-- The entry that a checked directory leaves in the log. -/
def checkedEntry (summary : Summary) : LogEntry :=
  ⟨.info, .commandLine, "checked ".toList ++ Text.decimal summary.files ++ " file(s)".toList⟩

section Program

variable {m : Type → Type} [Monad m]

/-- Checks a directory as the options say. Gives the exit code. -/
def check (host : Host m) (options : Options) : m Nat := do
  match ← host.checkDirectory options.dir with
  | .error failure =>
    host.fail failure
    return 1
  | .ok summary =>
    host.log (options.shown (summary.log ++ [checkedEntry summary]))
    if options.toStdout then
      host.print summary.output
      return 0
    else
      match ← host.replaceFile options.output summary.output with
      | .error fault =>
        host.fail (.write options.output fault)
        return 1
      | .ok () =>
        host.log (options.shown [wroteEntry options.output])
        return 0

/-- Runs the program with the given arguments. Gives the exit code. -/
def runOn (host : Host m) (arguments : List Text) : m Nat := do
  match request arguments with
  | .help =>
    host.print helpText
    return 0
  | .version =>
    host.print versionText
    return 0
  | .refused =>
    host.refuse
    return 2
  | .check options => check host options

end Program

/-- What a run leaves behind: an exit code, the text on standard output, the
failure to be reported and the tree. -/
structure Result where
  code : Nat
  stdout : Text
  failure : Option Failure
  tree : FileTree

/-- A tree of files to run on. A new file gets the first of the numbers tried
under which there is none. -/
def onTree (tried : List Nat) : Host (StateM Result) where
  checkDirectory dir := do return (← get).tree.checkDirectory dir
  replaceFile path contents := modifyGet fun r =>
    let (tree, outcome) := r.tree.perform ⟨path, contents, tried⟩
    (outcome, { r with tree := tree })
  print text := modify fun r => { r with stdout := r.stdout ++ text }
  fail failure := modify fun r => { r with failure := some failure }
  refuse := return ()
  log _ := return ()

/-- Runs the program on a tree. -/
def run (arguments : List Text) (tree : FileTree) (tried : List Nat := List.range 1000) : Result :=
  let left := (runOn (onTree tried) arguments).run ⟨0, [], none, tree⟩
  { left.2 with code := left.1 }

end CommandLine

end HornSyntax
