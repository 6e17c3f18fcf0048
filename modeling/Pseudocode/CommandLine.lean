import Pseudocode.Machine.Execute
import Pseudocode.Program.Parser

/-!
# The command line

    [-v ...] [--tokens | --tree] program

runs a program file, or lists its tokens or its outline.  Each `-v` makes the
trace more detailed.  Options may be joined (`-vv`) or cut short as long as they
stay unambiguous (`--tok`), and everything behind `--` is a file name.
-/

namespace Pseudocode.CommandLine

/-- The options. -/
inductive Flag where
  | help | verbose | tokens | outline
  deriving Repr, DecidableEq

/-- The options by their spellings. -/
def spellings : List (List Char × Flag) :=
  [("-h".toList, .help), ("--help".toList, .help), ("-v".toList, .verbose),
   ("--tokens".toList, .tokens), ("--tree".toList, .outline)]

/-- What an argument is. -/
inductive Argument where
  /-- A file name. -/
  | file (name : String)
  /-- Options. -/
  | flags (flags : List Flag)
  /-- Nothing known. -/
  | unknown
  deriving Repr, DecidableEq

/-- The options joined behind a single dash. -/
def joinedFlags : List Char → Option (List Flag)
  | [] => some []
  | c :: rest => do
    let flag ← spellings.lookup ['-', c]
    return flag :: (← joinedFlags rest)

/-- The options that a dashed argument can stand for, each with the letters that
are joined to it, if it is one of a single dash.  An option of two dashes may be
cut short; what stands behind an equals sign is no part of its name. -/
def candidates (cs : List Char) : List (Flag × Option (List Char)) :=
  match cs with
  | '-' :: '-' :: _ =>
    let name := cs.takeWhile (· ≠ '=')
    spellings.filterMap fun (spelling, flag) =>
      if name.isPrefixOf spelling then some (flag, none) else none
  | _ =>
    spellings.filterMap fun (spelling, flag) =>
      if spelling = cs.take 2 then some (flag, some (cs.drop 2)) else none

/-- Whether an argument reads as a negative number. -/
def isNegativeNumber (cs : List Char) : Bool :=
  match cs with
  | '-' :: digits =>
    let fraction := (digits.dropWhile Text.isDigit).drop 1
    (!digits.isEmpty && digits.all Text.isDigit)
      || ((digits.dropWhile Text.isDigit).head? = some '.'
        && !fraction.isEmpty && fraction.all Text.isDigit)
  | _ => false

/-- What an argument is; nothing if it is refused at once.  No option takes a
value behind an equals sign. -/
def classify (argument : String) : Option Argument :=
  let cs := argument.toList
  if cs.head? ≠ some '-' ∨ cs.length = 1 then some (.file argument)
  else
    match spellings.lookup cs with
    | some flag => some (.flags [flag])
    | none =>
      match candidates cs with
      | [(flag, some letters)] =>
        (joinedFlags letters).map fun flags => .flags (flag :: flags)
      | [(flag, none)] =>
        if cs.contains '=' then none else some (.flags [flag])
      | _ :: _ :: _ => none
      | [] =>
        if isNegativeNumber cs || cs.contains ' ' then some (.file argument)
        else some .unknown

/-- What to show of a program instead of running it. -/
inductive Listing where
  | tokens | outline
  deriving Repr, DecidableEq

/-- What the arguments ask for. -/
structure Options where
  verbosity : Nat := 0
  listing : Option Listing := none
  program : Option String := none
  /-- Whether help is asked for. -/
  help : Bool := false
  /-- Whether something was given that has no meaning. -/
  surplus : Bool := false
  deriving Repr, DecidableEq

namespace Options

/-- Takes in a file name. -/
def addFile (o : Options) (name : String) : Options :=
  if o.program.isNone then { o with program := some name }
  else { o with surplus := true }

/-- Takes in a listing; there can be only one kind. -/
def addListing (o : Options) (listing : Listing) : Option Options :=
  if o.listing = none ∨ o.listing = some listing then
    some { o with listing := some listing }
  else none

/-- Takes in options, up to the first that asks for help. -/
def addFlags (o : Options) : List Flag → Option Options
  | [] => some o
  | .help :: _ => some { o with help := true }
  | .verbose :: rest => addFlags { o with verbosity := o.verbosity + 1 } rest
  | .tokens :: rest => do addFlags (← o.addListing .tokens) rest
  | .outline :: rest => do addFlags (← o.addListing .outline) rest

/-- Takes in arguments; `afterFile` tells whether the one before was the file
name. -/
def addAll (o : Options) (afterFile : Bool) : List String → Option Options
  | [] => some o
  | "--" :: rest =>
    let o := if o.program.isSome && !afterFile then { o with surplus := true }
      else o
    some (rest.foldl addFile o)
  | argument :: rest => do
    match ← classify argument with
    | .file name => (o.addFile name).addAll o.program.isNone rest
    | .unknown => addAll { o with surplus := true } false rest
    | .flags flags =>
      let o ← o.addFlags flags
      if o.help then return o else o.addAll false rest

/-- What the arguments ask for; nothing if they are refused. -/
def ofArguments (arguments : List String) : Option Options := do
  let options := arguments.takeWhile (· ≠ "--")
  if options.any fun argument => (classify argument).isNone
      && (candidates argument.toList).length ≥ 2 then none
  else
    let o ← ({} : Options).addAll false arguments
    if o.help || (o.program.isSome && !o.surplus) then return o else none

end Options

/-- A file name without empty and `.` parts. -/
def normalisePath (path : String) : String :=
  let parts := (path.splitOn "/").filter fun part => part ≠ "" ∧ part ≠ "."
  let root :=
    if path.toList.take 2 = ['/', '/'] && path.toList.take 3 ≠ ['/', '/', '/']
    then "//"
    else if path.toList.head? = some '/' then "/"
    else ""
  let joined := root ++ "/".intercalate parts
  if joined = "" then "." else joined

/-- Line ends of every kind as line feeds. -/
def plainLineEnds : List Char → List Char
  | '\r' :: '\n' :: rest => '\n' :: plainLineEnds rest
  | '\r' :: rest => '\n' :: plainLineEnds rest
  | c :: rest => c :: plainLineEnds rest
  | [] => []

/-- The lines of an input, of which the last may lack its line feed. -/
def inputLines (input : String) : List String :=
  if input = "" then []
  else
    let lines := input.splitOn "\n"
    if lines.getLast? = some "" then lines.dropLast else lines

/-- How a use of the command line ends. -/
inductive Ending where
  | exit (status : Nat)
  | halted (halt : Halt)
  /-- There is no such file. -/
  | noFile

/-- What a use of the command line leaves behind; the trace only if there is
one. -/
structure Report where
  ending : Ending
  output : String := ""
  errors : String := ""
  trace : Option (List String) := none

/-- What a run leaves behind. -/
def runReport (p : Program) (verbosity : Nat) (input : String)
    (complain : Fault → Option Report) : Report :=
  let (outcome, m) := p.runOn (.console (inputLines input) verbosity)
  let output := m.consoleFrom 0 true
  let trace := if verbosity = 0 then none else some m.traceLines
  match outcome with
  | .ok () => { ending := .exit 0, output, trace }
  | .error halt =>
    let plain : Report := { ending := .halted halt, output, trace }
    match halt with
    | .fault fault =>
      match complain fault with
      | some report => { report with output, trace }
      | none => plain
    | _ => plain

/-- Runs a program text. -/
def runText (source : String) (verbosity : Nat) (input : String) : Report :=
  match Program.ofText source with
  | .error fault => { ending := .halted (.fault fault) }
  | .ok p => runReport p verbosity input fun _ => none

/-- Runs a program file, given what reads files. -/
def runFile (fileText : String → Option String) (path : String)
    (verbosity : Nat) (input : String) : Report :=
  match fileText path with
  | none => { ending := .noFile }
  | some source =>
    runText (String.ofList (plainLineEnds source.toList)) verbosity input

/-- A complaint about a fault that is one of the program. -/
def complaint (head : String) (fault : Fault) : Option Report :=
  let reported := fault.isOwn || (match fault with
    | .tooDeep => true
    | _ => false)
  if reported then
    some { ending := .exit 1, errors := head ++ ": " ++ fault.message ++ "\n" }
  else none

/-- Lines, each with its line feed. -/
def unlines (lines : List String) : String :=
  String.join (lines.map (· ++ "\n"))

/-- How the command line is used. -/
def usage : String :=
  "usage: pseudocode [-h] [-v] [--tokens | --tree] program\n"

/-- What the arguments and options mean. -/
def helpText : String :=
  usage ++ unlines
    ["",
     "positional arguments:",
     "  program     program file to execute",
     "",
     "options:",
     "  -h, --help  show this help message and exit",
     "  -v          increase debug verbosity (can be repeated)",
     "  --tokens    print the token stream and exit",
     "  --tree      print the semantic tree outline and exit"]

/-- Runs a program text, or lists what is asked for. -/
def carryOut (o : Options) (source input : String) : Except Fault Report := do
  let tokens ← Token.ofText source
  if o.listing = some .tokens then
    return { ending := .exit 0, output := unlines (tokens.map Token.listing) }
  let p ← Program.ofTokens tokens
  if o.listing = some .outline then
    return { ending := .exit 0, output := unlines (← p.forest.outline) }
  return runReport p o.verbosity input (complaint "Runtime error")

/-- Carries out what the arguments ask for, given what reads files. -/
def respond (arguments : List String) (fileText : String → Option String)
    (input : String) : Report :=
  match Options.ofArguments arguments with
  | none => { ending := .exit 2, errors := usage }
  | some o =>
    if o.help then { ending := .exit 0, output := helpText }
    else
      let path := normalisePath (o.program.getD "")
      match fileText path with
      | none =>
        { ending := .exit 1, errors := "Error: file " ++ path ++ " not found\n" }
      | some source =>
        match carryOut o (String.ofList (plainLineEnds source.toList)) input with
        | .ok report => report
        | .error fault =>
          (complaint "Parse error" fault).getD
            { ending := .halted (.fault fault) }

end Pseudocode.CommandLine
