import ExprCompiler.Compile

/-!
# The command line

The command takes one argument, the source text, and prints its listing; `run` says what comes of
the arguments, and `execute` is what `main` makes of it. Whatever is wrong goes to the error output.

The log goes to the error output too, but only what the filter admits, and unless the user asks for
more the filter admits only warnings and errors. How a line of the log looks is left open.
-/

namespace ExprCompiler

/-! ## What is written of a log -/

def Severity.rank : Severity → Nat
  | .trace => 0
  | .debug => 1

/-- The least severe events that are written. -/
inductive LogFilter where
  | trace
  | debug
  | info
  | warn
  | error
deriving DecidableEq, Repr

namespace LogFilter

def leastRank : LogFilter → Nat
  | .trace => 0
  | .debug => 1
  | .info => 2
  | .warn => 3
  | .error => 4

def admits (filter : LogFilter) (severity : Severity) : Bool :=
  filter.leastRank ≤ severity.rank

/-- The lines of the events that the filter admits. -/
def write (filter : LogFilter) (line : Event → String) (events : List Event) : String :=
  String.join ((events.filter (filter.admits ·.severity)).map fun event => line event ++ "\n")

end LogFilter

/-! ## Command lines -/

namespace Command

/-- The name of the program, for a command line that does not even give that. -/
def defaultProgram : String := "arithcc"

/-- The filter where the user asks for none. -/
def defaultFilter : LogFilter := .warn

/-- Compiles the source text of a command line, which is the program's name and one argument. -/
def compilation (commandLine : List String) : Compilation :=
  match commandLine with
  | [_, source] => .ofSource source
  | _ => ⟨[], .error (.usage (commandLine.head?.getD defaultProgram))⟩

def run (commandLine : List String) : Except CompileError String :=
  (compilation commandLine).result

/-- What the command leaves behind. -/
structure Outcome where
  stdout : String
  stderr : String
  /-- The exit code, 0 if all went well. -/
  exitCode : UInt8
deriving DecidableEq, Repr

/-- Carries out a command line, where `line` writes an event of the log. -/
def execute (commandLine : List String) (line : Event → String := Event.message) : Outcome :=
  let made := compilation commandLine
  let log := defaultFilter.write line made.events
  match made.result with
  | .ok listing => ⟨listing, log, 0⟩
  | .error error => ⟨"", log ++ error.render ++ "\n", 1⟩

end Command

end ExprCompiler
