import ComplexAlgebra.Resolution

/-! The command line as a function: from the arguments and the files at hand to an exit code and
the two output texts. -/
namespace ComplexAlgebra

/-! The texts of values, expressions, scopes, resolutions and errors over double-precision
numbers. -/

def bracketed (needed : Bool) (text : String) : String :=
  if needed then "(" ++ text ++ ")" else text

def Value.text : Value FloatNumber → String
  | scalar x => FloatNumber.text x
  | list xs => "[" ++ ", ".intercalate (xs.map FloatNumber.text) ++ "]"

namespace Expr

/-- A number with both parts needs brackets wherever it stands in an expression. -/
def constantText : Value FloatNumber → String
  | .scalar x => bracketed (x.re != 0 && x.im != 0) (FloatNumber.text x)
  | v => v.text

/-- The coefficient in front of a variable; one is left out and minus one is only a sign. -/
def coefficientText (c : FloatNumber) : String :=
  if c == 1 then ""
  else if c == -1 then "-"
  else bracketed (c.im != 0) (FloatNumber.text c)

/-- Operations and scaled variables need brackets as operands. -/
def needsBrackets : Expr FloatNumber → Bool
  | .op .. => true
  | .var _ c => c != 1
  | .constant _ => false

def text : Expr FloatNumber → String
  | .constant v => constantText v
  | .var name c => coefficientText c ++ String.singleton name
  | .op o left right =>
    bracketed left.needsBrackets left.text ++ " " ++ o.symbol ++ " " ++
      bracketed right.needsBrackets right.text

end Expr

def bindingText (name : Char) (v : Value FloatNumber) : String :=
  String.singleton name ++ " = " ++ v.text

def Scope.text (s : Scope FloatNumber) : String :=
  "\x7b" ++ ", ".intercalate (s.bindings.map fun b => bindingText b.1 b.2) ++ "\x7d"

def Resolution.text : Resolution FloatNumber → String
  | value v => v.text
  | binding name v => bindingText name v

def EquationFault.text : EquationFault → String
  | bothSides => "both sides contain a variable"
  | neitherSide => "neither side contains a variable"
  | equalsSigns count => "expected at most one '=', found " ++ toString count

def Obstacle.text : Obstacle FloatNumber → String
  | notKnown side => "'" ++ side.text ++ "' still contains a variable"
  | bothOperands o => "the unknown occurs on both sides of '" ++ o.symbol ++ "'"
  | cancels => "the unknown cancels out"

def RuntimeError.message : RuntimeError FloatNumber → String
  | unboundVariable name => "Unbound variable: " ++ String.singleton name ++ "."
  | invalidEquation fault => "Invalid equation: " ++ fault.text ++ "."
  | unresolvable obstacle => "Unresolvable equation: " ++ obstacle.text ++ "."

def Error.message : Error FloatNumber → String
  | parse cause => cause.message
  | runtime cause => cause.message

def ScriptError.message (e : ScriptError FloatNumber) : String :=
  "Error on line " ++ toString e.line ++ ": " ++ e.cause.message

namespace CommandLine

structure Settings where
  readsFile : Bool
  verbose : Bool
  bindings : List String
  contents : Option String

def Settings.initial : Settings := ⟨false, false, [], none⟩

inductive Request where
  | help
  | version
  | run (settings : Settings) (contents : String)

inductive UsageError where
  | unknownOption (name : String)
  | repeatedFlag (name : String)
  | unexpectedValue (name : String)
  | missingValue
  | extraArgument (argument : String)
  | missingContents

inductive Step where
  | next (settings : Settings)
  /-- The argument was an option whose value is still to come. -/
  | awaitsValue (settings : Settings)
  | done (request : Request)

namespace Settings

def setFile (s : Settings) : Except UsageError Settings :=
  if s.readsFile then .error (.repeatedFlag "--file") else .ok { s with readsFile := true }

def setVerbose (s : Settings) : Except UsageError Settings :=
  if s.verbose then .error (.repeatedFlag "--verbose") else .ok { s with verbose := true }

def addBinding (s : Settings) (equation : String) : Settings :=
  { s with bindings := s.bindings ++ [equation] }

def setContents (s : Settings) (contents : String) : Except UsageError Settings :=
  match s.contents with
  | none => .ok { s with contents := some contents }
  | some _ => .error (.extraArgument contents)

end Settings

/-- An option by its long name, with the value behind an equals sign if there is one. -/
def longOption (s : Settings) (name : String) (value : Option String) : Except UsageError Step :=
  match name, value with
  | "bind", some equation => .ok (.next (s.addBinding equation))
  | "bind", none => .ok (.awaitsValue s)
  | "file", none => s.setFile.map .next
  | "verbose", none => s.setVerbose.map .next
  | "help", none => .ok (.done .help)
  | "version", none => .ok (.done .version)
  | name, none => .error (.unknownOption name)
  | name, some _ => .error (.unexpectedValue name)

/-- Flags written together. The option with a value takes what is left of the argument. -/
def shortOptions (s : Settings) : List Char → Except UsageError Step
  | [] => .ok (.next s)
  | 'f' :: rest =>
    match s.setFile with
    | .error e => .error e
    | .ok s => shortOptions s rest
  | 'v' :: rest =>
    match s.setVerbose with
    | .error e => .error e
    | .ok s => shortOptions s rest
  | 'h' :: _ => .ok (.done .help)
  | 'V' :: _ => .ok (.done .version)
  | ['b'] => .ok (.awaitsValue s)
  | 'b' :: '=' :: equation => .ok (.next (s.addBinding (String.ofList equation)))
  | 'b' :: equation => .ok (.next (s.addBinding (String.ofList equation)))
  | c :: _ => .error (.unknownOption (String.singleton c))

/-- Arguments that begin with a dash are options, apart from the dash alone. -/
def isOption (argument : String) : Bool :=
  match argument.toList with
  | '-' :: _ :: _ => true
  | _ => false

def step (s : Settings) (argument : String) : Except UsageError Step :=
  match argument.toList with
  | '-' :: '-' :: rest =>
    let name := String.ofList (rest.takeWhile (· != '='))
    match rest.dropWhile (· != '=') with
    | [] => longOption s name none
    | _ :: value => longOption s name (some (String.ofList value))
  | '-' :: c :: rest => shortOptions s (c :: rest)
  | _ => (s.setContents argument).map .next

def finish (s : Settings) : Except UsageError Request :=
  match s.contents with
  | some contents => .ok (.run s contents)
  | none => .error .missingContents

def operands (s : Settings) : List String → Except UsageError Request
  | [] => finish s
  | argument :: rest =>
    match s.setContents argument with
    | .error e => .error e
    | .ok s => operands s rest

/-- Reads the arguments from left to right and stops at the first error or request for help. -/
def arguments (s : Settings) : List String → Except UsageError Request
  | [] => finish s
  | "--" :: rest => operands s rest
  | argument :: rest =>
    match step s argument with
    | .error e => .error e
    | .ok (.done request) => .ok request
    | .ok (.next s) => arguments s rest
    | .ok (.awaitsValue s) =>
      match rest with
      | [] => .error .missingValue
      | value :: rest =>
        if isOption value then .error .missingValue else arguments (s.addBinding value) rest

def request (args : List String) : Except UsageError Request := arguments Settings.initial args

def usage : String := "Usage: complexa [OPTIONS] <CONTENTS>\n"

def helpText : String :=
  "A small computer-algebra engine for complex-number expressions and one-variable equations\n" ++
  "\n" ++ usage ++ "\n" ++
  "Arguments:\n" ++
  "  <CONTENTS>  \n" ++
  "\n" ++
  "Options:\n" ++
  "  -f, --file             Tells complexa to look at a file instead of a script\n" ++
  "  -b, --bind <EQUATION>  Resolves an equation before the script runs, e.g. " ++
  "`--bind \"y = 2i\"`. May be given several times; later bindings can use earlier ones\n" ++
  "  -v, --verbose          Logs every resolution and isolation step to stderr\n" ++
  "  -h, --help             Print help\n" ++
  "  -V, --version          Print version\n"

def versionText : String := "complexa 0.1.0\n"

def UsageError.message : UsageError → String
  | unknownOption name => "error: unexpected option '" ++ name ++ "'\n"
  | repeatedFlag name => "error: '" ++ name ++ "' is given more than once\n"
  | unexpectedValue name => "error: unexpected value for '" ++ name ++ "'\n"
  | missingValue => "error: a value is required for '--bind'\n"
  | extraArgument argument => "error: unexpected argument '" ++ argument ++ "'\n"
  | missingContents => "error: the argument <CONTENTS> is missing\n"

structure Report where
  code : Nat
  output : String
  errors : String

/-- Resolves the given bindings in order. The first one that fails is reported. -/
def bindAll (s : Scope FloatNumber) :
    List String → Except (String × Error FloatNumber) (Scope FloatNumber)
  | [] => .ok s
  | binding :: rest =>
    match s.resolve binding.toList with
    | (.error e, _) => .error (binding, e)
    | (.ok _, s) => bindAll s rest

/-- Runs a script after its bindings. Results are written only if all of it succeeds. -/
def runScript (bindings : List String) (script : String) : Report :=
  match bindAll Scope.empty bindings with
  | .error (binding, e) => ⟨1, "", "Invalid binding '" ++ binding ++ "': " ++ e.message ++ "\n"⟩
  | .ok s =>
    match (s.run script.toList).1 with
    | .ok results => ⟨0, String.join (results.map fun r => r.text ++ "\n"), ""⟩
    | .error e => ⟨1, "", e.message ++ "\n"⟩

/-- Runs a command line. `readFile` yields the text of a file that can be read. -/
def run (readFile : String → Option String) (args : List String) : Report :=
  match request args with
  | .error e => ⟨2, "", e.message ++ "\n" ++ usage⟩
  | .ok .help => ⟨0, helpText, ""⟩
  | .ok .version => ⟨0, versionText, ""⟩
  | .ok (.run settings contents) =>
    match if settings.readsFile then readFile contents else some contents with
    | some script => runScript settings.bindings script
    | none =>
      ⟨1, "", "Failed to read the input file '" ++ contents ++
        "'. Perhaps this file does not exist?\n"⟩

def inputFile? (args : List String) : Option String :=
  match request args with
  | .ok (.run settings contents) => if settings.readsFile then some contents else none
  | _ => none

end CommandLine
end ComplexAlgebra
