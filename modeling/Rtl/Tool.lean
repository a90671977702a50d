import Rtl.Sample
import Rtl.Tool.Diff
import Rtl.Tool.Files
import Rtl.Tool.Options

/-! # The command line tool

The tool runs a pipeline over sample circuits and shows what it changes. All that it prints
is worked out before anything is printed; the one effect left is to write the output file.
-/

namespace Rtl.Tool

/-- Why the tool stops. -/
inductive ToolError where
  | unknownSample (name : String)
  | pipelineFailed
  | file (error : FileError)
deriving DecidableEq

namespace ToolError

/-- An error that the tool itself raises. -/
def custom (kind text : String) : String :=
  "Custom \x7b kind: " ++ kind ++ ", error: " ++ Text.quote text ++ " \x7d"

/-- An error that the operating system raises. -/
def system (error : FileError) : String :=
  "Os \x7b code: " ++ toString error.code ++ ", kind: " ++ error.kind ++ ", message: " ++
    Text.quote error.message ++ " \x7d"

def message : ToolError → String
  | unknownSample name =>
      custom "InvalidInput" ("unknown sample `" ++ name ++ "`, expected one of '" ++
        "', '".intercalate Sample.names ++ "'")
  | pipelineFailed => custom "InvalidData" "pipeline failed"
  | file error => system error

end ToolError

/-- Text in a colour of the terminal. -/
def paint (colour text : String) : String :=
  "\x1b[" ++ colour ++ "m" ++ text ++ "\x1b[0m"

/-- A number in at least three columns. -/
def lineNumber (n : Nat) : String :=
  let digits := toString n
  String.ofList (List.replicate (3 - digits.length) ' ') ++ digits

def changeText : Diff.Change → String
  | .removed line => paint "31" ("- " ++ line)
  | .kept line => "  " ++ line
  | .added line => paint "32" ("+ " ++ line)

/-- The changes between two texts, one numbered line each. -/
def showChanges (before after : String) : String :=
  let changes := Diff.changes (Text.splitLines before) (Text.splitLines after)
  String.join (changes.zipIdx.map fun (change, i) =>
    lineNumber (i + 1) ++ " |" ++ changeText change ++ "\n")

/-- The path of the component that a record comes from. -/
def originPath : Origin → String
  | .manager => "garnet::pass::manager"
  | .vacuous => "garnet::transforms::zero_length_vecs"
  | .inlining => "garnet::transforms::inline"

def levelText : Level → String
  | .debug => "DEBUG"
  | .warn => "WARN "

def recordLine (record : Record) : String :=
  "[" ++ levelText record.level ++ " " ++ originPath record.origin ++ "] " ++ record.message

/-- Debug records are shown only on request. -/
def recordLines (verbose : Bool) (records : List Record) : List String :=
  (records.filter fun record => verbose || record.level == .warn).map recordLine

def errorLine (message : String) : String :=
  "Error: " ++ message

/-- How a failed pipeline is reported. -/
def failureLines : Failure → List String
  | .crash => []
  | .error error =>
      (paint "1;31" "error" ++ ": " ++ error.message) ::
        match error with
        | .invalid violations => violations.map fun violation => "  " ++ violation.message
        | _ => []

/-- What the tool has printed, and how it ends: with a text to be written to the output, if
there is one, or with an error. -/
structure Session where
  stdout : String := ""
  stderr : List String := []
  ending : Except ToolError String := .ok ""

/-- Run the pipeline over one sample after another, up to the first failure. -/
def runSamples (options : Options) : List (String × Circuit) → Session
  | [] => {}
  | (name, circuit) :: rest =>
      let result := options.pipeline.run circuit
      let lines := recordLines options.verbose result.records
      match result.value with
      | .error failure =>
          { stderr := lines ++ failureLines failure, ending := .error .pipelineFailed }
      | .ok after =>
          let text := after.flatten.render
          let session := runSamples options rest
          { stdout := paint "1;37" ("sample '" ++ name ++ "'") ++ "\n" ++
              showChanges circuit.flatten.render text ++ "\n" ++ session.stdout
            stderr := lines ++ session.stderr
            ending := (text ++ ·) <$> session.ending }

/-- The passes that run if none are asked for. -/
def defaultPasses : List String :=
  [PassInfo.removeVacuous.name, PassInfo.inlineAssignments.name]

def Options.withDefaults (options : Options) : Options :=
  if options.pipeline.passes.isEmpty then
    { options with pipeline := { options.pipeline with passes := defaultPasses } }
  else options

/-- The sample that is asked for, or else all of them. -/
def Options.samples (options : Options) : Except ToolError (List (String × Circuit)) :=
  match options.sample with
  | none => .ok Sample.all
  | some name =>
      match Sample.find? name with
      | none => .error (.unknownSample name)
      | some circuit => .ok [(name, circuit)]

def run (options : Options) : Session :=
  match options.samples with
  | .error error => { ending := .error error }
  | .ok samples => runSamples options.withDefaults samples

/-- What is left to do once the tool has printed: write a file, or exit. -/
inductive Step where
  | write (path text : String)
  | exit (code : Nat) (stderr : List String)
deriving DecidableEq

/-- The last words of a tool that stops with an error. -/
def fail (error : ToolError) : Step :=
  .exit 1 [errorLine error.message]

/-- What the tool prints for its arguments, and the step that follows. -/
def start (arguments : List String) : String × List String × Step :=
  match parse arguments with
  | .error error =>
      ("", [], .exit 1 [errorLine (error.message?.getD "invalid command line")])
  | .ok .help => (helpText ++ "\n", [], .exit 0 [])
  | .ok .version => (versionText ++ "\n", [], .exit 0 [])
  | .ok (.run options) =>
      let session := run options
      (session.stdout, session.stderr,
        match session.ending, options.output with
        | .error error, _ => fail error
        | .ok text, some path => .write path text
        | .ok _, none => .exit 0 [])

end Rtl.Tool
