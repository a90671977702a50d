import Rtl.Pipeline
import Rtl.Text.Wrapped

/-! # Command line options

Arguments are split into tokens first. Each option then takes its tokens wherever they stand,
so that the order of options does not matter. What is left over in the end is an error, and a
request for help or for the version is looked for only then.
-/

namespace Rtl.Tool

structure Options where
  pipeline : PipelineOptions := {}
  sample : Option String := none
  output : Option String := none
  verbose : Bool := false
deriving DecidableEq

inductive Token where
  | short (name : Char)
  | long (name : String)
  | word (text : String)
  /-- A word behind the mark that ends all options. -/
  | operand (text : String)
deriving DecidableEq

/-- Short options without a value. -/
def shortFlags : List Char := ['v', 'h', 'V']

/-- Short options with a value. -/
def shortArguments : List Char := ['j', 'p', 's', 'o']

namespace Token

/-- Several short options in one argument: flags, then possibly an option with its value.
There is no reading if an option is unknown. -/
def ofCluster? : List Char → Option (List Token)
  | [] => some []
  | c :: cs =>
      if shortFlags.contains c then (ofCluster? cs).map (short c :: ·)
      else if shortArguments.contains c then
        some (short c :: if cs.isEmpty then [] else [word (String.ofList cs)])
      else none

/-- An argument that stands in front of the mark that ends all options. A short option that
has a value with an equals sign in the same argument is named by an ASCII character. -/
def ofArgument (argument : String) : List Token :=
  match argument.toList with
  | '-' :: '-' :: cs =>
      let name := cs.takeWhile (· ≠ '=')
      match cs.dropWhile (· ≠ '=') with
      | [] => [long (String.ofList name)]
      | _ :: value => [long (String.ofList name), word (String.ofList value)]
  | ['-', c] => [short c]
  | '-' :: c :: cs =>
      if !cs.contains '=' then (ofCluster? (c :: cs)).getD [word argument]
      else if c.val < 128 then
        let value := match cs with
          | '=' :: value => value
          | _ => cs
        [short c, word (String.ofList value)]
      else [word argument]
  | _ => [word argument]

def ofArguments : List String → List Token
  | [] => []
  | argument :: rest =>
      if argument = "--" then rest.map operand else ofArgument argument ++ ofArguments rest

end Token

inductive UsageError where
  | noJob (text : String)
  | unknownPass (text : String)
  | malformed
deriving DecidableEq

namespace UsageError

/-- The widest line of a message. -/
def width : Nat := 100

/-- A complaint about a value that was given. -/
def about (value complaint : String) : String :=
  let page := (({} : Text.Page).put "`").putText width value
  ((page.put "`").putText width (": " ++ complaint)).text

/-- The message for a value that was refused; there is none for a malformed command line. -/
def message? : UsageError → Option String
  | noJob text => some (about text "must run at least one job")
  | unknownPass text =>
      some (about text
        "pass must be one of 'zero-length-vecs', 'inline-single-assignment', 'verify'")
  | malformed => none

end UsageError

/-- The tokens that have not been taken yet, in place. -/
abbrev Tokens := List (Option Token)

/-- Taking options from a command line. The tokens that were taken stay taken on failure. -/
abbrev Take (α : Type) := Tokens → Except UsageError α × Tokens

/-- The names of an option. -/
structure OptionName where
  long : String
  short : Option Char := none

def OptionName.matches (name : OptionName) : Option Token → Bool
  | some (.short c) => name.short == some c
  | some (.long text) => name.long == text
  | _ => false

/-- Take the first occurrence of a flag. -/
def takeFlag (name : OptionName) : Tokens → Bool × Tokens
  | [] => (false, [])
  | token :: rest =>
      if name.matches token then (true, none :: rest)
      else
        let (found, rest) := takeFlag name rest
        (found, token :: rest)

/-- Take the first occurrence of an option with the value that follows it. -/
def takeValue (name : OptionName) : Take (Option String)
  | [] => (.ok none, [])
  | token :: rest =>
      if name.matches token then
        match rest with
        | some (.word text) :: rest => (.ok (some text), none :: none :: rest)
        | _ => (.error .malformed, token :: rest)
      else
        let (value, rest) := takeValue name rest
        (value, token :: rest)

/-- Take an option that may be given once, and read its value. -/
def takeOnce {α : Type} (name : OptionName) (read : String → Except UsageError α) :
    Take (Option α) := fun tokens =>
  match takeValue name tokens with
  | (.error e, tokens) => (.error e, tokens)
  | (.ok none, tokens) => (.ok none, tokens)
  | (.ok (some text), tokens) => (some <$> read text, tokens)

/-- Take every occurrence of an option, of which there are at most `bound`. -/
def takeMany {α : Type} (name : OptionName) (read : String → Except UsageError α) :
    (bound : Nat) → Take (List α)
  | 0, tokens => (.ok [], tokens)
  | bound + 1, tokens =>
      match takeOnce name read tokens with
      | (.error e, tokens) => (.error e, tokens)
      | (.ok none, tokens) => (.ok [], tokens)
      | (.ok (some value), tokens) =>
          let (values, tokens) := takeMany name read bound tokens
          ((value :: ·) <$> values, tokens)

/-- A decimal number of at most 64 bits, with or without a sign in front. -/
def readWord (text : String) : Option Nat :=
  let digits := match text.toList with
    | '+' :: cs => cs
    | cs => cs
  if digits.isEmpty || !digits.all Char.isDigit then none
  else
    let value := digits.foldl (fun n c => 10 * n + (c.toNat - '0'.toNat)) 0
    if value < UInt64.size then some value else none

def readJobs (text : String) : Except UsageError Nat :=
  match readWord text with
  | none => .error .malformed
  | some 0 => .error (.noJob text)
  | some jobs => .ok jobs

def readPass (text : String) : Except UsageError String :=
  if (PassInfo.ofName? text).isSome then .ok text else .error (.unknownPass text)

/-- What the command line asks for. -/
inductive Request where
  | run (options : Options)
  | help
  | version
deriving DecidableEq

/-- Take all options. Of several errors, that of the first option in this order counts. -/
def takeOptions : Take Options := fun tokens =>
  let (verify, tokens) := takeFlag ⟨"verify", none⟩ tokens
  let (jobs, tokens) := takeOnce ⟨"jobs", some 'j'⟩ readJobs tokens
  let (passes, tokens) := takeMany ⟨"passes", some 'p'⟩ readPass tokens.length tokens
  let (sample, tokens) := takeOnce ⟨"sample", some 's'⟩ Except.ok tokens
  let (output, tokens) := takeOnce ⟨"output", some 'o'⟩ Except.ok tokens
  let (verbose, tokens) := takeFlag ⟨"verbose", some 'v'⟩ tokens
  let options : Except UsageError Options := do
    return {
      pipeline := { verify, jobs := ← jobs, passes := ← passes }
      sample := ← sample
      output := ← output
      verbose }
  (options, tokens)

def parse (arguments : List String) : Except UsageError Request :=
  let (options, tokens) := takeOptions ((Token.ofArguments arguments).map some)
  match options, tokens.all Option.isNone with
  | .ok options, true => .ok (.run options)
  | result, _ =>
      if (takeFlag ⟨"help", some 'h'⟩ tokens).1 then .ok .help
      else if (takeFlag ⟨"version", some 'V'⟩ tokens).1 then .ok .version
      else match result with
        | .error e => .error e
        | .ok _ => .error .malformed

def helpText : String :=
  "garnet circuit simplifier, runs passes over the built-in sample circuits\n" ++
  "\n" ++
  "Usage: garnet-opt [options]\n" ++
  "\n" ++
  "Available options:\n" ++
  "        --verify            verify the circuit before and after every pass\n" ++
  "    -j, --jobs=JOBS         the number of modules to run passes over concurrently\n" ++
  "    -p, --passes=PASS-NAME  a pass to run over the input\n" ++
  "    -s, --sample=NAME       the built-in sample circuit to run the passes over\n" ++
  "    -o, --output=FILE       the file to output to\n" ++
  "    -v, --verbose           enable verbose output\n" ++
  "    -h, --help              Prints help information\n" ++
  "    -V, --version           Prints version information\n"

def versionText : String := "Version: 0.1.0\n"

end Rtl.Tool
