import Rtl.Tool

/-! # The command line

Prints what the tool has worked out and writes the output file.
-/

namespace Rtl.Tool

/-- The number of an error in the operating system, if it comes from there. -/
def systemCode? : IO.Error → Option UInt32
  | .noFileOrDirectory _ code _ => some code
  | .permissionDenied _ code _ | .inappropriateType _ code _ | .resourceExhausted _ code _
  | .invalidArgument _ code _ | .noSuchThing _ code _ => some code
  | .otherError code _ => some code
  | _ => none

/-- What went wrong with a file; an error of no known number is that it cannot be found. -/
def fileError (error : IO.Error) : FileError :=
  ((systemCode? error).bind fun code => FileError.ofCode? code.toNat).getD .notFound

def perform : Step → IO UInt32
  | .exit code lines => do
      lines.forM IO.eprintln
      return code.toUInt32
  | .write path text => do
      try
        IO.FS.writeFile path text
        return 0
      catch e =>
        IO.eprintln (errorLine (ToolError.file (fileError e)).message)
        return 1

end Rtl.Tool

def main (arguments : List String) : IO UInt32 := do
  let (stdout, stderr, step) := Rtl.Tool.start arguments
  stderr.forM IO.eprintln
  IO.print stdout
  Rtl.Tool.perform step
