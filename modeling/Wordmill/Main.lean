import Wordmill.CommandLine.Arguments
import Wordmill.Json.Library
import Wordmill.Run

/-!
The command line program: words on the standard output, complaints on the
standard error.
-/

namespace Wordmill

def usage : String :=
  "Usage: wordmill [OPTIONS] <FILES>...\n\n" ++
  "  -d, --duplicates                  Keep duplicate words (default: false)\n" ++
  "  -s, --syllables <SYLLABLES>       Syllables per word: N, or MIN,MAX (default: 1)\n" ++
  "  -r, --syllable-separator <TEXT>   String separating each syllable (default: empty)\n" ++
  "  -w, --words <WORDS>               Amount of words to generate (default: 100)\n" ++
  "  -p, --word-separator <TEXT>       String separating each word (default: newline)\n" ++
  "  -c, --config <FILE>               JSON file with generation options\n" ++
  "      --bytecode                    Output compiled bytecode instead of words\n" ++
  "  -h, --help                        Print help\n" ++
  "  -V, --version                     Print version\n"

def UsageError.message : UsageError → String
  | .missingFile => "no input file given"
  | .unknownOption => "unexpected argument"
  | .missingValue => "a value is required"
  | .invalidValue => "invalid value"
  | .givenTwice => "an argument cannot be used multiple times"
  | .needlessValue => "unexpected value for a flag"
  | .help => usage
  | .version => "wordmill 0.1.0\n"

/-- What is on the disk; a path that cannot be read for any other reason counts as a folder. -/
def readEntry (path : String) : IO Entry := do
  try
    return .file (← IO.FS.readBinFile path)
  catch e =>
    match e with
    | .noFileOrDirectory .. => return .absent
    | _ => return .folder

def readEntries (arguments : Arguments) : IO (List (String × Entry)) :=
  (arguments.files ++ arguments.config.toList).mapM fun path => do
    return (path, ← readEntry path)

def newSource : IO StdGen := do
  let bytes ← IO.getRandomBytes 8
  return mkStdGen (bytes.foldl (fun seed byte => seed * 256 + byte.toNat) 0)

def complain (error : RunError Json.Fault) : IO Unit := do
  IO.eprintln ("Error: " ++ error.message)
  unless error.causes.isEmpty do
    IO.eprintln "\nCaused by:"
    for cause in error.causes do
      IO.eprintln ("    " ++ cause)

def execute (arguments : Arguments) : IO UInt32 := do
  let entries ← readEntries arguments
  let outcome := run Json.library (fun path => (entries.lookup path).getD .absent) arguments
    (← newSource)
  IO.print outcome.output
  match outcome.failure with
  | none => return 0
  | some (.error error) =>
      complain error
      return 1
  | some .panic =>
      IO.eprintln "panic: capacity overflow"
      return 101

def command (line : List String) : IO UInt32 := do
  match Arguments.read line with
  | .ok arguments => execute arguments
  | .error .help =>
      IO.print UsageError.help.message
      return 0
  | .error .version =>
      IO.print UsageError.version.message
      return 0
  | .error e =>
      IO.eprintln ("error: " ++ e.message)
      return 2

end Wordmill

def main (line : List String) : IO UInt32 := Wordmill.command line
