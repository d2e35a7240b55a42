import Wordmill.CommandLine.Arguments
import Wordmill.Folder
import Wordmill.Grammar.Load
import Wordmill.Options.Json
import Wordmill.Report

/-!
A whole run: read the options, check that all files are there, and turn one file
after another into a block of output.  A failure ends the run and leaves the
blocks of the files before it.  The options file is read by a library, which has
errors of its own.
-/

namespace Wordmill

inductive RunError (ε : Type) where
  | reading (path : String)
  | config (path : String) (fault : ε)
  | missing (paths : List String)
  | loading (path : String) (error : FileError)
  | making (path : String) (error : WordError)
  deriving DecidableEq, Repr

namespace RunError

variable {ε : Type}

def message : RunError ε → String
  | .reading path => "Reading " ++ path
  | .config path _ => "Parsing config " ++ path
  | .missing paths => "missing input file(s): " ++ ", ".intercalate paths
  | .loading path _ => "Loading patterns from " ++ path
  | .making path _ => "Generating words from " ++ path

/-- What led to the error, the nearest cause first. -/
def causes : RunError ε → List String
  | .loading _ error => [error.message]
  | .making _ error =>
      match error with
      | .pattern cause => [error.message, cause.message]
      | .compile cause => [error.message, cause.message]
      | _ => [error.message]
  | _ => []

end RunError

/-- Everything written, and the failure that ended the run early. -/
structure Outcome (ε σ : Type) where
  output : String
  failure : Option (Failure (RunError ε))
  source : σ

namespace Run

variable {ε σ : Type} [Draw σ]

/-- The settings of the command line over those of the options file. -/
def options (library : Json.Library ε) (find : String → Entry) (arguments : Arguments) :
    Except (RunError ε) Options :=
  match arguments.config with
  | none => .ok (arguments.options .default)
  | some path =>
      match (find path).text? with
      | none => .error (.reading path)
      | some text =>
          match library.read Options.declared text.toList with
          | .error fault => .error (.config path fault)
          | .ok base => .ok (arguments.options base)

def missing (find : String → Entry) (files : List String) : List String :=
  files.filter fun file => !(find file).exists

def grammar (find : String → Entry) (file : String) : Except (RunError ε) Grammar :=
  match (find file).text? with
  | none => .error (.reading file)
  | some text =>
      match Grammar.load text.toList with
      | .error e => .error (.loading file e)
      | .ok grammar => .ok grammar

def product (find : String → Entry) (bytecodeOnly : Bool) (options : Options) (file : String)
    (source : σ) : Except (Failure (RunError ε)) Product × σ :=
  match grammar find file with
  | .error e => (.error (.error e), source)
  | .ok grammar =>
      match grammar.produce options bytecodeOnly source with
      | (.error (.error e), source) => (.error (.error (.making file e)), source)
      | (.error .panic, source) => (.error .panic, source)
      | (.ok product, source) => (.ok product, source)

/-- The blocks of the files from number `index` on, behind `output`. -/
def blocks (find : String → Entry) (arguments : Arguments) (options : Options) (index : Nat)
    (output : String) (source : σ) : List String → Outcome ε σ
  | [] => ⟨output, none, source⟩
  | file :: files =>
      match product find arguments.bytecode options file source with
      | (.error failure, source) => ⟨output, some failure, source⟩
      | (.ok product, source) =>
          let block :=
            Report.block file product arguments.betweenWords index arguments.files.length
          blocks find arguments options (index + 1) (output ++ block) source files

end Run

def run {ε σ : Type} [Draw σ] (library : Json.Library ε) (find : String → Entry)
    (arguments : Arguments) (source : σ) : Outcome ε σ :=
  match Run.options library find arguments with
  | .error e => ⟨"", some (.error e), source⟩
  | .ok options =>
      match Run.missing find arguments.files with
      | [] => Run.blocks find arguments options 0 "" source arguments.files
      | paths => ⟨"", some (.error (.missing paths)), source⟩

end Wordmill
