import Wordmill.Options.Basic

/-!
Reading the command line.  A setting takes a value, either attached to it or the
next argument; a flag takes none; everything else names an input file.  What was
read last stays pending, and is checked when the next flag, setting or file
comes up or the line ends; an unknown option or a value given to a flag is
reported before what is pending is checked.
-/

namespace Wordmill

structure Arguments where
  files : List String
  duplicates : Bool
  syllables : Option Syllables
  separator : Option String
  words : Option UInt64
  wordSeparator : Option String
  config : Option String
  bytecode : Bool
  deriving DecidableEq, Repr

inductive UsageError where
  | missingFile
  | unknownOption
  | missingValue
  | invalidValue
  | givenTwice
  | needlessValue
  | help
  | version
  deriving DecidableEq, Repr

namespace Arguments

def empty : Arguments := ⟨[], false, none, none, none, none, none, false⟩

inductive Flag where
  | duplicates
  | bytecode
  | help
  | version
  deriving DecidableEq, Repr

inductive Setting where
  | syllables
  | separator
  | words
  | wordSeparator
  | config
  deriving DecidableEq, Repr

inductive Switch where
  | flag (flag : Flag)
  | setting (setting : Setting)
  deriving DecidableEq, Repr

def Switch.ofName? (name : String) : Option Switch :=
  match name with
  | "duplicates" => some (.flag .duplicates)
  | "bytecode" => some (.flag .bytecode)
  | "help" => some (.flag .help)
  | "version" => some (.flag .version)
  | "syllables" => some (.setting .syllables)
  | "syllable-separator" => some (.setting .separator)
  | "words" => some (.setting .words)
  | "word-separator" => some (.setting .wordSeparator)
  | "config" => some (.setting .config)
  | _ => none

def Switch.ofLetter? (letter : Char) : Option Switch :=
  match letter with
  | 'd' => some (.flag .duplicates)
  | 'h' => some (.flag .help)
  | 'V' => some (.flag .version)
  | 's' => some (.setting .syllables)
  | 'r' => some (.setting .separator)
  | 'w' => some (.setting .words)
  | 'p' => some (.setting .wordSeparator)
  | 'c' => some (.setting .config)
  | _ => none

def raise (arguments : Arguments) (flag : Flag) : Except UsageError Arguments :=
  match flag with
  | .duplicates =>
      if arguments.duplicates then .error .givenTwice else .ok { arguments with duplicates := true }
  | .bytecode =>
      if arguments.bytecode then .error .givenTwice else .ok { arguments with bytecode := true }
  | .help => .error .help
  | .version => .error .version

def has (arguments : Arguments) : Setting → Bool
  | .syllables => arguments.syllables.isSome
  | .separator => arguments.separator.isSome
  | .words => arguments.words.isSome
  | .wordSeparator => arguments.wordSeparator.isSome
  | .config => arguments.config.isSome

/-- A setting given twice is at fault whatever its second value. -/
def set (arguments : Arguments) (setting : Setting) (value : String) :
    Except UsageError Arguments :=
  if arguments.has setting then .error .givenTwice
  else match setting with
    | .syllables =>
        match Syllables.ofText value.toList with
        | .ok syllables => .ok { arguments with syllables := some syllables }
        | .error _ => .error .invalidValue
    | .words =>
        match Text.readNumeral 0xFFFFFFFFFFFFFFFF value.toList with
        | .ok n => .ok { arguments with words := some (UInt64.ofNat n) }
        | .error _ => .error .invalidValue
    | .separator => .ok { arguments with separator := some value }
    | .wordSeparator => .ok { arguments with wordSeparator := some value }
    | .config =>
        if value.isEmpty then .error .missingValue
        else .ok { arguments with config := some value }

def addFiles (arguments : Arguments) (files : List String) : Except UsageError Arguments :=
  if files.contains "" then .error .missingValue
  else .ok { arguments with files := arguments.files ++ files }

/-- What was read but not checked yet; files are kept newest first. -/
inductive Pending where
  | nothing
  | setting (setting : Setting) (value : Option String)
  | files (names : List String)
  deriving DecidableEq, Repr

structure Reading where
  arguments : Arguments
  pending : Pending
  deriving DecidableEq, Repr

namespace Reading

def settle (r : Reading) : Except UsageError Arguments :=
  match r.pending with
  | .nothing => .ok r.arguments
  | .setting _ none => .error .missingValue
  | .setting setting (some value) => r.arguments.set setting value
  | .files names => r.arguments.addFiles names.reverse

def raise (r : Reading) (flag : Flag) : Except UsageError Reading :=
  match r.settle with
  | .error e => .error e
  | .ok arguments =>
      match arguments.raise flag with
      | .error e => .error e
      | .ok arguments => .ok ⟨arguments, .nothing⟩

def await (r : Reading) (setting : Setting) : Except UsageError Reading :=
  match r.settle with
  | .error e => .error e
  | .ok arguments => .ok ⟨arguments, .setting setting none⟩

def set (r : Reading) (setting : Setting) (value : String) : Except UsageError Reading :=
  match r.settle with
  | .error e => .error e
  | .ok arguments =>
      match arguments.set setting value with
      | .error e => .error e
      | .ok arguments => .ok ⟨arguments, .nothing⟩

def addFile (r : Reading) (name : String) : Except UsageError Reading :=
  match r.pending with
  | .files names => .ok { r with pending := .files (name :: names) }
  | _ =>
      match r.settle with
      | .error e => .error e
      | .ok arguments => .ok ⟨arguments, .files [name]⟩

/-- An argument behind two hyphens; a value may follow an equals sign. -/
def readLong (r : Reading) (text : List Char) : Except UsageError Reading :=
  let value := (text.dropWhile (· ≠ '=')).tail?
  match Switch.ofName? (String.ofList (text.takeWhile (· ≠ '='))), value with
  | none, _ => .error .unknownOption
  | some (.flag flag), none => r.raise flag
  | some (.flag _), some _ => .error .needlessValue
  | some (.setting setting), none => r.await setting
  | some (.setting setting), some value => r.set setting (String.ofList value)

/-- Letters behind one hyphen; the first setting among them takes the others as its value. -/
def readLetters (r : Reading) : List Char → Except UsageError Reading
  | [] => .ok r
  | letter :: letters =>
      match Switch.ofLetter? letter with
      | none => .error .unknownOption
      | some (.flag flag) =>
          match r.raise flag with
          | .error e => .error e
          | .ok next => next.readLetters letters
      | some (.setting setting) =>
          match letters with
          | [] => r.await setting
          | '=' :: value => r.set setting (String.ofList value)
          | value => r.set setting (String.ofList value)

/-- An argument that is no option: the value that a setting waits for, or a file. -/
def readPlain (r : Reading) (argument : String) : Except UsageError Reading :=
  match r.pending with
  | .setting setting none => .ok { r with pending := .setting setting (some argument) }
  | _ => r.addFile argument

def readFiles (r : Reading) : List String → Except UsageError Reading
  | [] => .ok r
  | argument :: rest =>
      match r.addFile argument with
      | .error e => .error e
      | .ok next => next.readFiles rest

def readAll (r : Reading) : List String → Except UsageError Reading
  | [] => .ok r
  | argument :: rest =>
      if argument = "--" then r.readFiles rest
      else
        let read :=
          match argument.toList with
          | '-' :: '-' :: text => r.readLong text
          | '-' :: c :: letters => r.readLetters (c :: letters)
          | _ => r.readPlain argument
        match read with
        | .error e => .error e
        | .ok next => next.readAll rest

end Reading

def read (line : List String) : Except UsageError Arguments :=
  match (Reading.mk empty .nothing).readAll line with
  | .error e => .error e
  | .ok r =>
      match r.settle with
      | .error e => .error e
      | .ok arguments => if arguments.files.isEmpty then .error .missingFile else .ok arguments

/-- What is given on the command line goes before what `base` says. -/
def options (arguments : Arguments) (base : Options) : Options :=
  ⟨arguments.words.getD base.words,
    arguments.syllables.getD base.syllables,
    arguments.separator.getD base.separator,
    arguments.duplicates || base.duplicates⟩

/-- Words stand on lines of their own unless told otherwise. -/
def betweenWords (arguments : Arguments) : String := arguments.wordSeparator.getD "\n"

end Arguments

end Wordmill
