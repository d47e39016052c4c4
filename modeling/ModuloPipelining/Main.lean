import ModuloPipelining.Tool

/-!
# Command line

`schedule FUNCTION_FILE` or `pipeline FUNCTION_FILE`, with the options `--library FILE`,
`--format text|json`, `--max-ii-factor N`, `--min-search-span N`, `--trace` and `--verbose`.
The answer is printed on standard output followed by a newline; an error is printed on standard
error and ends the program with status 1.
-/

namespace ModuloPipelining

/-- What the command line asks for. -/
structure Arguments where
  invocation : Invocation
  functionPath : String
  libraryPath : Option String

/-- The options read so far. -/
structure Options where
  format : OutputFormat := .text
  maxIiFactor : Nat := 4
  minSearchSpan : Nat := 16
  library : Option String := none
  input : Option String := none

/-- A word-sized count. -/
def readCount? (s : String) : Option Nat :=
  s.toNat?.bind fun n => if n < u32Bound then some n else none

/-- Read options and the input path from the remaining words. -/
def readOptions : Options → List String → Except String Options
  | o, [] => .ok o
  | o, "--library" :: path :: rest => readOptions { o with library := some path } rest
  | o, "-l" :: path :: rest => readOptions { o with library := some path } rest
  | o, "--format" :: name :: rest =>
    match OutputFormat.ofName? name with
    | some f => readOptions { o with format := f } rest
    | none => .error s!"invalid format: {name}"
  | o, "-f" :: name :: rest =>
    match OutputFormat.ofName? name with
    | some f => readOptions { o with format := f } rest
    | none => .error s!"invalid format: {name}"
  | o, "--max-ii-factor" :: n :: rest =>
    match readCount? n with
    | some k => readOptions { o with maxIiFactor := k } rest
    | none => .error s!"invalid value for --max-ii-factor: {n}"
  | o, "--min-search-span" :: n :: rest =>
    match readCount? n with
    | some k => readOptions { o with minSearchSpan := k } rest
    | none => .error s!"invalid value for --min-search-span: {n}"
  | o, "--trace" :: rest => readOptions o rest
  | o, "--verbose" :: rest => readOptions o rest
  | o, "-v" :: rest => readOptions o rest
  | o, word :: rest =>
    if word.startsWith "-" then .error s!"unexpected argument: {word}"
    else match o.input with
      | none => readOptions { o with input := some word } rest
      | some _ => .error s!"unexpected argument: {word}"

/-- Read the command line. -/
def readArguments : List String → Except String Arguments
  | name :: rest => do
    let some command := Command.ofName? name | .error s!"unknown command: {name}"
    let o ← readOptions {} rest
    let some input := o.input | .error "missing FUNCTION_FILE"
    pure ⟨⟨command, o.format, o.maxIiFactor, o.minSearchSpan⟩, input, o.library⟩
  | [] => .error "usage: schedule|pipeline FUNCTION_FILE [options]"

end ModuloPipelining

open ModuloPipelining in
/-- Run the tool on the files named on the command line. -/
def main (args : List String) : IO UInt32 := do
  match readArguments args with
  | .error message =>
    IO.eprintln message
    return 1
  | .ok a =>
    let functionText ← IO.FS.readFile a.functionPath
    let libraryText ← match a.libraryPath with
      | some path => some <$> IO.FS.readFile path
      | none => pure none
    match a.invocation.run functionText libraryText with
    | .error f =>
      IO.eprintln f.message
      return 101
    | .ok (.error e) =>
      IO.eprintln ("Error: " ++ e.message)
      return 1
    | .ok (.ok text) =>
      IO.println text
      return 0
