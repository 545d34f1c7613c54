import SimpleLR.Analysis
import SimpleLR.Grammar.Batch
import SimpleLR.Listing.Productions
import SimpleLR.Listing.Reports
import SimpleLR.Listing.Sets
import SimpleLR.Listing.States
import SimpleLR.Listing.Tables

/-! The command line: which outputs are asked for by which words, and what is printed for a
grammar. Reading the input and writing the result are left to the program around it. -/
namespace SimpleLR

/-- What can be printed of a grammar. -/
inductive Output where
  | productions
  | sets
  | automaton
  | table
  | reports
  deriving DecidableEq, Repr

namespace Output

/-- The outputs in the order in which they are printed. -/
def all : List Output := [.productions, .sets, .automaton, .table, .reports]

/-- The word that asks for an output. -/
def word : Output → Text
  | .productions => "prod"
  | .sets => "ff"
  | .automaton => "lr0fsm"
  | .table => "slrtable"
  | .reports => "parse"

/-- The output that a word asks for. -/
def ofWord? (text : Text) : Option Output := all.find? (·.word == text)

/-- An output for a grammar and the strings to parse. Each output starts from the grammar as it
was read. -/
def render (format : Format) (g : Grammar) (strings : List Text) : Output → Except Failure Text
  | .productions => do return (← Failure.ofFault g.productionListing).render format
  | .sets => do return (← Failure.ofFault (g.setListing g.firstFollow)).render format
  | .automaton => do
    let (g, states) ← g.automaton
    return (← Failure.ofFault (g.automatonListing states)).render format
  | .table => do
    let analysis ← Analysis.ofGrammar g
    Failure.ofFault do (← analysis.grammar.tableListing analysis.table).render format
  | .reports => do
    let analysis ← Analysis.ofGrammar g
    return (ReportListing.mk (← Failure.ofFault (analysis.parseAll strings))).render format

end Output

/-- Where a grammar is read from. -/
inductive Source where
  | standardInput
  | file (name : Text)
  deriving DecidableEq, Repr

/-- What a command line asks for. -/
structure Order where
  outputs : List Output
  format : Format
  isBatch : Bool
  strings : List Text
  source : Source
  deriving DecidableEq, Repr

/-- Why a command line is refused. -/
inductive Misuse where
  | missingString
  | unknownOption (word : Text)
  deriving DecidableEq, Repr

def Misuse.message : Misuse → Text
  | .missingString => "-s expects an input string"
  | .unknownOption word => "unknown option " ++ word

/-- A command line as it is understood. Without an output, or with a word too many, help is what is
asked for. -/
inductive Invocation where
  | help
  | misuse (error : Misuse)
  | print (order : Order)
  deriving DecidableEq, Repr

/-- An option. -/
inductive Flag where
  | help
  | format (format : Format)
  | batch
  | string
  deriving DecidableEq, Repr

/-- The option that a word stands for. -/
def Flag.ofWord? (word : Text) : Option Flag :=
  List.lookup word [("-h", .help), ("--help", .help), ("-l", .format .tex), ("-j", .format .json),
    ("-w", .format .html), ("-b", .batch), ("-s", .string)]

namespace Invocation

/-- Reads the words behind the outputs: options, and then at most one file. -/
def ofOptions (order : Order) : List Text → Invocation
  | [] => if order.outputs.isEmpty then .help else .print order
  | word :: rest =>
    if word.head? = some '-' then
      match Flag.ofWord? word with
      | none => .misuse (.unknownOption word)
      | some .help => .help
      | some (.format format) => ofOptions { order with format := format } rest
      | some .batch => ofOptions { order with isBatch := true } rest
      | some .string =>
        match rest with
        | [] => .misuse .missingString
        | string :: rest => ofOptions { order with strings := order.strings ++ [string] } rest
    else if order.outputs.isEmpty || !rest.isEmpty then .help
    else .print { order with source := .file word }

/-- Reads the words of a command line: outputs first, then the rest. -/
def ofWords (words : List Text) : Invocation :=
  let isOutput word := (Output.ofWord? word).isSome
  let outputs := (words.takeWhile isOutput).filterMap Output.ofWord?
  ofOptions ⟨outputs, .plain, false, [], .standardInput⟩ (words.dropWhile isOutput)

end Invocation

/-- An input that could not be read, with the reason that the system gives. -/
structure ReadError where
  name : Text
  reason : Text
  deriving DecidableEq, Repr

namespace ReadError

/-- The error of a file that is not there. -/
def missing (name : Text) : ReadError := ⟨name, "No such file or directory (os error 2)"⟩

def message (error : ReadError) : Text := error.name ++ ": " ++ error.reason

end ReadError

/-- How the program ends: its exit code and what it has written. -/
structure Exit where
  code : Nat
  stdout : Text
  stderr : Text
  deriving DecidableEq, Repr

namespace CommandLine

/-- The help, line by line. -/
def helpLines : List Text :=
  ["Usage: slr-analyzer [outputs] [options] [grammar file]",
   "outputs:",
   "  prod: Productions",
   "  ff: First and follow sets",
   "  lr0fsm: LR(0) Automata",
   "  slrtable: SLR(1) parsing table",
   "  parse: Parse the input strings with the SLR(1) table",
   "options:",
   "  -h: Print this help",
   "  -l: Print in LaTeX format",
   "  -j: Print in JSON format",
   "  -w: Print an HTML document",
   "  -b: Read the batch format (counts, productions, then input strings)",
   "  -s <string>: Add an input string to parse (repeatable)",
   "The log level is read from RUST_LOG."]

/-- Texts that are printed one below the other. -/
def printed (texts : List Text) : Text := texts.flatMap (· ++ ['\n'])

def help : Text := printed helpLines

/-- The texts before the first failure, and that failure. -/
def untilFailure : List (Except Failure Text) → List Text × Option Failure
  | [] => ([], none)
  | .error failure :: _ => ([], some failure)
  | .ok text :: rest =>
    let (texts, failure) := untilFailure rest
    (text :: texts, failure)

/-- What is printed of outputs. HTML fragments are put into one document. -/
def page (format : Format) (texts : List Text) : Text :=
  if format = .html then printed [Html.document texts] else printed texts

/-- The end of a run in which an error was met after something was printed. -/
def rejected (stdout message : Text) : Exit := ⟨1, stdout, "error: " ++ message ++ "\n"⟩

end CommandLine

namespace Order

/-- The grammar that the input spells, and all strings to parse. -/
def read (order : Order) (input : Text) : Except Failure Batch := do
  if order.isBatch then
    let batch ← Batch.load Batch.plenty input
    return { batch with strings := batch.strings ++ order.strings }
  else return ⟨← Failure.ofError (Grammar.ofText input), order.strings⟩

/-- The results of the outputs in the order of printing. -/
def results (order : Order) (batch : Batch) : List (Except Failure Text) :=
  (Output.all.filter order.outputs.contains).map
    (Output.render order.format batch.grammar batch.strings)

/-- Prints the outputs for an input. What was ready before an error is printed too. -/
def exit (order : Order) (input : Text) : Except Fault Exit :=
  match order.read input with
  | .error (.rejected error) => .ok (CommandLine.rejected [] error.message)
  | .error (.broken fault) => .error fault
  | .ok batch =>
    let (texts, failure) := CommandLine.untilFailure (order.results batch)
    let stdout := CommandLine.page order.format texts
    match failure with
    | none => .ok ⟨0, stdout, []⟩
    | some (.rejected error) => .ok (CommandLine.rejected stdout error.message)
    | some (.broken fault) => .error fault

end Order

namespace Invocation

/-- What has to be read before the program can end. -/
def source? : Invocation → Option Source
  | .print order => some order.source
  | _ => none

/-- How the program ends, given what was read from its source. -/
def exit (invocation : Invocation) (input : Except ReadError Text) : Except Fault Exit :=
  match invocation, input with
  | .help, _ => .ok ⟨0, CommandLine.help, []⟩
  | .misuse error, _ => .ok ⟨2, CommandLine.help, error.message ++ "\n"⟩
  | .print _, .error error => .ok (CommandLine.rejected [] error.message)
  | .print order, .ok input => order.exit input

end Invocation

end SimpleLR
