import Bello.Channel
import Bello.Report

/- The command line: what is asked for, and what is printed for it. -/
namespace Bello

/-- What to do with a file. -/
inductive Action where
  | run
  | check
  | tokens
  | stats
deriving DecidableEq

/-- What the arguments ask for. -/
inductive Request where
  | onFile (action : Action) (file : String)
  | version
  | nothing
deriving DecidableEq

/-- How it is to be done. -/
structure Options where
  json : Bool
  plain : Bool
  precision : Nat
deriving DecidableEq

structure Command where
  request : Request
  options : Options
deriving DecidableEq

/-- What a command prints on both outputs, and how it ends. -/
structure Outcome where
  code : Nat
  stdout : ByteArray
  stderr : String

namespace Command

def defaultOptions : Options := ⟨false, false, ConsoleStyle.standard.precision⟩

/-- Takes the flags out of the arguments. They may stand anywhere. -/
def splitArgs (options : Options) (words : List String) :
    List String → Option (Options × List String)
  | [] => some (options, words.reverse)
  | "--json" :: args => splitArgs { options with json := true } words args
  | "--plain" :: args => splitArgs { options with plain := true } words args
  | "-v" :: args | "--verbose" :: args => splitArgs options words args
  | "--precision" :: value :: args =>
    match Decimal.readCount value.toList with
    | some precision => splitArgs { options with precision } words args
    | none => none
  | arg :: args =>
    if arg.startsWith "--precision=" then
      match Decimal.readCount (arg.toList.drop "--precision=".length) with
      | some precision => splitArgs { options with precision } words args
      | none => none
    else splitArgs options (arg :: words) args

/-- What the words beside the flags ask for. A file alone is run. -/
def requestOf : List String → Option Request
  | [] => some .nothing
  | ["version"] => some .version
  | ["run", file] => some (.onFile .run file)
  | ["check", file] => some (.onFile .check file)
  | ["tokens", file] => some (.onFile .tokens file)
  | ["stats", file] => some (.onFile .stats file)
  | [file] => some (.onFile .run file)
  | _ => none

/-- The command that the arguments spell, if they are well formed. -/
def ofArgs (args : List String) : Option Command := do
  let (options, words) ← splitArgs defaultOptions [] args
  let request ← requestOf words
  pure ⟨request, options⟩

/-- The file that a command works on. -/
def file? (c : Command) : Option String :=
  match c.request with
  | .onFile _ file => some file
  | .version | .nothing => none

/-! ## Printing -/

def printed (text : String) : Outcome := ⟨0, text.toUTF8, ""⟩

def failed (text : String) : Outcome := ⟨1, ByteArray.empty, text⟩

/-- A document goes to the first output, a text about an error to the second. -/
def reported (options : Options) (written : ByteArray) (r : Report) : Outcome :=
  if options.json then ⟨1, written ++ (r.json.pretty ++ "\n").toUTF8, ""⟩
  else ⟨1, written, r.text ++ "\n"⟩

def padLeft (width : Nat) (s : String) : String :=
  String.ofList (List.replicate (width - s.length) ' ') ++ s

def padRight (width : Nat) (s : String) : String :=
  s ++ String.ofList (List.replicate (width - s.length) ' ')

/-- The line of a token: where it starts, its kind and its text. -/
def tokenLine (source : String) (t : Token) : String :=
  let p := t.span.position source
  padLeft 4 s!"{p.line}" ++ ":" ++ padRight 3 s!"{p.column}" ++ " " ++
    padRight 12 t.kind.name ++ " " ++ t.lexeme ++ "\n"

def kindJson : Token.Kind → Json
  | .keyword word => .fields [("Keyword", .text word.label)]
  | .operator word => .fields [("Operator", .text word.label)]
  | .identifier => .text "Identifier"
  | .number => .text "NumberLiteral"
  | .text => .text "StringLiteral"
  | .delimiter => .text "Delimiter"
  | .comment => .text "Comment"
  | .blank => .text "Whitespace"
  | .endOfInput => .text "EndOfFile"
  | .malformed => .text "Error"

def tokenJson (t : Token) : Json :=
  .fields [
    ("kind", kindJson t.kind), ("lexeme", .text t.lexeme),
    ("span", .fields [("start", .number t.span.start), ("end", .number t.span.stop)])]

/-! ## Actions -/

/-- How many calls may be under way in a program that is run. -/
def callLimit : Nat := 10000

def runFile (options : Options) (file source : String) (stdin : List UInt8) : Outcome :=
  let style : ConsoleStyle :=
    ⟨if options.plain then none else ConsoleStyle.standard.lead, options.precision⟩
  let console : Console := ⟨stdin, ByteArray.empty, style, none⟩
  match Exec.runSource Exec.farBound source (Machine.new console callLimit false) with
  | .ok _ m => ⟨0, m.channel.written, ""⟩
  | .error (.failed e) m => reported options m.channel.written (.ofError file source e)
  | .error .unfinished m => ⟨1, m.channel.written, ""⟩

def checkFile (options : Options) (file source : String) : Outcome :=
  let result := Checkup.ofSource file source
  if options.json then
    { printed (result.json.pretty ++ "\n") with code := if result.success then 0 else 1 }
  else if result.success then
    printed s!"Checking: {file}\nNo errors found ({result.itemCount} top-level items)\n"
  else failed (String.join (result.diagnostics.map fun r => r.text ++ "\n"))

def listTokens (options : Options) (source : String) : Outcome :=
  let tokens := (Token.tokenize source).filter (!·.isTrivia)
  if options.json then printed ((Json.list (tokens.map tokenJson)).pretty ++ "\n")
  else printed (String.join (tokens.map (tokenLine source)))

def listCensus (options : Options) (source : String) : Outcome :=
  let census := Census.ofSource source
  if options.json then printed (census.json.pretty ++ "\n") else printed (census.text ++ "\n")

def act (action : Action) (options : Options) (file source : String) (stdin : List UInt8) :
    Outcome :=
  match action with
  | .run => runFile options file source stdin
  | .check => checkFile options file source
  | .tokens => listTokens options source
  | .stats => listCensus options source

/-- Why a file that does not exist cannot be read. -/
def missingFile : String := "No such file or directory (os error 2)"

/-- Performs a command. The file it works on has been read, or else a reason is given. -/
def perform (c : Command) (content : Except String ByteArray) (stdin : List UInt8) : Outcome :=
  match c.request with
  | .version => printed "minion 0.1.0\nMinion interpreter\nLicense: Apache-2.0\n"
  | .nothing =>
    failed "Error: No input file specified\nUsage: minion <FILE> or minion run <FILE>\n"
  | .onFile action file =>
    match content with
    | .error reason => failed s!"Error: could not read {file}: {reason}\n"
    | .ok bytes =>
      match String.fromUTF8? bytes with
      | none => failed s!"Error: could not read {file}: stream did not contain valid UTF-8\n"
      | some source => act action c.options file source stdin

end Command

end Bello
