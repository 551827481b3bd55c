import SearchLang.Node.Json
import SearchLang.Query.Basic
import SearchLang.Settings.Read
import SearchLang.Token.Json

/-!
# The command line

The command prints the tokens of a query, its tree, or its text in canonical
form. `invocation` reads the arguments, and `run` answers them, given how the
content of a settings file is looked up.
-/

namespace SearchLang.Command

/-! ## Arguments -/

/-- What is printed of a query. -/
inductive Action where
  | tokens
  | parse
  | render
  deriving DecidableEq, Repr

/-- The action with a name. -/
def Action.ofName? (name : Text) : Option Action :=
  if name = "tokens".toList then some .tokens
  else if name = "parse".toList then some .parse
  else if name = "render".toList then some .render
  else none

/-- The options, which may stand before and after the action. -/
structure Options where
  /-- The path of the settings file. -/
  settings : Option Text := none
  /-- Whether JSON goes over many lines. -/
  pretty : Bool := false
  deriving DecidableEq, Repr

/-- What the arguments ask for. -/
structure Invocation where
  options : Options
  action : Action
  query : Text
  deriving DecidableEq, Repr

/-- Why arguments ask for no query to be read. -/
inductive Stop where
  | version
  | help
  | misuse
  deriving DecidableEq, Repr

/-- What an argument is. -/
inductive Argument where
  | settings
  | settingsIs (path : Text)
  | pretty
  | version
  | help
  | endOfOptions
  | unknown
  | value (s : Text)
  deriving DecidableEq, Repr

/-- Tells what an argument is. A lone hyphen is a value. -/
def Argument.of (s : Text) : Argument :=
  if s = "--".toList then .endOfOptions
  else if s = "--pretty".toList then .pretty
  else if s = "--config".toList then .settings
  else if "--config=".toList.isPrefixOf s then .settingsIs (s.drop "--config=".length)
  else if s = "--version".toList ∨ "-V".toList.isPrefixOf s then .version
  else if s = "--help".toList ∨ "-h".toList.isPrefixOf s then .help
  else if s.head? = some '-' ∧ s ≠ ['-'] then .unknown
  else .value s

/-- Sets the path of the settings, which may be done once. -/
def Options.setPath? (o : Options) (path : Text) : Option Options :=
  if o.settings.isSome then none else some { o with settings := some path }

/-- Asks for JSON over many lines, which may be done once. -/
def Options.setPretty? (o : Options) : Option Options :=
  if o.pretty then none else some { o with pretty := true }

/-- The options before and after the action together; the later path counts. -/
def Options.merge (outer inner : Options) : Options :=
  ⟨inner.settings <|> outer.settings, outer.pretty || inner.pretty⟩

/-- Reads the arguments after the action: options and the query. -/
def readInner (o : Options) (query? : Option Text) : List Text → Except Stop (Options × Text)
  | [] =>
    match query? with
    | some q => .ok (o, q)
    | none => .error .misuse
  | s :: rest =>
    match Argument.of s with
    | .endOfOptions =>
      match query?, rest with
      | none, [q] => .ok (o, q)
      | some q, [] => .ok (o, q)
      | _, _ => .error .misuse
    | .pretty =>
      match o.setPretty? with
      | some o => readInner o query? rest
      | none => .error .misuse
    | .settingsIs path =>
      match o.setPath? path with
      | some o => readInner o query? rest
      | none => .error .misuse
    | .settings =>
      match rest with
      | [] => .error .misuse
      | path :: rest =>
        match Argument.of path, o.setPath? path with
        | .value _, some o => readInner o query? rest
        | _, _ => .error .misuse
    | .help => .error .help
    | .version => .error .misuse
    | .unknown => .error .misuse
    | .value q =>
      match query? with
      | none => readInner o (some q) rest
      | some _ => .error .misuse

/-- Reads the arguments from the start: options, the action, and what belongs to it. -/
def readOuter (o : Options) : List Text → Except Stop Invocation
  | [] => .error .misuse
  | s :: rest =>
    match Argument.of s with
    | .endOfOptions => .error .misuse
    | .pretty =>
      match o.setPretty? with
      | some o => readOuter o rest
      | none => .error .misuse
    | .settingsIs path =>
      match o.setPath? path with
      | some o => readOuter o rest
      | none => .error .misuse
    | .settings =>
      match rest with
      | [] => .error .misuse
      | path :: rest =>
        match Argument.of path, o.setPath? path with
        | .value _, some o => readOuter o rest
        | _, _ => .error .misuse
    | .version => .error .version
    | .help => .error .help
    | .unknown => .error .misuse
    | .value name =>
      match Action.ofName? name with
      | some action =>
        (readInner {} none rest).map fun (inner, query) => ⟨o.merge inner, action, query⟩
      | none => if name = "help".toList then .error .help else .error .misuse

/-- What the arguments of the command ask for. -/
def invocation (args : List Text) : Except Stop Invocation :=
  readOuter {} args

/-! ## Answers -/

/-- Why a well-formed invocation fails. -/
inductive Failure where
  /-- The settings file cannot be read. -/
  | unreadable (path reason : Text)
  /-- The settings file is not a settings text. -/
  | malformed
  /-- The query is refused. -/
  | refused (e : QueryError)
  deriving DecidableEq, Repr

/-- What is reported of a failure. -/
def Failure.report : Failure → Text
  | unreadable path reason =>
    "Error: failed to read config file ".toList ++ path ++ ": ".toList ++ reason ++
      "\n\nCaused by:\n    ".toList ++ reason ++ ['\n']
  | malformed => "Error: config is malformed\n".toList
  | refused e => "Error: ".toList ++ e.message ++ ['\n']

/-- What the command leaves behind. -/
structure Outcome where
  code : Nat
  output : Text
  errors : Text
  deriving DecidableEq, Repr

/-- The name and the version of the command. -/
def versionLine : Text :=
  "qsparse 0.1.0\n".toList

/-- How the command is called. -/
def usage : Text :=
  ("Usage: qsparse [--config PATH] [--pretty] <tokens|parse|render> QUERY\n\n" ++
    "  tokens  print the tokens of a query as JSON\n" ++
    "  parse   print the parsed query as JSON\n" ++
    "  render  print the parsed query in canonical syntax\n").toList

/-- The limits that the options choose. -/
def loadLimits (content : Text → Except Text Text) (o : Options) : Except Failure Limits :=
  match o.settings with
  | none => .ok {}
  | some path =>
    match content path with
    | .error reason => .error (.unreadable path reason)
    | .ok s =>
      match Settings.read? s with
      | some limits => .ok limits
      | none => .error .malformed

/-- What an invocation prints. Only reading the tree checks the length of the query. -/
def answer (content : Text → Except Text Text) (i : Invocation) : Except Failure Text := do
  let parser := QueryParser.withLimits (← loadLimits content i.options)
  let style : Json.Style := if i.options.pretty then .pretty else .compact
  match i.action with
  | .tokens => pure (Token.print style (scan i.query))
  | .parse =>
    match parser.parseChecked i.query with
    | .ok query => pure (Node.print style query)
    | .error e => throw (.refused e)
  | .render =>
    match parser.parseChecked i.query with
    | .ok query => pure (Query.render query)
    | .error e => throw (.refused e)

/-- What the command does with its arguments, given the content of files by their path. -/
def run (content : Text → Except Text Text) (args : List Text) : Outcome :=
  match invocation args with
  | .error .version => ⟨0, versionLine, []⟩
  | .error .help => ⟨0, usage, []⟩
  | .error .misuse => ⟨2, [], usage⟩
  | .ok i =>
    match answer content i with
    | .ok s => ⟨0, s ++ ['\n'], []⟩
    | .error e => ⟨1, [], e.report⟩

end SearchLang.Command
