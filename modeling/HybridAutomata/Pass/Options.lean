/-!
# Reading parameters

The parameters of a pass are one text that is split into tokens (`Arguments.split`), and the tokens
are read as options.

Passes take their options in the manner of a command line: long options `--name value` and
`--name=value`, short options `-n value`, `-nvalue` and `-n=value`, and tokens that stand by
themselves. After `--` all tokens stand by themselves. Every pass answers `--help` and `-h` with
its help text.

Tokens are read from left to right. The value of an option that came as a token of its own is
looked at when the next option turns up or the tokens end, so a token that does not belong anywhere
is reported before such a value. An option whose value is attached to it is looked at on the spot.
-/

namespace HybridAutomata

/-! ## Splitting parameter text

The text is split at spaces, tabs and newlines. A text between double quotes is one token, blanks
included, even when it is empty. A quote that is never closed reaches to the end of the text.
-/

namespace Arguments

/-- Whether a character separates tokens outside quotes. -/
def isSeparator (c : Char) : Bool :=
  c == ' ' || c == '\t' || c == '\n'

/-- The token read so far, in reverse, as a list of at most one token. -/
def finish : Option (List Char) → List String
  | none => []
  | some reversed => [String.ofList reversed.reverse]

/-- Scans the rest of a text. `token` holds the characters of the token at hand, the last one
first. -/
def scan (quoted : Bool) (token : Option (List Char)) : List Char → List String
  | [] => finish token
  | c :: rest =>
    if c = '"' then
      if quoted then finish (some (token.getD [])) ++ scan false none rest
      else finish token ++ scan true none rest
    else if isSeparator c && !quoted then finish token ++ scan quoted none rest
    else scan quoted (some (c :: token.getD [])) rest

/-- Splits a parameter text into tokens. -/
def split (params : String) : List String :=
  scan false none params.toList

end Arguments

/-! ## Reading options -/

/-- A parameter that takes a value: an option with long names and maybe a short one, or, without
long names, the one token that may stand by itself. `store` records the value or says what is
wrong. -/
structure Parameter (α : Type) where
  names : List String
  short : Option Char
  placeholder : String
  store : String → α → Except String α

/-- What is wrong with a list of tokens. -/
inductive OptionError where
  /-- Help is asked for. -/
  | help (text : String)
  /-- A token does not belong anywhere. -/
  | unexpectedArgument (token : String)
  /-- A value is attached to an option that takes none. -/
  | unexpectedValue (value option : String)
  /-- An option lacks its value. -/
  | missingValue (param : String)
  /-- A parameter is given twice. -/
  | repeated (param : String)
  /-- A value is refused. -/
  | invalidValue (value param complaint : String)
  /-- The token that has to stand by itself is missing. -/
  | missingRequired
deriving DecidableEq, Repr

namespace OptionError

/-- The first line of the complaint, or the help text. -/
def message : OptionError → String
  | help text => text
  | unexpectedArgument token => s!"error: unexpected argument '{token}' found"
  | unexpectedValue value option =>
    s!"error: unexpected value '{value}' for '{option}' found; no more were expected"
  | missingValue param => s!"error: a value is required for '{param}' but none was supplied"
  | repeated param => s!"error: the argument '{param}' cannot be used multiple times"
  | invalidValue value param complaint =>
    s!"error: invalid value '{value}' for '{param}': {complaint}"
  | missingRequired => "error: the following required arguments were not provided:"

end OptionError

/-- The parameters of a pass, and its help text. -/
structure Grammar (α : Type) where
  options : List (Parameter α)
  positional : Option (Parameter α)
  help : String
  /-- The values of parameters that are not given. -/
  defaults : α

/-- What a token looks like. -/
inductive Token where
  /-- The token `--`. -/
  | escape
  /-- A long option, with its attached value. -/
  | long (name : String) (value : Option String)
  /-- A short option, with its attached value. -/
  | short (name : Char) (value : Option String)
  /-- Any other token. -/
  | plain (text : String)
deriving DecidableEq, Repr

namespace Token

/-- Splits a long option from the value behind the first equals sign. -/
def splitValue : List Char → List Char × Option (List Char)
  | [] => ([], none)
  | '=' :: rest => ([], some rest)
  | c :: rest =>
    let (name, value) := splitValue rest
    (c :: name, value)

/-- What a token looks like before `--`. -/
def ofString (token : String) : Token :=
  match token.toList with
  | ['-', '-'] => escape
  | '-' :: '-' :: rest =>
    let (name, value) := splitValue rest
    long (String.ofList name) (value.map String.ofList)
  | ['-', c] => short c none
  | '-' :: c :: '=' :: rest => short c (some (String.ofList rest))
  | '-' :: c :: rest => short c (some (String.ofList rest))
  | _ => plain token

end Token

namespace Grammar

variable {α : Type}

/-- How a parameter is called in messages. -/
def paramText (param : Parameter α) : String :=
  match param.names with
  | name :: _ => "--" ++ name ++ " <" ++ param.placeholder ++ ">"
  | [] => "<" ++ param.placeholder ++ ">"

/-- The state of reading: the values so far, the parameters that have been given, and a parameter
that waits for its value or for its value to be looked at. -/
structure State (α : Type) where
  values : α
  given : List String
  pending : Option (Parameter α × Option String)

/-- Records the value of the waiting parameter. -/
def settle (state : State α) : Except OptionError (State α) :=
  match state.pending with
  | none => .ok state
  | some (param, none) => .error (.missingValue (paramText param))
  | some (param, some value) =>
    let name := paramText param
    if state.given.contains name then .error (.repeated name)
    else match param.store value state.values with
      | .ok values => .ok ⟨values, name :: state.given, none⟩
      | .error complaint => .error (.invalidValue value name complaint)

/-- Takes up an option: with an attached value it is done, without one it waits. -/
def takeOption (state : State α) (param : Parameter α) (value : Option String) :
    Except OptionError (State α) := do
  let state ← settle state
  match value with
  | some value => settle { state with pending := some (param, some value) }
  | none => pure { state with pending := some (param, none) }

/-- Takes up a token that stands by itself. -/
def takePlain (grammar : Grammar α) (state : State α) (used : Bool) (token : String) :
    Except OptionError (State α) :=
  match grammar.positional with
  | some param =>
    if used then .error (.unexpectedArgument token)
    else do
      let state ← settle state
      pure { state with pending := some (param, some token) }
  | none => .error (.unexpectedArgument token)

/-- Reads tokens. `escaped` says that `--` went before, and `used` that the token that may stand by
itself has been read. -/
def readTokens (grammar : Grammar α) (state : State α) (escaped used : Bool) :
    List String → Except OptionError (State α)
  | [] => settle state
  | token :: rest =>
    match if escaped then Token.plain token else Token.ofString token with
    | .escape => grammar.readTokens state true used rest
    | .long "help" none => do
      -- a refused value comes before the help text
      let _ ← settle state
      throw (.help grammar.help)
    | .long "help" (some value) => .error (.unexpectedValue value "--help")
    | .long name value =>
      match grammar.options.find? fun param => param.names.contains name with
      -- the waiting value is not looked at any more
      | none => .error (.unexpectedArgument ("--" ++ name))
      | some param => do
        let state ← takeOption state param value
        grammar.readTokens state escaped used rest
    | .short 'h' _ => do
      let _ ← settle state
      throw (.help grammar.help)
    | .short name value =>
      match grammar.options.find? fun param => param.short == some name with
      | none => .error (.unexpectedArgument (String.ofList ['-', name]))
      | some param => do
        let state ← takeOption state param value
        grammar.readTokens state escaped used rest
    | .plain token =>
      match state.pending, escaped with
      | some (param, none), false =>
        -- the value of the option before it
        grammar.readTokens { state with pending := some (param, some token) } escaped used rest
      | _, _ => do
        let state ← grammar.takePlain state used token
        grammar.readTokens state escaped true rest

/-- Reads the tokens of a parameter text. -/
def read (grammar : Grammar α) (tokens : List String) : Except OptionError α := do
  let state ← grammar.readTokens ⟨grammar.defaults, [], none⟩ false false tokens
  match grammar.positional with
  | some param =>
    if state.given.contains (paramText param) then pure state.values
    else throw .missingRequired
  | none => pure state.values

end Grammar
end HybridAutomata
