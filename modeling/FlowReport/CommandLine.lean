import FlowReport.Config
import FlowReport.Error
import FlowReport.Page.Style

/-!
# The command line

The words of a command are switches, the words that some switches take, and files. A switch may
be cut short as long as no other one begins so; a word may be joined to its switch; short flags
may share a dash. All files have to stand side by side. A word with a dash in front is a file if
it looks like a negative number or has a blank in it, or if it comes after a double dash.
-/

namespace FlowReport.CommandLine

/-- A switch. -/
inductive Switch where
  | help
  | force
  | functions
  | quiet
  | style
  | generate
  | logLevel
  deriving DecidableEq, Repr

namespace Switch

/-- The switch takes a word. -/
def takesWord : Switch → Bool
  | functions | style | logLevel => true
  | help | force | quiet | generate => false

/-- The name of a switch in messages. -/
def label : Switch → Text
  | help => "-h/--help"
  | force => "-f"
  | functions => "-funcs"
  | quiet => "-q"
  | style => "-style"
  | generate => "-gen"
  | logLevel => "--log-level"

/-- The spellings of the switches, in the order in which messages list them. -/
def spellings : List (Text × Switch) := [
  ("-h", help), ("--help", help), ("-f", force), ("-funcs", functions), ("-q", quiet),
  ("-style", style), ("-gen", generate), ("--log-level", logLevel)]

/-- The switch of a full spelling. -/
def ofSpelling? (s : Text) : Option Switch := Table.get? spellings s

end Switch

/-- What is wrong with a command. -/
inductive UsageError where
  | ambiguous (word : Text) (spellings : List Text)
  | wordMissing (switch : Switch)
  | wordIgnored (switch : Switch) (word : Text)
  | unrecognized (words : List Text)
  deriving DecidableEq, Repr

/-- The message of a wrong command. -/
def UsageError.message : UsageError → Text
  | ambiguous word spellings =>
    "ambiguous option: " ++ word ++ " could match " ++ Text.join ", " spellings
  | wordMissing switch => "argument " ++ switch.label ++ ": expected one argument"
  | wordIgnored switch word =>
    "argument " ++ switch.label ++ ": ignored explicit argument " ++ word.quoted
  | unrecognized words => "unrecognized arguments: " ++ Text.join [' '] words

/-- A word of a command by what it is. -/
inductive Word where
  | operand (text : Text)
  | marker
  | known (switch : Switch) (spelling : Text) (joined : Option Text)
  | unknown (text : Text)
  deriving DecidableEq, Repr

namespace Word

/-- The switches that a word with one dash may mean: one letter with the rest joined to it, or a
switch that begins so. -/
def shortReadings (word : Text) : List (Text × Switch × Option Text) :=
  Switch.spellings.filterMap fun (spelling, switch) =>
    if spelling = word.take 2 then some (spelling, switch, some (word.drop 2))
    else if word.isPrefixOf spelling then some (spelling, switch, none)
    else none

/-- The switches that begin as a word with two dashes does before its equals sign. -/
def longReadings (word : Text) : List (Text × Switch × Option Text) :=
  let (start, joined) :=
    match Text.cutAt? '=' word with
    | some (start, joined) => (start, some joined)
    | none => (word, none)
  Switch.spellings.filterMap fun (spelling, switch) =>
    if start.isPrefixOf spelling then some (spelling, switch, joined) else none

/-- The text of decimal digits, at least one. -/
def isDigits (s : Text) : Bool := s ≠ [] && s.all isDecimal

/-- The word looks like a negative number. A line feed at its end does not count. -/
def isNegativeNumber (word : Text) : Bool :=
  match word with
  | '-' :: s =>
    let s := if s.getLast? = some '\n' then s.dropLast else s
    isDigits s || match Text.cutAt? '.' s with
      | some (whole, fraction) => whole.all isDecimal && isDigits fraction
      | none => false
  | _ => false

/-- A word that begins with a dash and is no full spelling. -/
def ofDashed (word : Text) : Except UsageError Word :=
  let readings := if (word.drop 1).head? = some '-' then longReadings word else shortReadings word
  match readings with
  | [(spelling, switch, joined)] => .ok (.known switch spelling joined)
  | _ :: _ :: _ => .error (.ambiguous word (readings.map (·.1)))
  | [] =>
    if isNegativeNumber word ∨ ' ' ∈ word then .ok (.operand word) else .ok (.unknown word)

/-- What a word is, before any double dash. -/
def ofText (word : Text) : Except UsageError Word :=
  if word.head? ≠ some '-' ∨ word = ['-'] then .ok (.operand word)
  else match Switch.ofSpelling? word with
    | some switch => .ok (.known switch word none)
    | none =>
      match Text.cutAt? '=' word with
      | none => ofDashed word
      | some (start, joined) =>
        match Switch.ofSpelling? start with
        | some switch => .ok (.known switch start (some joined))
        | none => ofDashed word

/-- What the words of a command are. -/
def ofTexts : List Text → Except UsageError (List Word)
  | [] => .ok []
  | word :: rest =>
    if word = "--".toList then .ok (.marker :: rest.map .operand)
    else do return (← ofText word) :: (← ofTexts rest)

end Word

/-- What a command asks for. A style and a log level are missing if their switches were given no
word. -/
structure Options where
  files : List Text := []
  force : Bool := false
  functions : List Text := []
  generate : Bool := false
  logLevel : Option Text
  quiet : Bool := false
  style : Option Text := some Style.preferred
  deriving DecidableEq, Repr

/-- Why a command is not carried out. -/
inductive Stop where
  | help
  | usage (e : UsageError)
  deriving DecidableEq, Repr

/-- How far the files of a command are read. -/
inductive Files where
  | ahead
  | here
  | behind
  deriving DecidableEq, Repr

/-- What is read of a command. -/
structure State where
  options : Options
  files : Files := .ahead
  extras : List Text := []
  deriving DecidableEq, Repr

/-- The names in a list with commas, without blanks around them. -/
def functionNames (s : Text) : List Text :=
  ((Text.split ',' s).map Text.trim).filter (· ≠ [])

namespace State

/-- The files end at a switch. -/
def closeFiles (s : State) : State := { s with files := if s.files = .here then .behind else s.files }

/-- Takes a file, or a word too much. -/
def operand (s : State) (text : Text) : State :=
  if s.files = .behind then { s with extras := s.extras ++ [text] }
  else { s with files := .here, options := { s.options with files := s.options.files ++ [text] } }

/-- Takes a double dash, which is a word too much behind the files. -/
def marker (s : State) : State :=
  if s.files = .behind then { s with extras := s.extras ++ ["--".toList] }
  else { s with files := .here }

/-- Takes a flag. -/
def flag (s : State) : Switch → Except Stop State
  | .help => .error .help
  | .force => .ok { s with options := { s.options with force := true } }
  | .quiet => .ok { s with options := { s.options with quiet := true } }
  | .generate => .ok { s with options := { s.options with generate := true } }
  | switch => .error (.usage (.wordMissing switch))

/-- Takes the word of a switch. A double dash is no word. -/
def word (s : State) (switch : Switch) (text : Text) : Except Stop State :=
  let given := if text = "--".toList then none else some text
  match switch with
  | .functions =>
    let functions := (given.map functionNames).getD []
    .ok { s with options := { s.options with functions } }
  | .style => .ok { s with options := { s.options with style := given } }
  | .logLevel => .ok { s with options := { s.options with logLevel := given } }
  | switch => .error (.usage (.wordIgnored switch text))

end State

/-- The flags whose letters are joined to a flag. -/
def moreFlags (switch : Switch) : Text → Except UsageError (List Switch)
  | [] => .ok []
  | c :: rest =>
    match Switch.ofSpelling? ['-', c] with
    | none => .error (.wordIgnored switch (c :: rest))
    | some next => (moreFlags next rest).map (next :: ·)

/-- The flags that share a dash, the first of them spelled `spelling` and the text `joined` to
it. -/
def flagsOf (switch : Switch) (spelling joined : Text) : Except UsageError (List Switch) :=
  if joined = [] ∨ (spelling.drop 1).head? = some '-' then .error (.wordIgnored switch joined)
  else (moreFlags switch joined).map (switch :: ·)

/-- Takes a switch with the text joined to it. -/
def takeJoined (s : State) (switch : Switch) (spelling joined : Text) : Except Stop State :=
  if switch.takesWord then s.word switch joined
  else match flagsOf switch spelling joined with
    | .error e => .error (.usage e)
    | .ok flags => flags.foldlM State.flag s

/-- Reads the words of a command one after the other. -/
def readWords (s : State) : List Word → Except Stop State
  | [] => .ok s
  | .operand text :: rest => readWords (s.operand text) rest
  | .marker :: rest => readWords s.marker rest
  | .unknown text :: rest =>
    let s := s.closeFiles
    readWords { s with extras := s.extras ++ [text] } rest
  | .known switch spelling (some joined) :: rest => do
    readWords (← takeJoined s.closeFiles switch spelling joined) rest
  | .known switch _ none :: rest =>
    if switch.takesWord then
      match rest with
      | .operand text :: rest => do readWords (← s.closeFiles.word switch text) rest
      | _ => .error (.usage (.wordMissing switch))
    else do readWords (← s.closeFiles.flag switch) rest

/-- What the words of a command ask for, in an environment. -/
def parse (env : Table Text) (words : List Text) : Except Stop Options :=
  match Word.ofTexts words with
  | .error e => .error (.usage e)
  | .ok words => do
    let s ← readWords { options := { logLevel := some (Config.logLevel env) } } words
    if s.extras = [] then .ok s.options else .error (.usage (.unrecognized s.extras))

end FlowReport.CommandLine
