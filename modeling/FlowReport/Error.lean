import FlowReport.Assembly.Function
import FlowReport.Json.Parser
import FlowReport.Primitive
import FlowReport.Text.Utf8

/-!
# Errors

Everything that stops the making of a report, by its cause, and the message for each cause.
-/

namespace FlowReport

/-- Why a file or a directory could not be used. -/
inductive FileFault where
  | missing
  | present
  | notADirectory
  | isADirectory
  | nameTooLong
  deriving DecidableEq, Repr

/-- Why a page was not made from a template. -/
inductive TemplateError where
  | unreadable (template : Text) (fault : FileFault) (path : Text)
  | unknown (name : Text)
  | missingField (name key : Text)
  | badPlaceholder (name : Text) (line column : Nat)
  deriving DecidableEq, Repr

/-- Why a program gave no result. -/
inductive ToolError where
  | cannotStart (command : List Text)
  | failed (command : List Text) (status : Int) (complaint : Text)
  deriving DecidableEq, Repr

/-- Why a log level was not found: no name was given, or the name is that of a format of log lines
or of the table of such formats. -/
inductive LevelError where
  | noName
  | format
  | formats
  deriving DecidableEq, Repr

/-- Why the making of a report stopped. -/
inductive Error where
  | module (e : Assembly.ReadError)
  | noFunction (function owner : Text)
  | noBlock (block : WideText) (function : Text)
  | notInFunction (block function : Text)
  | notLocated (fragment container : Text)
  | pageOutOfRange (page : Int) (count : Nat)
  | noSuchItem
  | indexTooLarge
  | document (e : Json.ReadError)
  | primitive (e : PrimitiveError)
  | encoding (e : Utf8Error)
  | surrogates (e : SurrogateRun)
  | file (fault : FileFault) (path : Text)
  | notATree (path : Text)
  | nullInPath
  | template (e : TemplateError)
  | tool (e : ToolError)
  | notInitialized
  | standardInput
  | noStyle
  | level (e : LevelError)

/-- The most characters of a malformed numeral, in its quoted form, that a message shows. -/
def NumeralError.shownLimit : Nat := 200

/-- The message of a numeral that was not read or not written. -/
def NumeralError.message : NumeralError → Text
  | malformed s => "invalid literal for int() with base 10: " ++ s.quoted.take shownLimit
  | tooManyDigits count =>
    "Exceeds the limit (4300 digits) for integer string conversion: value has " ++
      Numeral.ofNat count ++ " digits; use sys.set_int_max_str_digits() to increase the limit"
  | tooLargeToWrite =>
    "Exceeds the limit (4300 digits) for integer string conversion; use " ++
      "sys.set_int_max_str_digits() to increase the limit"

/-- The message of a module that was not read. -/
def Assembly.ReadError.message : Assembly.ReadError → Text
  | openHeader module => "unterminated function header in " ++ module.quoted
  | openBody module => "unterminated function body in " ++ module.quoted
  | namelessFunction header => "unsupported function definition: " ++ header
  | numeral e => e.message

/-- What a fault in a document is called. -/
def Json.Fault.text : Json.Fault → Text
  | byteOrderMark => "Unexpected UTF-8 BOM (decode using utf-8-sig)"
  | value => "Expecting value"
  | propertyName => "Expecting property name enclosed in double quotes"
  | colon => "Expecting ':' delimiter"
  | comma => "Expecting ',' delimiter"
  | extraData => "Extra data"
  | controlCharacter => "Invalid control character at"
  | openString => "Unterminated string starting at"
  | escape => "Invalid \\escape"
  | unicodeEscape => "Invalid \\uXXXX escape"

/-- What a container is called. -/
def Json.Container.text : Json.Container → Text
  | array => "array"
  | object => "object"

/-- The message of a document that was not read. -/
def Json.ReadError.message : Json.ReadError → Text
  | fault f line column position =>
    f.text ++ ": line " ++ Numeral.ofNat line ++ " column " ++ Numeral.ofNat column ++
      " (char " ++ Numeral.ofNat position ++ ")"
  | numeral e => e.message
  | tooDeep container =>
    "maximum recursion depth exceeded while decoding a JSON " ++ container.text ++
      " from a unicode string"

/-- The message of a value that was not read as primitives. -/
def PrimitiveError.message : PrimitiveError → Text
  | notAnObject v => "primitive must be a JSON object (got " ++ v.literal ++ ")"
  | nodesNotAList v =>
    "primitive nodes must be a list or an object (got " ++ v.literal ++ ")"
  | notAnArray => "primitives file must contain a JSON array"

/-- What a fault in an encoding is called. -/
def Utf8Fault.text : Utf8Fault → Text
  | startByte => "invalid start byte"
  | continuation => "invalid continuation byte"
  | endOfData => "unexpected end of data"

/-- The message of bytes that encode no text. -/
def Utf8Error.message (e : Utf8Error) : Text :=
  let place : Text :=
    match e.bytes with
    | [b] => "byte 0x" ++ Text.hex 2 b.toNat ++ " in position " ++ Numeral.ofNat e.position
    | bytes =>
      "bytes in position " ++ Numeral.ofNat e.position ++ "-" ++
        Numeral.ofNat (e.position + bytes.length - 1)
  "'utf-8' codec can't decode " ++ place ++ ": " ++ e.fault.text

/-- The message of surrogates that have no bytes. -/
def SurrogateRun.message (e : SurrogateRun) : Text :=
  let place : Text :=
    match e.run with
    | [p] => "character '\\u" ++ Text.hex 4 p.value ++ "' in position " ++ Numeral.ofNat e.position
    | run =>
      "characters in position " ++ Numeral.ofNat e.position ++ "-" ++
        Numeral.ofNat (e.position + run.length - 1)
  "'utf-8' codec can't encode " ++ place ++ ": surrogates not allowed"

/-- The message of a log level that was not found. -/
def LevelError.message : LevelError → Text
  | noName => "'list' object has no attribute 'upper'"
  | format => "Unknown level: '%(levelname)s:%(name)s:%(message)s'"
  | formats =>
    "Level not an integer or a valid string: " ++
      "\x7b'%': (<class 'logging.PercentStyle'>, '%(levelname)s:%(name)s:%(message)s'), " ++
      "'\x7b': (<class 'logging.StrFormatStyle'>, " ++
      "'\x7blevelname\x7d:\x7bname\x7d:\x7bmessage\x7d'), " ++
      "'$': (<class 'logging.StringTemplateStyle'>, " ++
      "'$\x7blevelname\x7d:$\x7bname\x7d:$\x7bmessage\x7d')\x7d"

/-- The number and the name of a fault. -/
def FileFault.text : FileFault → Text
  | missing => "[Errno 2] No such file or directory"
  | present => "[Errno 17] File exists"
  | notADirectory => "[Errno 20] Not a directory"
  | isADirectory => "[Errno 21] Is a directory"
  | nameTooLong => "[Errno 36] File name too long"

/-- The message of a fault at a path. -/
def FileFault.message (fault : FileFault) (path : Text) : Text := fault.text ++ ": " ++ path.quoted

/-- The message of a page that was not made. -/
def TemplateError.message : TemplateError → Text
  | unreadable template fault path =>
    "unable to read template " ++ template ++ ": " ++ fault.message path
  | unknown name => "unknown template " ++ name.quoted
  | missingField name key => "unable to render template " ++ name.quoted ++ ": " ++ key.quoted
  | badPlaceholder name line column =>
    "unable to render template " ++ name.quoted ++ ": Invalid placeholder in string: line " ++
      Numeral.ofNat line ++ ", col " ++ Numeral.ofNat column

/-- The words of a command with a blank between neighbours. -/
def commandLine (command : List Text) : Text := Text.join [' '] command

/-- The message of a program that gave no result. -/
def ToolError.message : ToolError → Text
  | cannotStart command =>
    let program := command.headD []
    "unable to start " ++ program.quoted ++ ": " ++ FileFault.missing.message program
  | failed command status _ =>
    "command failed with exit status " ++ Numeral.ofInt status ++ ": " ++ commandLine command

/-- The first line of a text, cut to 40 characters. -/
def preview (s : Text) : Text :=
  let line := s.takeWhile (· ≠ '\n')
  if 40 < line.length then line.take 40 ++ "..." else line

/-- The message of an error. -/
def Error.message : Error → Text
  | module e => e.message
  | noFunction function owner =>
    "unable to locate function " ++ function.quoted ++ " in LLVM IR module " ++ owner.quoted
  | noBlock block function =>
    "unable to locate basic block " ++ block.quoted ++ " in function " ++ function.quoted
  | notInFunction block function =>
    "unable to locate contents of basic block " ++ block.quoted ++
      " in contents of function " ++ function.quoted
  | notLocated fragment container =>
    "unable to locate text " ++ (preview fragment).quoted ++ " within " ++
      (preview container).quoted
  | pageOutOfRange page count =>
    "page " ++ Numeral.ofInt page ++ " out of range [1, " ++ Numeral.ofNat count ++ "]"
  | noSuchItem => "list index out of range"
  | indexTooLarge => "cannot fit 'int' into an index-sized integer"
  | document e => e.message
  | primitive e => e.message
  | encoding e => e.message
  | surrogates e => e.message
  | file fault path => fault.message path
  | notATree path => FileFault.notADirectory.text ++ ": PosixPath(" ++ path.quoted ++ ")"
  | nullInPath => "embedded null byte"
  | template e => e.message
  | tool e => e.message
  | notInitialized => "explorer not initialized"
  | standardInput => "unable to generate control flow graphs for standard input"
  | noStyle => "unhashable type: 'list'"
  | level e => e.message

end FlowReport
