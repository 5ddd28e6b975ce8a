import ScriptSimplifier.Console.Basic

/-! # Settings of the console

The console is started with settings, each written as `-name value`, `-name=value` or, for those
that are on or off, `-name` alone; a second dash makes no difference.  What follows the settings is
a tree. -/

namespace ScriptSimplifier

/-- What the console is started with. -/
structure Settings where
  /-- How much is told about the course of things. -/
  trace : Text := "Info"
  /-- The name of the start file, if there is one. -/
  startFile : Text := []
  validates : Bool := true
  /-- How many operations a pass may apply; any number if it is not positive. -/
  limit : Int := 10000
  /-- The tree to begin with, if there is one. -/
  tree : Text := []
  deriving Repr, DecidableEq

/-- Why arguments are not settings. -/
inductive SettingsError where
  /-- The settings were asked for. -/
  | help
  | form (argument : Text)
  | undefined (name : Text)
  | noValue (name : Text)
  | notBoolean (name value : Text)
  | notInteger (name value : Text)
  | outOfRange (name value : Text)
  deriving Repr, DecidableEq

/-- The text of an error. -/
def SettingsError.message : SettingsError → Text
  | .help => []
  | .form argument => Text.ofString "bad flag syntax: " ++ argument
  | .undefined name => Text.ofString "flag provided but not defined: -" ++ name
  | .noValue name => Text.ofString "flag needs an argument: -" ++ name
  | .notBoolean name value =>
    Text.ofString "invalid boolean value " ++ value.quote ++ Text.ofString " for -" ++ name ++
      Text.ofString ": parse error"
  | .notInteger name value => about name value "parse error"
  | .outOfRange name value => about name value "value out of range"
where
  about (name value : Text) (reason : String) : Text :=
    Text.ofString "invalid value " ++ value.quote ++ Text.ofString " for flag -" ++ name ++
      Text.ofString ": " ++ Text.ofString reason

namespace Settings

/-- The settings by name: what follows each of them, and what it is for. -/
def descriptions : List (String × String) :=
  [("init string", "Initial load"),
    ("limit int", "Maximum number of operations per run (default 10000)"),
    ("trace string", "Trace level [Debug|Info|Error] (default \"Info\")"),
    ("validate", "Validate tree after every operation (default true)")]

/-- The text that explains the settings. -/
def usage : Text :=
  Text.ofString "Usage of orepl:\n" ++ descriptions.flatMap fun (form, purpose) =>
    Text.ofString "  -" ++ Text.ofString form ++ Text.ofString "\n    \t" ++
      Text.ofString purpose ++ Text.ofString "\n"

/-- A truth value. -/
def boolean? (t : Text) : Option Bool :=
  if ["1", "t", "T", "true", "TRUE", "True"].any (Text.ofString · == t) then some true
  else if ["0", "f", "F", "false", "FALSE", "False"].any (Text.ofString · == t) then some false
  else none

/-! ## Integers

An integer may have a sign and a prefix for its base; a zero in front without letter makes it octal.
Underscores may separate digits, also the prefix from the first digit. -/

/-- Why a text is no integer. -/
inductive IntegerError where
  | form
  | range
  deriving Repr, DecidableEq

/-- The base that the letter of a prefix stands for. -/
def prefixBase? (letter : UInt8) : Option Nat :=
  let lower := letter ||| 0x20
  if lower == Text.ascii 'b' then some 2
  else if lower == Text.ascii 'o' then some 8
  else if lower == Text.ascii 'x' then some 16
  else none

/-- The base of a number and its digits. -/
def based (t : Text) : Nat × Text :=
  match t with
  | [] => (10, [])
  | first :: rest =>
    if first == Text.ascii '0' then
      match rest with
      | letter :: digit :: more =>
        match prefixBase? letter with
        | some base => (base, digit :: more)
        | none => (8, rest)
      | _ => (8, rest)
    else (10, t)

/-- The number that digits spell behind those that are already read.  A number that is too large is
noticed before what comes after it. -/
def magnitude (base : Nat) : Nat → Text → Except IntegerError Nat
  | n, [] => .ok n
  | n, b :: rest =>
    if b == Text.ascii '_' then magnitude base n rest
    else
      match (Text.hexDigit? b).filter (· < base) with
      | none => .error .form
      | some d =>
        let n := base * n + d
        if n < 0x10000000000000000 then magnitude base n rest else .error .range

/-- Whether every underscore has a digit before it and one behind it; `digit` tells whether a digit
stands in front of the text. -/
def separated : (digit : Bool) → Text → Bool
  | digit, [] => digit
  | digit, b :: rest =>
    if b == Text.ascii '_' then digit && separated false rest else separated true rest

/-- A natural number. -/
def natural (t : Text) : Except IntegerError Nat := do
  if t.isEmpty then throw .form
  let (base, digits) := based t
  let n ← magnitude base 0 digits
  if separated (t.head? == some (Text.ascii '0')) digits then return n else throw .form

/-- An integer of 64 bits. -/
def integer (t : Text) : Except IntegerError Int := do
  if t.head? = some (Text.ascii '-') then
    let n ← natural t.tail
    if n ≤ 0x8000000000000000 then return -(n : Int) else throw .range
  else
    let n ← natural (if t.head? = some (Text.ascii '+') then t.tail else t)
    if n < 0x8000000000000000 then return (n : Int) else throw .range

/-! ## Taking settings -/

/-- The settings with a limit that is spelled by a text. -/
def setLimit (s : Settings) (name value : Text) : Except SettingsError Settings :=
  match integer value with
  | .ok n => .ok { s with limit := n }
  | .error .form => .error (.notInteger name value)
  | .error .range => .error (.outOfRange name value)

/-- The settings with validation on or off. -/
def setValidates (s : Settings) (name : Text) : Option Text → Except SettingsError Settings
  | none => .ok { s with validates := true }
  | some value =>
    match boolean? value with
    | some b => .ok { s with validates := b }
    | none => .error (.notBoolean name value)

/-- How a setting takes its value. -/
inductive Slot where
  /-- It is on or off, and the value is part of the argument. -/
  | switch
  /-- It has a value, which may be the next argument. -/
  | valued (set : Settings → Text → Except SettingsError Settings)

/-- The setting with a name. -/
def slot? (name : Text) : Option Slot :=
  if name = Text.ofString "trace" then some (.valued fun s value => .ok { s with trace := value })
  else if name = Text.ofString "init" then
    some (.valued fun s value => .ok { s with startFile := value })
  else if name = Text.ofString "limit" then some (.valued fun s value => s.setLimit name value)
  else if name = Text.ofString "validate" then some .switch
  else none

/-- What an argument is. -/
inductive Argument where
  /-- The first word of the tree. -/
  | word
  /-- The mark that only words follow. -/
  | mark
  | malformed
  | setting (name : Text) (value : Option Text)

/-- The name and, after an equals sign, the value of a setting. -/
def splitSetting (t : Text) : Text × Option Text :=
  let name := t.takeWhile (· != Text.ascii '=')
  match t.drop name.length with
  | [] => (name, none)
  | _ :: value => (name, some value)

/-- Tells what an argument is. -/
def classify (t : Text) : Argument :=
  let dash := Text.ascii '-'
  match t with
  | first :: second :: rest =>
    if first != dash then .word
    else if second == dash && rest.isEmpty then .mark
    else
      let body := if second == dash then rest else second :: rest
      if body.head?.any fun b => b == dash || b == Text.ascii '=' then .malformed
      else
        let (name, value) := splitSetting body
        .setting name value
  | _ => .word

/-- The error for a name without setting. -/
def unknown (name : Text) : SettingsError :=
  if name = Text.ofString "help" ∨ name = Text.ofString "h" then .help else .undefined name

/-- Takes settings from the front of arguments; gives the arguments after them. -/
def take (s : Settings) : List Text → Except SettingsError (Settings × List Text)
  | [] => .ok (s, [])
  | argument :: rest =>
    match classify argument with
    | .word => .ok (s, argument :: rest)
    | .mark => .ok (s, rest)
    | .malformed => .error (.form argument)
    | .setting name value =>
      match slot? name, value, rest with
      | none, _, _ => .error (unknown name)
      | some .switch, value, rest => do take (← s.setValidates name value) rest
      | some (.valued set), some value, rest => do take (← set s value) rest
      | some (.valued set), none, value :: rest => do take (← set s value) rest
      | some (.valued _), none, [] => .error (.noValue name)
  termination_by arguments => arguments.length

/-- The settings that arguments spell. -/
def ofArguments (arguments : List Text) : Except SettingsError Settings := do
  let (s, words) ← take {} arguments
  return { s with tree := (Text.join (Text.ofString " ") words).trim }

/-- The console with settings. -/
def console (s : Settings) : Console :=
  { options := { validates := s.validates, limit := Pass.limitOf s.limit } }

end Settings

end ScriptSimplifier
