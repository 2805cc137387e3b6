/-!
Arguments of the command line. Options may stand before or after the command and among its
operands; two hyphens alone end them. A setting counts first as given after the command, then as
given before it, then as set in the environment. An argument that cannot be taken ends the reading
at once, and so does a request for help or for the version.
-/
namespace BffLayout.CommandLine

/-- Why the arguments ask for no run. -/
inductive Stop where
  | help
  | version
  | usage
  deriving DecidableEq, Repr

inductive Setting where
  | unit
  | tab
  deriving DecidableEq, Repr

inductive Subcommand where
  | indent
  | check
  | line
  | complete
  deriving DecidableEq, Repr

inductive Operand where
  | path
  | number
  deriving DecidableEq, Repr

/-- What to do; lines and columns are numbered from one. -/
inductive Command where
  | indent (file : String) (write : Bool)
  | check (files : List String) (watch : Bool)
  | line (file : String) (line : Nat)
  | complete (file : String) (line column : Nat)
  deriving DecidableEq, Repr

structure Invocation where
  unit : Nat
  tab : Nat
  command : Command
  deriving DecidableEq, Repr

inductive Token where
  | endOfOptions
  | long (name : String) (value : Option String)
  | short (letters : List Char)
  | word (text : String)
  deriving DecidableEq, Repr

/-- The values of the environment variables. -/
abbrev Environment := String → Option String

def Token.ofArgument (arg : String) : Token :=
  match arg.toList with
  | ['-', '-'] => .endOfOptions
  | '-' :: '-' :: option =>
    let name := String.ofList (option.takeWhile (· != '='))
    match option.dropWhile (· != '=') with
    | _ :: value => .long name (some (String.ofList value))
    | [] => .long name none
  | '-' :: c :: letters => .short (c :: letters)
  | _ => .word arg

/-- Decimal digits after at most one plus sign, for a number below 2^64. -/
def number? (text : String) : Option Nat :=
  let digits := match text.toList with
    | '+' :: rest => rest
    | cs => cs
  let n := digits.foldl (fun n c => 10 * n + (c.toNat - 48)) 0
  if !digits.isEmpty && digits.all Char.isDigit && n < UInt64.size then some n else none

def Setting.ofName? : String → Option Setting
  | "indent-unit" => some unit
  | "tab-width" => some tab
  | _ => none

/-- The environment variable that stands in for the option. -/
def Setting.variableName : Setting → String
  | unit => "BFFINDENT_INDENT_UNIT"
  | tab => "BFFINDENT_TAB_WIDTH"

namespace Subcommand

def ofName? : String → Option Subcommand
  | "indent" => some indent
  | "check" => some check
  | "line" => some line
  | "complete" => some complete
  | _ => none

/-- What the operand with this index has to be; none if there is no such operand. -/
def operand? : Subcommand → Nat → Option Operand
  | check, _ => some .path
  | indent, 0 | line, 0 | complete, 0 => some .path
  | line, 1 | complete, 1 | complete, 2 => some .number
  | _, _ => none

/-- The command's own flag, which is spelled with a `w` in short. -/
def flag? : Subcommand → Option String
  | indent => some "write"
  | check => some "watch"
  | line | complete => none

/-- The command, if all its operands are there. -/
def command? (s : Subcommand) (flag : Bool) (operands : List String) : Option Command :=
  match s, operands with
  | indent, [file] => some (.indent file flag)
  | check, file :: files => some (.check (file :: files) flag)
  | line, [file, n] => (number? n).map (.line file)
  | complete, [file, n, c] => do return .complete file (← number? n) (← number? c)
  | _, _ => none

end Subcommand

/-- A path is not empty, and a number counts from one. -/
def Operand.accepts : Operand → String → Bool
  | path, text => !text.isEmpty
  | number, text => (number? text).any (0 < ·)

/-- What has been read before the command, or after it. -/
structure Level where
  unit : Option Nat
  tab : Option Nat
  /-- A setting that still lacks its value. -/
  awaiting : Option Setting
  /-- A setting whose value has not been looked at yet. -/
  pending : Option (Setting × String)
  flag : Bool
  operands : List String
  ended : Bool
  deriving DecidableEq, Repr

namespace Level

def start : Level := ⟨none, none, none, none, false, [], false⟩

def get (l : Level) : Setting → Option Nat
  | .unit => l.unit
  | .tab => l.tab

/-- Gives a setting its value, once. -/
def set (l : Level) (s : Setting) (text : String) : Except Stop Level :=
  match l.get s, number? text, s with
  | none, some n, .unit => .ok { l with unit := some n }
  | none, some n, .tab => .ok { l with tab := some n }
  | _, _, _ => .error .usage

/-- Looks at the value read last, before anything else is taken. -/
def settle (l : Level) : Except Stop Level :=
  match l.awaiting, l.pending with
  | some _, _ => .error .usage
  | none, some (s, text) => { l with pending := none }.set s text
  | none, none => .ok l

/-- Raises the command's own flag, once. -/
def raise (l : Level) : Except Stop Level :=
  if l.flag then .error .usage else .ok { l with flag := true }

/-- Takes a letter of a short option; `s` is the command, if it has been read. -/
def takeShort (s : Option Subcommand) (l : Level) (letter : Char) : Except Stop Level :=
  match letter, s with
  | 'v', _ => .ok l
  | 'h', _ => .error .help
  | 'V', none => .error .version
  | 'w', some s => if s.flag?.isSome then l.raise else .error .usage
  | _, _ => .error .usage

def takeLong (s : Option Subcommand) (l : Level) (name : String) (value : Option String) :
    Except Stop Level :=
  match Setting.ofName? name, value with
  | some setting, some text => l.set setting text
  | some setting, none => .ok { l with awaiting := some setting }
  | none, some _ => .error .usage
  | none, none =>
    if name = "verbose" then .ok l
    else if name = "help" then .error .help
    else if name = "version" ∧ s = none then .error .version
    else if s.bind Subcommand.flag? = some name then l.raise
    else .error .usage

def takeOperand (s : Option Subcommand) (l : Level) (text : String) : Except Stop Level :=
  match s.bind fun s => s.operand? l.operands.length with
  | some operand =>
    if operand.accepts text then .ok { l with operands := l.operands ++ [text] } else .error .usage
  | none => .error .usage

def take (s : Option Subcommand) (l : Level) (arg : String) : Except Stop Level := do
  if l.ended then takeOperand s (← l.settle) arg
  else match Token.ofArgument arg, l.awaiting with
    | .word text, some setting => return { l with awaiting := none, pending := some (setting, text) }
    | .word text, none => takeOperand s (← l.settle) text
    | .endOfOptions, _ => return { l with ended := true }
    | .long name value, _ => takeLong s (← l.settle) name value
    | .short letters, _ => letters.foldlM (takeShort s) (← l.settle)

end Level

/-- A setting's value from the two levels and the environment. The variable is looked at, and has
to be a number, unless both levels give the option. -/
def resolve (env : Environment) (outer inner : Level) (s : Setting) : Except Stop Nat :=
  let given := (inner.get s).orElse fun _ => outer.get s
  if (inner.get s).isSome && (outer.get s).isSome then .ok (given.getD 4)
  else match (env s.variableName).map number? with
    | some none => .error .usage
    | some (some n) => .ok (given.getD n)
    | none => .ok (given.getD 4)

/-- The arguments after the command, whose options and operands are then complete. -/
def readCommand (env : Environment) (outer : Level) (s : Subcommand) (args : List String) :
    Except Stop Invocation := do
  let inner ← (← args.foldlM (Level.take (some s)) Level.start).settle
  let outer ← outer.settle
  let unit ← resolve env outer inner .unit
  let tab ← resolve env outer inner .tab
  match s.command? inner.flag inner.operands with
  | some command => return ⟨unit, tab, command⟩
  | none => throw .usage

/-- Help may be asked for about one command. -/
def readHelp : List String → Stop
  | [] => .help
  | [topic] => if topic = "help" ∨ (Subcommand.ofName? topic).isSome then .help else .usage
  | _ => .usage

def readFrom (env : Environment) (outer : Level) : List String → Except Stop Invocation
  | [] => .error .usage
  | arg :: rest =>
    if outer.awaiting = none ∧ outer.ended = false ∧ arg = "help" then .error (readHelp rest)
    else match outer.awaiting, outer.ended, Subcommand.ofName? arg with
      | none, false, some s => readCommand env outer s rest
      | _, _, _ =>
        match outer.take none arg with
        | .ok next => readFrom env next rest
        | .error stop => .error stop

def read (env : Environment) (args : List String) : Except Stop Invocation := readFrom env Level.start args

end BffLayout.CommandLine
