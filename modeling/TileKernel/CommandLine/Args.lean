/-!
# Command-line arguments

The compiler's command line names one catalogued kernel and the backend to emit it with, and may
override the lowering options: pipeline depths per loop or for every loop, the swizzle optimizer,
materializing copies, and the hardware parameters of the target (banks, bank width, matrix-unit
shape, lanes). It can also list the catalogue, print its help or its version.

`CommandLine.parse` reads the arguments in order. Long flags take their value after `=` or as the
next argument; the short flags `-t`, `-o` and `-v` may be clustered (`-vvtcuda`). A value that
looks like a flag is missing, every flag but `--stages` and `-v` may be given once, and a second
positional argument is unexpected. Help and version stop the reading where they stand. Numbers are read as
64-bit integers first and must then lie in the unsigned 32-bit range.
-/

set_option autoImplicit false

namespace TileKernel
namespace CommandLine

/-- The options of one compilation. Unset overrides leave the backend's target as it is. -/
structure Options where
  kernel : Option String := none
  list : Bool := false
  target : Option String := none
  output : Option String := none
  /-- Pipeline depths in the order given: for the named loop, or for every loop. -/
  stages : List (Option String × Nat) := []
  noSwizzle : Bool := false
  noCopies : Bool := false
  banks : Option Nat := none
  bankWidth : Option Nat := none
  /-- The matrix-unit shape `m × n × k`, or `some none` for no matrix unit. -/
  mma : Option (Option (Nat × Nat × Nat)) := none
  lanes : Option Nat := none
  lineInfo : Bool := false
  emitIr : Bool := false
  dryRun : Bool := false
  verbose : Nat := 0
deriving Inhabited

/-- The backend identifier used when none is given. -/
def defaultTarget : String := "ir-dump"

/-- The backend identifier the options select. -/
def Options.targetName (o : Options) : String := o.target.getD defaultTarget

/-- What the arguments ask for. -/
inductive Request where
  | help
  | version
  | compile (o : Options)

/-- A flag of the command line. -/
inductive Flag where
  | list | target | output | stages | noSwizzle | noCopies | banks | bankWidth | mma | lanes
  | lineInfo | emitIr | dryRun | verbose | help | version
deriving DecidableEq, Repr

namespace Flag

/-- Every flag, in the order the help lists them. -/
def all : List Flag :=
  [.list, .target, .output, .stages, .noSwizzle, .noCopies, .banks, .bankWidth, .mma, .lanes,
    .lineInfo, .emitIr, .dryRun, .verbose, .help, .version]

/-- The long name, without the dashes. -/
def long : Flag → String
  | .list => "list"
  | .target => "target"
  | .output => "output"
  | .stages => "stages"
  | .noSwizzle => "no-swizzle"
  | .noCopies => "no-copies"
  | .banks => "banks"
  | .bankWidth => "bank-width"
  | .mma => "mma"
  | .lanes => "lanes"
  | .lineInfo => "line-info"
  | .emitIr => "emit-ir"
  | .dryRun => "dry-run"
  | .verbose => "verbose"
  | .help => "help"
  | .version => "version"

/-- The one-letter name, for the flags that have one. -/
def short : Flag → Option Char
  | .target => some 't'
  | .output => some 'o'
  | .verbose => some 'v'
  | .help => some 'h'
  | .version => some 'V'
  | _ => none

/-- The name of the value a flag takes, for the flags that take one. -/
def valueName : Flag → Option String
  | .target => some "TARGET"
  | .output => some "OUTPUT"
  | .stages => some "STAGES"
  | .banks => some "BANKS"
  | .bankWidth => some "BANK_WIDTH"
  | .mma => some "MMA"
  | .lanes => some "LANES"
  | _ => none

/-- How messages name a flag: `--list`, or `--target <TARGET>` for one that takes a value. -/
def display (f : Flag) : String :=
  match f.valueName with
  | some v => s!"--{f.long} <{v}>"
  | none => s!"--{f.long}"

/-- The flag of a long name. -/
def ofLong? (name : String) : Option Flag := all.find? (·.long == name)

/-- The flag of a one-letter name. -/
def ofShort? (c : Char) : Option Flag := all.find? (·.short == some c)

end Flag

/-- A reason the arguments cannot be read. -/
inductive ArgError where
  | unexpected (arg : String)
  | unexpectedValue (value : String) (flag : Flag)
  | missingValue (flag : Flag)
  | invalidValue (value : String) (flag : Flag) (reason : String)
  | repeated (flag : Flag)

/-- The usage line. -/
def usage : String := "Usage: tilec [OPTIONS] [KERNEL]"

/-- The text printed for an argument error: the error, a tip or the usage where it helps, and a
pointer to the help. -/
def ArgError.text (e : ArgError) : String :=
  let more := "For more information, try '--help'.\n"
  match e with
  | .unexpected arg =>
    let tip := if arg.startsWith "-" then s!"  tip: to pass '{arg}' as a value, use '-- {arg}'\n\n"
      else ""
    s!"error: unexpected argument '{arg}' found\n\n" ++ tip ++ usage ++ "\n\n" ++ more
  | .unexpectedValue value flag =>
    s!"error: unexpected value '{value}' for '{flag.display}' found; no more were expected\n\n" ++
      usage ++ "\n\n" ++ more
  | .missingValue flag =>
    s!"error: a value is required for '{flag.display}' but none was supplied\n\n" ++ more
  | .invalidValue value flag reason =>
    s!"error: invalid value '{value}' for '{flag.display}': {reason}\n\n" ++ more
  | .repeated flag =>
    s!"error: the argument '{flag.display}' cannot be used multiple times\n\n" ++ usage ++ "\n\n" ++
      more

/-- The string without its first `n` characters. -/
def dropChars (n : Nat) (s : String) : String := String.ofList (s.toList.drop n)

/-- The value of a string of decimal digits; `none` for an empty string or another character. -/
def digitsValue? (s : String) : Option Nat :=
  if s.isEmpty || !s.all Char.isDigit then none
  else some (s.foldl (fun n c => 10 * n + (c.toNat - '0'.toNat)) 0)

/-- The largest unsigned 32-bit number. -/
def u32Max : Nat := 4294967295

/-- An unsigned 32-bit decimal with an optional `+` sign. -/
def readU32? (s : String) : Option Nat :=
  let digits := if s.startsWith "+" then dropChars 1 s else s
  match digitsValue? digits with
  | some n => if n ≤ u32Max then some n else none
  | none => none

/-- A signed 64-bit decimal with an optional sign, or the reason it is not one. -/
def readI64 (s : String) : Except String Int :=
  if s.isEmpty then .error "cannot parse integer from empty string" else
  let neg := s.startsWith "-"
  let digits := if neg || s.startsWith "+" then dropChars 1 s else s
  match digitsValue? digits with
  | none => .error "invalid digit found in string"
  | some n =>
    if neg then
      if n ≤ 9223372036854775808 then .ok (-(n : Int))
      else .error "number too small to fit in target type"
    else if n ≤ 9223372036854775807 then .ok n
    else .error "number too large to fit in target type"

/-- An unsigned 32-bit count, or the reason it is not one. -/
def readCount (s : String) : Except String Nat :=
  match readI64 s with
  | .error e => .error e
  | .ok v => if 0 ≤ v ∧ v ≤ u32Max then .ok v.toNat else .error s!"{v} is not in 0..={u32Max}"

/-- A pipeline depth: `LOOP=DEPTH` for one loop or `DEPTH` for every loop, the depth positive. -/
def readStages (s : String) : Except String (Option String × Nat) :=
  let (name, depth) := match s.splitOn "=" with
    | [d] => (none, d)
    | n :: rest => (some n, "=".intercalate rest)
    | [] => (none, s)
  match readU32? depth with
  | some d => if 0 < d then .ok (name, d)
    else .error s!"invalid pipeline depth '{depth}', expected a positive integer"
  | none => .error s!"invalid pipeline depth '{depth}', expected a positive integer"

/-- A matrix-unit shape `MxNxK` with positive sides, or `none` for no matrix unit. -/
def readMma (s : String) : Except String (Option (Nat × Nat × Nat)) :=
  if s == "none" then .ok none else
  let bad := s!"invalid MMA shape '{s}', expected MxNxK"
  match (s.splitOn "x").mapM readU32? with
  | some [m, n, k] => if 0 < m ∧ 0 < n ∧ 0 < k then .ok (some (m, n, k)) else .error bad
  | _ => .error bad

/-- Records a flag that takes no value; a second use is an error, except for `-v`, which
counts. -/
def Options.setSwitch (o : Options) (f : Flag) : Except ArgError Options :=
  let once := fun (seen : Bool) (o' : Options) => if seen then .error (ArgError.repeated f) else .ok o'
  match f with
  | .list => once o.list { o with list := true }
  | .noSwizzle => once o.noSwizzle { o with noSwizzle := true }
  | .noCopies => once o.noCopies { o with noCopies := true }
  | .lineInfo => once o.lineInfo { o with lineInfo := true }
  | .emitIr => once o.emitIr { o with emitIr := true }
  | .dryRun => once o.dryRun { o with dryRun := true }
  | .verbose => .ok { o with verbose := o.verbose + 1 }
  | _ => .ok o

/-- Records a flag with its value; a second use is an error, except for `--stages`, which
collects. -/
def Options.setValue (o : Options) (f : Flag) (v : String) : Except ArgError Options :=
  let read := fun {α : Type} (r : String → Except String α) =>
    match r v with
    | .ok a => Except.ok a
    | .error reason => .error (ArgError.invalidValue v f reason)
  let once := fun {α : Type} (current : Option α) (r : String → Except String α)
      (put : α → Options) =>
    if current.isSome then Except.error (ArgError.repeated f) else (read r).map put
  match f with
  | .target => once o.target .ok fun a => { o with target := some a }
  | .output => once o.output .ok fun a => { o with output := some a }
  | .stages => (read readStages).map fun a => { o with stages := o.stages ++ [a] }
  | .banks => once o.banks readCount fun a => { o with banks := some a }
  | .bankWidth => once o.bankWidth readCount fun a => { o with bankWidth := some a }
  | .mma => once o.mma readMma fun a => { o with mma := some a }
  | .lanes => once o.lanes readCount fun a => { o with lanes := some a }
  | _ => .ok o

/-- Whether an argument reads as a flag rather than a value. -/
def looksLikeFlag (arg : String) : Bool := arg.startsWith "-" && arg != "-"

/-- Records the positional argument, the kernel's name; there is only one. -/
def Options.setKernel (o : Options) (arg : String) : Except ArgError Options :=
  if o.kernel.isSome then .error (.unexpected arg) else .ok { o with kernel := some arg }

/-- The outcome of reading one flag: the options so far and the arguments left, or a request
that ends the reading. -/
abbrev Step := Except ArgError (Except Request (Options × List String))

/-- Reads a flag that takes a value, from `inline` when the argument held one, else from the next
argument. -/
def takeValue (o : Options) (f : Flag) (inline : Option String) (rest : List String) : Step :=
  match inline, rest with
  | some v, _ => (o.setValue f v).map fun o => .ok (o, rest)
  | none, v :: rest' =>
    if looksLikeFlag v then .error (.missingValue f) else (o.setValue f v).map fun o => .ok (o, rest')
  | none, [] => .error (.missingValue f)

/-- Reads one flag: help and version end the reading, a switch must come without a value. -/
def takeFlag (o : Options) (f : Flag) (inline : Option String) (rest : List String) : Step :=
  match f, f.valueName, inline with
  | .help, _, _ => .ok (.error .help)
  | .version, _, _ => .ok (.error .version)
  | _, some _, _ => takeValue o f inline rest
  | _, none, some v => .error (.unexpectedValue v f)
  | _, none, none => (o.setSwitch f).map fun o => .ok (o, rest)

/-- Reads a cluster of one-letter flags; a flag taking a value takes the cluster's remainder
(after an optional `=`) or else the next argument. -/
def takeCluster (o : Options) (rest : List String) : List Char → Step
  | [] => .ok (.ok (o, rest))
  | c :: cs =>
    match Flag.ofShort? c with
    | none => .error (.unexpected s!"-{c}")
    | some f =>
      if f.valueName.isSome then
        let v := String.ofList (match cs with
          | '=' :: vs => vs
          | _ => cs)
        takeFlag o f (if v.isEmpty then none else some v) rest
      else
        match takeFlag o f none rest with
        | .ok (.ok (o', rest')) => takeCluster o' rest' cs
        | other => other

/-- Reads one argument: `--name[=value]`, a cluster `-abc`, or the kernel's name. -/
def takeArg (o : Options) (arg : String) (rest : List String) : Step :=
  if arg.startsWith "--" then
    let body := dropChars 2 arg
    let (name, inline) := match body.splitOn "=" with
      | [n] => (n, none)
      | n :: vs => (n, some ("=".intercalate vs))
      | [] => (body, none)
    match Flag.ofLong? name with
    | some f => takeFlag o f inline rest
    | none => .error (.unexpected arg)
  else if looksLikeFlag arg then takeCluster o rest (arg.toList.drop 1)
  else (o.setKernel arg).map fun o => .ok (o, rest)

/-- After `--`, every argument is positional. -/
def takePositionals (o : Options) : List String → Except ArgError Options
  | [] => .ok o
  | arg :: rest => do takePositionals (← o.setKernel arg) rest

/-- Reads the arguments in order. Each step consumes at least the argument it reads. -/
def parseFrom (o : Options) (args : List String) : Except ArgError Request :=
  match args with
  | [] => .ok (.compile o)
  | "--" :: rest => (takePositionals o rest).map .compile
  | arg :: rest =>
    match takeArg o arg rest with
    | .error e => .error e
    | .ok (.error r) => .ok r
    | .ok (.ok (o', rest')) =>
      if rest'.length ≤ rest.length then parseFrom o' rest' else .ok (.compile o')
termination_by args.length

/-- Reads a command line, without the program's name. -/
def parse (args : List String) : Except ArgError Request := parseFrom {} args

end CommandLine
end TileKernel
