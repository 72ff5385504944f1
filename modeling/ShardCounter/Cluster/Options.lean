import ShardCounter.Decimal.Digits
/-! Command-line options of a convergence run. An option's value is checked when the next option is
met or the arguments end, so an argument that can never be right is reported before it. -/
namespace ShardCounter

structure Options where
  replicas : UInt64 := 4
  increments : UInt64 := 200
  syncs : UInt64 := 500
  seed : Option UInt64 := none
  /-- The most replicas of the scaling analysis, if there is to be one. -/
  scaleTo : Option UInt64 := none
deriving DecidableEq

inductive OptionError where
  | missingValue
  | unreadableValue
  | repeated
  | unknownArgument
  | unwantedValue
  /-- Not a mistake: the help was asked for. -/
  | helpRequested
deriving DecidableEq

def OptionError.message : OptionError → String
  | .missingValue => "an option lacks its value"
  | .unreadableValue => "the value of an option is no number of 64 bits"
  | .repeated => "an option is given more than once"
  | .unknownArgument => "unknown argument"
  | .unwantedValue => "the help option takes no value"
  | .helpRequested =>
    "Convergence stress test for replicated counters\n\n" ++
    "  --replicas <n>     number of simulated nodes (4)\n" ++
    "  --increments <n>   local increments of each node (200)\n" ++
    "  --syncs <n>        random exchanges before the final round (500)\n" ++
    "  --seed <n>         seed of the workload, random if not given\n" ++
    "  --scale-to <n>     run the scaling analysis up to this many replicas\n" ++
    "  -h, --help         print this help"

namespace Options

inductive Key where
  | replicas
  | increments
  | syncs
  | seed
  | scaleTo
deriving DecidableEq

def Key.ofName? : String → Option Key
  | "replicas" => some .replicas
  | "increments" => some .increments
  | "syncs" => some .syncs
  | "seed" => some .seed
  | "scale-to" => some .scaleTo
  | _ => none

def set (o : Options) (key : Key) (value : UInt64) : Options :=
  match key with
  | .replicas => { o with replicas := value }
  | .increments => { o with increments := value }
  | .syncs => { o with syncs := value }
  | .seed => { o with seed := some value }
  | .scaleTo => { o with scaleTo := some value }

/-- What a single argument is, whatever stands around it. -/
inductive Argument where
  | option (key : Key) (attached : Option String)
  | help (attached : Option String)
  | endOfOptions
  | value (text : String)
  | unknown
deriving DecidableEq

def Argument.ofLong (text : List Char) : Argument :=
  let name := String.ofList (text.takeWhile (· ≠ '='))
  let attached := match text.dropWhile (· ≠ '=') with
    | [] => none
    | _ :: rest => some (String.ofList rest)
  if name = "help" then .help attached
  else match Key.ofName? name with
    | some key => .option key attached
    | none => .unknown

/-- A dash alone is a value, and a dash before a number makes an unknown option of it. -/
def Argument.ofText (text : String) : Argument :=
  match text.toList with
  | ['-', '-'] => .endOfOptions
  | '-' :: '-' :: rest => .ofLong rest
  | '-' :: 'h' :: _ => .help none
  | '-' :: _ :: _ => .unknown
  | _ => .value text

/-- The values accepted so far, and the option whose value is not accepted yet. -/
structure Reading where
  options : Options := {}
  given : List Key := []
  awaiting : Option (Key × Option String) := none

namespace Reading

def accept (r : Reading) (key : Key) (text : String) : Except OptionError Reading :=
  if key ∈ r.given then .error .repeated
  else match Decimal.nat? text.toList with
    | some n =>
      if n < UInt64.size then
        .ok { options := r.options.set key (UInt64.ofNat n), given := key :: r.given }
      else .error .unreadableValue
    | none => .error .unreadableValue

def settle (r : Reading) : Except OptionError Reading :=
  match r.awaiting with
  | none => .ok r
  | some (_, none) => .error .missingValue
  | some (key, some text) => r.accept key text

def readAll (r : Reading) : List String → Except OptionError Reading
  | [] => r.settle
  | text :: rest =>
    match Argument.ofText text with
    | .option key none => do readAll { ← r.settle with awaiting := some (key, none) } rest
    | .option key (some value) => do readAll (← (← r.settle).accept key value) rest
    | .help none => do
      let _ ← r.settle
      throw .helpRequested
    | .help (some _) => .error .unwantedValue
    | .endOfOptions => if rest.isEmpty then r.settle else .error .unknownArgument
    | .value text =>
      match r.awaiting with
      | some (key, none) => readAll { r with awaiting := some (key, some text) } rest
      | _ => .error .unknownArgument
    | .unknown => .error .unknownArgument

end Reading

def ofArguments (arguments : List String) : Except OptionError Options :=
  Reading.options <$> Reading.readAll {} arguments

end Options
end ShardCounter
