import ResourceAudit.Path

/-!
# ResourceAudit.Arguments

The command line.  Arguments are taken one after the other; the value of an
option or of the solution is only looked at when the next thing is taken, so an
argument that nobody knows is told of before a bad value right in front of it.
-/

namespace ResourceAudit

/-- What a run is asked to do. -/
structure Arguments where
  solution : Option Path
  msbuildPath : Option Path
  sdkVersion : Option String
  listToolchains : Bool
  verbose : Bool
  deriving DecidableEq, Repr

/-- The arguments of an empty command line. -/
def Arguments.none : Arguments := ⟨.none, .none, .none, false, false⟩

/-- The arguments there are. -/
inductive Arg where
  | solution
  | msbuildPath
  | sdkVersion
  | listToolchains
  | verbose
  | help
  | version
  deriving DecidableEq, Repr

/-- The name of an option behind two hyphens. -/
def Arg.long? : Arg → Option String
  | .solution => .none
  | .msbuildPath => some "msbuild-path"
  | .sdkVersion => some "sdk-version"
  | .listToolchains => some "list-toolchains"
  | .verbose => some "verbose"
  | .help => some "help"
  | .version => some "version"

/-- The letter of an option behind one hyphen. -/
def Arg.short? : Arg → Option Char
  | .verbose => some 'v'
  | .help => some 'h'
  | .version => some 'V'
  | _ => .none

/-- The options, in the order in which help lists them. -/
def Arg.options : List Arg :=
  [.msbuildPath, .sdkVersion, .listToolchains, .verbose, .help, .version]

/-- Whether an argument has a value. -/
def Arg.hasValue : Arg → Bool
  | .solution | .msbuildPath | .sdkVersion => true
  | _ => false

/-- An argument as messages show it. -/
def Arg.shown : Arg → String
  | .solution => "[SOLUTION]"
  | .msbuildPath => "--msbuild-path <PATH>"
  | .sdkVersion => "--sdk-version <VERSION>"
  | arg => "--" ++ arg.long?.getD ""

/-! ## refusals -/

/-- Why a command line is not run. -/
inductive Refusal where
  | help
  | version
  /-- There is no solution; `used` holds the options that are given. -/
  | noSolution (used : List Arg)
  | repeated (arg : Arg)
  | noValue (arg : Arg)
  | unneededValue (arg : Arg) (value : String) (used : List Arg)
  /-- An argument nobody knows, with the option that may be meant; `maybeValue`
  tells whether it may be meant as a solution. -/
  | unknown (text : String) (meant : Option Arg) (maybeValue : Bool) (used : List Arg)
  deriving DecidableEq, Repr

/-- The usage line, with the arguments that are given if there are any, each
once. -/
def usage (used : List Arg) : String :=
  if used.isEmpty then "Usage: resxdup [OPTIONS] [SOLUTION]"
  else
    let options := (used.filter (· ≠ .solution)).eraseDups.map Arg.shown
    let solution := if used.contains .solution then "<SOLUTION>" else "[SOLUTION]"
    "Usage: " ++ " ".intercalate ("resxdup" :: options ++ [solution])

/-- The text of the help. -/
def helpText : String :=
  "\n".intercalate [
    "A fast CLI tool for finding duplicate resx resource values across .NET solutions",
    "",
    usage [],
    "",
    "Arguments:",
    "  [SOLUTION]  Solution file (.sln or .slnx) to analyze",
    "",
    "Options:",
    "      --msbuild-path <PATH>    MSBuild directory or dotnet root to use (overrides config file)",
    "      --sdk-version <VERSION>  Use the SDK with exactly this version instead of the newest one",
    "      --list-toolchains        List discovered MSBuild instances and exit",
    "  -v, --verbose                Enable verbose output",
    "  -h, --help                   Print help",
    "  -V, --version                Print version",
    ""]

/-- What a refusal says in its first paragraph. -/
def Refusal.cause : Refusal → String
  | .help => helpText
  | .version => "resxdup 0.1.0\n"
  | .noSolution _ => "the following required arguments were not provided:\n  <SOLUTION>"
  | .repeated arg => s!"the argument '{arg.shown}' cannot be used multiple times"
  | .noValue arg => s!"a value is required for '{arg.shown}' but none was supplied"
  | .unneededValue arg value _ =>
    s!"unexpected value '{value}' for '{arg.shown}' found; no more were expected"
  | .unknown text _ _ _ => s!"unexpected argument '{text}' found"

/-- What a refusal advises to do. -/
def Refusal.tip? : Refusal → Option String
  | .unknown _ (some arg) _ _ => some ("a similar argument exists: '--" ++ arg.long?.getD "" ++ "'")
  | .unknown text .none true _ => some s!"to pass '{text}' as a value, use '-- {text}'"
  | _ => .none

/-- The usage line a refusal shows. -/
def Refusal.usage? : Refusal → Option String
  | .help | .version | .noValue _ => .none
  | .noSolution used => some (usage (used ++ [.solution]))
  | .repeated _ => some (usage [])
  | .unneededValue _ _ used => some (usage used)
  | .unknown _ _ _ used => some (usage used)

/-- What a refusal prints. -/
def Refusal.message (r : Refusal) : String :=
  match r with
  | .help | .version => r.cause
  | _ =>
    let tip := r.tip?.elim "" fun tip => "  tip: " ++ tip ++ "\n\n"
    let line := r.usage?.elim "" (· ++ "\n\n")
    "error: " ++ r.cause ++ "\n\n" ++ tip ++ line ++ "For more information, try '--help'.\n"

/-- The exit code of a run that is refused. -/
def Refusal.code : Refusal → Nat
  | .help | .version => 0
  | _ => 2

/-! ## similar names -/

/-- Marks the first of the unmarked characters within reach that is equal to
`c`; none if there is none.  `j` is the place of the first one. -/
def markFirst (c : Char) (low high : Nat) (j : Nat) :
    List (Char × Bool) → Option (List (Char × Bool))
  | [] => .none
  | (d, marked) :: rest =>
    if low ≤ j ∧ j < high ∧ c = d ∧ !marked then some ((d, true) :: rest)
    else (markFirst c low high (j + 1) rest).map ((d, marked) :: ·)

/-- The characters of `a` that find a partner in `b` within reach, and `b` with
these partners marked. -/
def matchChars (reach : Nat) (i : Nat) (b : List (Char × Bool)) :
    List Char → List Char × List (Char × Bool)
  | [] => ([], b)
  | c :: rest =>
    match markFirst c (i - reach) (i + reach + 1) 0 b with
    | some b' =>
      let (found, final) := matchChars reach (i + 1) b' rest
      (c :: found, final)
    | .none => matchChars reach (i + 1) b rest

/-- How similar two names are, from 0 to 1, by their common characters and how
many of them are out of order. -/
def similarity (a b : List Char) : Float :=
  let reach := max a.length b.length / 2 - 1
  let (found, marked) := matchChars reach 0 (b.map (·, false)) a
  let partners := (marked.filter (·.2)).map (·.1)
  let moved := ((found.zip partners).filter fun (c, d) => c ≠ d).length / 2
  let ratio (m n : Nat) : Float := m.toFloat / n.toFloat
  if found.isEmpty then 0
  else
    (ratio found.length a.length + ratio found.length b.length
      + ratio (found.length - moved) found.length) / 3

/-- The option whose name is most similar, if it is similar enough; the last of
equals. -/
def similarOption (name : List Char) : Option Arg :=
  let candidates := Arg.options.filterMap fun arg =>
    arg.long?.map fun long => (arg, similarity name long.toList)
  let better (best : Option (Arg × Float)) (new : Arg × Float) : Option (Arg × Float) :=
    if 0.7 < new.2 then
      match best with
      | some (_, value) => if value ≤ new.2 then some new else best
      | .none => some new
    else best
  (candidates.foldl better .none).map (·.1)

/-! ## taking arguments -/

/-- What is known in the middle of a command line. -/
structure ArgumentState where
  arguments : Arguments
  /-- The arguments that have been taken, in order. -/
  taken : List Arg
  /-- An argument whose value has not been looked at, with the value. -/
  pending : Option (Arg × Option String)
  /-- Whether the pending argument still waits for its value. -/
  waiting : Bool
  hasSolution : Bool
  /-- Whether only solutions may follow. -/
  onlyValues : Bool
  deriving DecidableEq, Repr

def ArgumentState.start : ArgumentState := ⟨.none, [], .none, false, false, false⟩

/-- Stores an argument with its value. -/
def Arguments.store (a : Arguments) (arg : Arg) (value : String) : Arguments :=
  match arg with
  | .solution => { a with solution := some ⟨value⟩ }
  | .msbuildPath => { a with msbuildPath := some ⟨value⟩ }
  | .sdkVersion => { a with sdkVersion := some value }
  | .listToolchains => { a with listToolchains := true }
  | .verbose => { a with verbose := true }
  | .help | .version => a

/-- Takes an argument that may be given once, with its value.  The state is
that after the attempt, whether it succeeds or not. -/
def ArgumentState.take (s : ArgumentState) (arg : Arg) (value : Option String) :
    ArgumentState × Option Refusal :=
  match arg.hasValue, value with
  | true, .none => (s, some (.noValue arg))
  | _, _ =>
    if s.taken.contains arg then
      ({ s with taken := s.taken.filter (· ≠ arg) }, some (.repeated arg))
    else
      let s := { s with taken := s.taken ++ [arg] }
      let value := value.getD ""
      if value.isEmpty && (arg = .solution || arg = .msbuildPath) then (s, some (.noValue arg))
      else ({ s with arguments := s.arguments.store arg value }, .none)

/-- Looks at the value that is pending. -/
def ArgumentState.settle (s : ArgumentState) : ArgumentState × Option Refusal :=
  match s.pending with
  | .none => (s, .none)
  | some (arg, value) => { s with pending := .none, waiting := false }.take arg value

/-- Goes on with a settled state. -/
def ArgumentState.settled (s : ArgumentState) : Except Refusal ArgumentState :=
  match s.settle with
  | (_, some refusal) => .error refusal
  | (s, .none) => .ok s

/-- Takes an argument right away. -/
def ArgumentState.takeNow (s : ArgumentState) (arg : Arg) (value : Option String) :
    Except Refusal ArgumentState := do
  let s ← s.settled
  match arg with
  | .help => throw .help
  | .version => throw .version
  | _ =>
    match s.take arg value with
    | (_, some refusal) => throw refusal
    | (s, .none) => return s

/-- Takes an option behind two hyphens, with the value behind its equals sign. -/
def ArgumentState.takeLong (s : ArgumentState) (name : List Char) (value : Option String) :
    Except Refusal ArgumentState :=
  match Arg.options.find? (·.long? == some (.ofList name)), value with
  | some arg, some value =>
    if arg.hasValue then s.takeNow arg (some value)
    else .error (.unneededValue arg value (s.taken ++ [arg]))
  | some arg, .none =>
    if arg.hasValue then do
      let s ← s.settled
      return { s with pending := some (arg, .none), waiting := true }
    else s.takeNow arg .none
  | .none, _ =>
    let taken := s.settle.1.taken
    match similarOption name with
    | some arg =>
      let used := if taken.contains arg then taken else taken ++ [arg]
      .error (.unknown ("--" ++ .ofList name) (some arg) true used)
    | .none => .error (.unknown ("--" ++ .ofList name) .none true taken)

/-- Takes the letters behind one hyphen. -/
def ArgumentState.takeShort (s : ArgumentState) : List Char → Except Refusal ArgumentState
  | [] => .ok s
  | c :: rest =>
    match Arg.options.find? (·.short? == some c) with
    | some arg => do (← s.takeNow arg .none).takeShort rest
    | .none => .error (.unknown ("-" ++ c.toString) .none true [])

/-- Takes a value: that of the option that waits for one, or the solution. -/
def ArgumentState.takeValue (s : ArgumentState) (value : String) : Except Refusal ArgumentState :=
  match s.pending, s.waiting && !s.onlyValues with
  | some (arg, _), true => .ok { s with pending := some (arg, some value), waiting := false }
  | _, _ =>
    if s.hasSolution then .error (.unknown value .none false [])
    else do
      let s ← s.settled
      return { s with pending := some (.solution, some value), hasSolution := true }

/-- Takes one word of a command line. -/
def ArgumentState.takeWord (s : ArgumentState) (word : String) : Except Refusal ArgumentState :=
  if s.onlyValues then s.takeValue word
  else match word.toList with
    | ['-', '-'] => .ok { s with onlyValues := true }
    | '-' :: '-' :: long =>
      let name := long.takeWhile (· != '=')
      match long.drop name.length with
      | _ :: value => s.takeLong name (some (.ofList value))
      | [] => s.takeLong name .none
    | '-' :: c :: rest => s.takeShort (c :: rest)
    | _ => s.takeValue word

/-- The arguments that the words of a command line give. -/
def Arguments.ofWords (words : List String) : Except Refusal Arguments := do
  let s ← words.foldlM ArgumentState.takeWord ArgumentState.start
  let s ← s.settled
  if s.hasSolution || s.arguments.listToolchains then return s.arguments
  else throw (.noSolution s.taken)

end ResourceAudit
