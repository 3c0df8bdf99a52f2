/-!
# Command-line arguments

Arguments are read from left to right; the first fault, or the first request for help or for the
version, ends the reading. A long option may carry its value after an equals sign, a short one right
behind its letter; `--` makes everything after it a file name.
-/

namespace ModuleBridge

structure Arguments where
  files : List String
  project : Option String
  outFolder : Option String
  baseUrl : Option String
  hoistImports : Bool
  explicitRenames : Bool
  noAwaitWrapper : Bool
  strict : Bool
  printOutline : Bool
  init : Bool
  listFiles : Bool
  verbose : Bool
deriving DecidableEq, Repr

def Arguments.empty : Arguments :=
  ⟨[], none, none, none, false, false, false, false, false, false, false, false⟩

inductive ValueOption where
  | project
  | outFolder
  | baseUrl
deriving DecidableEq, Repr

inductive FlagOption where
  | hoistImports
  | explicitRenames
  | noAwaitWrapper
  | strict
  | printOutline
  | init
  | listFiles
  | verbose
deriving DecidableEq, Repr

inductive CommandOption where
  | value (option : ValueOption)
  | flag (option : FlagOption)
  | help
  | version
deriving DecidableEq, Repr

def longOptions : List (String × CommandOption) :=
  [("project", .value .project), ("out-dir", .value .outFolder), ("base-url", .value .baseUrl),
    ("hoist-imports", .flag .hoistImports), ("explicit-renames", .flag .explicitRenames),
    ("no-await-wrapper", .flag .noAwaitWrapper), ("strict", .flag .strict),
    ("print-ast", .flag .printOutline), ("init", .flag .init), ("list-files", .flag .listFiles),
    ("verbose", .flag .verbose), ("help", .help), ("version", .version)]

def shortOptions : List (Char × CommandOption) :=
  [('p', .value .project), ('v', .flag .verbose), ('h', .help), ('V', .version)]

inductive ArgumentStop where
  | help
  | version
  | unknownOption (text : String)
  | valueMissing (option : ValueOption)
  | valueNotTaken (text : String)
  | repeatedValue (option : ValueOption)
  | repeatedFlag (option : FlagOption)
deriving DecidableEq, Repr

namespace ValueOption

def get? (o : ValueOption) (a : Arguments) : Option String :=
  match o with
  | project => a.project
  | outFolder => a.outFolder
  | baseUrl => a.baseUrl

def put (o : ValueOption) (value : String) (a : Arguments) : Arguments :=
  match o with
  | project => { a with project := some value }
  | outFolder => { a with outFolder := some value }
  | baseUrl => { a with baseUrl := some value }

/-- Take the value of an option, which may be given only once. -/
def take (o : ValueOption) (value : String) (a : Arguments) : Except ArgumentStop Arguments :=
  if (o.get? a).isSome then .error (.repeatedValue o) else .ok (o.put value a)

end ValueOption

namespace FlagOption

def isSet (o : FlagOption) (a : Arguments) : Bool :=
  match o with
  | hoistImports => a.hoistImports
  | explicitRenames => a.explicitRenames
  | noAwaitWrapper => a.noAwaitWrapper
  | strict => a.strict
  | printOutline => a.printOutline
  | init => a.init
  | listFiles => a.listFiles
  | verbose => a.verbose

def set (o : FlagOption) (a : Arguments) : Arguments :=
  match o with
  | hoistImports => { a with hoistImports := true }
  | explicitRenames => { a with explicitRenames := true }
  | noAwaitWrapper => { a with noAwaitWrapper := true }
  | strict => { a with strict := true }
  | printOutline => { a with printOutline := true }
  | init => { a with init := true }
  | listFiles => { a with listFiles := true }
  | verbose => { a with verbose := true }

/-- Set a flag, which may be given only once. -/
def take (o : FlagOption) (a : Arguments) : Except ArgumentStop Arguments :=
  if o.isSet a then .error (.repeatedFlag o) else .ok (o.set a)

end FlagOption

/-- The arguments read so far, and an option that still waits for its value. -/
structure ArgumentState where
  arguments : Arguments
  awaiting : Option ValueOption
deriving DecidableEq, Repr

/-- A long option by its name, and the text after its equals sign. -/
def takeLong (a : Arguments) (name : String) (value : Option String) :
    Except ArgumentStop ArgumentState :=
  match longOptions.lookup name, value with
  | none, _ => .error (.unknownOption ("--" ++ name))
  | some (.value o), some text => (o.take text a).map (⟨·, none⟩)
  | some (.value o), none => .ok ⟨a, some o⟩
  | some _, some _ => .error (.valueNotTaken ("--" ++ name))
  | some (.flag o), none => (o.take a).map (⟨·, none⟩)
  | some .help, none => .error .help
  | some .version, none => .error .version

def takeShort (a : Arguments) : List Char → Except ArgumentStop ArgumentState
  | [] => .ok ⟨a, none⟩
  | letter :: rest =>
    match shortOptions.lookup letter with
    | none => .error (.unknownOption (String.ofList ['-', letter]))
    | some (.value o) =>
      match rest with
      | [] => .ok ⟨a, some o⟩
      | '=' :: value => (o.take (String.ofList value) a).map (⟨·, none⟩)
      | value => (o.take (String.ofList value) a).map (⟨·, none⟩)
    | some (.flag o) =>
      match o.take a with
      | .ok a => takeShort a rest
      | .error stop => .error stop
    | some .help => .error .help
    | some .version => .error .version

/-- Split an option at its first equals sign. -/
def splitOption (option : List Char) : String × Option String :=
  let name := option.takeWhile (· != '=')
  let value := match option.dropWhile (· != '=') with
    | [] => none
    | _ :: value => some (String.ofList value)
  (String.ofList name, value)

/-- An option may not begin while another one waits for its value. -/
def refuseAwaiting (state : ArgumentState) : Except ArgumentStop Unit :=
  match state.awaiting with
  | some o => .error (.valueMissing o)
  | none => .ok ()

def takeArgument (state : ArgumentState) (argument : String) : Except ArgumentStop ArgumentState :=
  match argument.toList with
  | '-' :: '-' :: option =>
    let (name, value) := splitOption option
    if (longOptions.lookup name).isNone then .error (.unknownOption argument)
    else do
      refuseAwaiting state
      takeLong state.arguments name value
  | '-' :: letter :: rest => do
      refuseAwaiting state
      takeShort state.arguments (letter :: rest)
  | _ =>
    match state.awaiting with
    | some o => (o.take argument state.arguments).map (⟨·, none⟩)
    | none =>
      .ok ⟨{ state.arguments with files := state.arguments.files ++ [argument] }, none⟩

def takeArguments : ArgumentState → List String → Except ArgumentStop Arguments
  | state, [] => do
      refuseAwaiting state
      return state.arguments
  | state, "--" :: files => do
      refuseAwaiting state
      return { state.arguments with files := state.arguments.files ++ files }
  | state, argument :: rest => do takeArguments (← takeArgument state argument) rest

def Arguments.parse (arguments : List String) : Except ArgumentStop Arguments :=
  takeArguments ⟨.empty, none⟩ arguments

end ModuleBridge
