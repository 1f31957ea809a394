import Comparand.Text.Integer

/-!
Arguments of commands. Options may stand before, between and behind the other arguments.

Long options start with two dashes and may carry a value behind an equals sign. Short ones start with one dash, can be
joined, and the last of them may carry a value. After two dashes alone no option follows. Arguments are read from left
to right, and the first that is wrong, or asks for help or for the version, decides.
-/

namespace Comparand

/-- What a value has to be. -/
inductive ValueKind where
  | text
  | path
  | count
deriving DecidableEq

/-- Counts are numbers of 64 bits. -/
def readCount? (value : String) : Option Nat := Text.readNat? (UInt64.size - 1) value.toList

def ValueKind.accepts : ValueKind → String → Bool
  | text, _ => true
  | path, value => !value.isEmpty
  | count, value => (readCount? value).isSome

/-- An argument that is no option. -/
structure Plain where
  kind : ValueKind
  /-- Whether it may start with a dash. -/
  takesDash : Bool := false

/-- The arguments that a command takes. -/
structure Signature where
  /-- Options without a value, by their long names. -/
  flags : List String := []
  /-- Options with a value. -/
  valued : List (String × ValueKind) := []
  /-- Short names of options. -/
  shorts : List (Char × String) := [('v', "verbose"), ('h', "help")]
  plain : List Plain := []

/-- What stands in for an action if the arguments name none. -/
inductive Refusal where
  | help
  | version
  | misuse
deriving DecidableEq

/-- Arguments that have been told apart. -/
structure Given where
  flags : List String := []
  values : List (String × String) := []
  plain : List String := []

namespace Given

def has (g : Given) (flag : String) : Bool := g.flags.contains flag

/-- Notes a flag, which may be given once. -/
def addFlag (g : Given) (flag : String) : Except Refusal Given :=
  if flag = "help" then .error .help
  else if flag = "version" then .error .version
  else if g.has flag then .error .misuse
  else .ok { g with flags := flag :: g.flags }

end Given

namespace Signature

def hasFlag (sig : Signature) (name : String) : Bool :=
  sig.flags.contains name || name = "verbose" || name = "help"

def hasValued (sig : Signature) (name : String) : Bool := (sig.valued.lookup name).isSome

/-- Notes the value of an option, which may be given once. -/
def addValue (sig : Signature) (g : Given) (option value : String) : Except Refusal Given :=
  if (g.values.lookup option).isSome then .error .misuse
  else
    match sig.valued.lookup option with
    | some kind => if kind.accepts value then .ok { g with values := (option, value) :: g.values } else .error .misuse
    | none => .error .misuse

/-- Notes a plain argument, if there is one more to come. -/
def addPlain (sig : Signature) (g : Given) (arg : String) : Except Refusal Given :=
  match sig.plain[g.plain.length]? with
  | some p => if p.kind.accepts arg then .ok { g with plain := g.plain ++ [arg] } else .error .misuse
  | none => .error .misuse

/-- Reads a long option, without its dashes. The result names an option whose value is still to come. -/
def long (sig : Signature) (g : Given) (body : List Char) : Except Refusal (Given × Option String) := do
  let name := String.ofList (body.takeWhile (· != '='))
  match sig.hasFlag name, sig.hasValued name, body.dropWhile (· != '=') with
  | true, _, [] => return (← g.addFlag name, none)
  | _, true, [] => return (g, some name)
  | _, true, _ :: value => return (← sig.addValue g name (String.ofList value), none)
  | _, _, _ => .error .misuse

/-- Reads joined short options. The result names an option whose value is still to come. -/
def short (sig : Signature) : Given → List Char → Except Refusal (Given × Option String)
  | g, [] => .ok (g, none)
  | g, c :: cs => do
    match sig.shorts.lookup c with
    | none => .error .misuse
    | some name =>
      if sig.hasValued name then
        match cs with
        | [] => return (g, some name)
        | '=' :: value | value => return (← sig.addValue g name (String.ofList value), none)
      else sig.short (← g.addFlag name) cs

/-- Whether the next plain argument may start with a dash. -/
def takesDash (sig : Signature) (g : Given) : Bool := (sig.plain[g.plain.length]?.map Plain.takesDash).getD false

/-- Whether an argument is a plain one. Where a dash may start it, only options that the command has are options. -/
def isPlain (sig : Signature) (g : Given) (arg : String) : Bool :=
  match arg.toList with
  | '-' :: '-' :: body =>
    let name := String.ofList (body.takeWhile (· != '='))
    sig.takesDash g && !sig.hasFlag name && !sig.hasValued name
  | '-' :: c :: cs => sig.takesDash g && (c :: cs).any fun c => (sig.shorts.lookup c).isNone
  | _ => true

/-- Reads an argument that is not a plain one. -/
def option (sig : Signature) (g : Given) (arg : String) : Except Refusal (Given × Option String) :=
  match arg.toList with
  | '-' :: '-' :: body => sig.long g body
  | _ :: body => sig.short g body
  | [] => .error .misuse

/-- Whether an argument can be the value of the option before it. -/
def isValue (arg : String) : Bool := arg = "-" || !arg.startsWith "-"

/-- Each plain argument has to be given. -/
def finish (sig : Signature) (g : Given) : Except Refusal Given :=
  if g.plain.length = sig.plain.length then .ok g else .error .misuse

def readFrom (sig : Signature) : Given → List String → Except Refusal Given
  | g, [] => sig.finish g
  | g, arg :: args => do
    if arg = "--" then sig.finish (← args.foldlM sig.addPlain g)
    else if sig.isPlain g arg then sig.readFrom (← sig.addPlain g arg) args
    else
      match ← sig.option g arg, args with
      | (g, none), args => sig.readFrom g args
      | (g, some name), value :: args =>
        if isValue value then sig.readFrom (← sig.addValue g name value) args else .error .misuse
      | (_, some _), [] => .error .misuse

/-- Tells arguments apart. -/
def read (sig : Signature) (args : List String) : Except Refusal Given := sig.readFrom {} args

end Signature
end Comparand
