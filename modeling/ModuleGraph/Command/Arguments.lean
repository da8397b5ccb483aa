import ModuleGraph.Text.Blank
import ModuleGraph.Value.Basic

/-! The arguments of a command line. An option is written with two dashes and its name, or with
one dash and a letter; letters may be run together, and a value follows in the same argument or in
the next. After an argument of two dashes nothing is an option. -/

namespace ModuleGraph

/-- An option of a command. -/
structure OptionForm where
  name : Text
  letter : Option Char := none
  hasValue : Bool := false
  deriving Repr, DecidableEq

/-- The options that were given, flags in their order, and the other arguments. -/
structure Given where
  flags : List Text := []
  values : Entries Text := []
  others : List Text := []
  deriving Repr, DecidableEq

namespace Given

def hasFlag (g : Given) (name : Text) : Bool := g.flags.contains name

/-- The value of an option; the last one counts. -/
def value? (g : Given) (name : Text) : Option Text := Entries.get? name g.values

def addFlags (names : List Text) (g : Given) : Given := { g with flags := names ++ g.flags }

/-- A value given before the others. -/
def addValue (name value : Text) (g : Given) : Given :=
  if (g.value? name).isSome then g else { g with values := Entries.put name value g.values }

def addOther (arg : Text) (g : Given) : Given := { g with others := arg :: g.others }

/-- The number that an argument stands for. Blanks around it do not count. -/
def number? (t : Text) : Option Int :=
  let (negative, digits) := match Text.trim t with
    | '-' :: rest => (true, rest)
    | '+' :: rest => (false, rest)
    | rest => (false, rest)
  let groups := digits.splitOn '_'
  if groups.all fun g => !g.isEmpty && g.all Char.isDigit then
    let n : Int := (groups.flatten.foldl (fun n c => n * 10 + (c.toNat - 48)) 0 : Nat)
    some (if negative then -n else n)
  else none

end Given

namespace Arguments

/-- What letters run together stand for: flags, and at the end perhaps an option with a value that
begins in the same argument. -/
def letters? (forms : List OptionForm) : Text → Option (List Text × Option (Text × Text))
  | [] => some ([], none)
  | c :: rest =>
    match forms.find? (·.letter == some c) with
    | none => none
    | some form =>
      if form.hasValue then some ([], some (form.name, rest))
      else (letters? forms rest).map fun (flags, last) => (form.name :: flags, last)

/-- The name of a long option, and the value after an equals sign. -/
def splitLong (t : Text) : Text × Option Text :=
  let name := t.takeWhile (· != '=')
  match t.drop name.length with
  | [] => (name, none)
  | _ :: value => (name, some value)

/-- What one argument stands for. -/
inductive Meaning
  | onlyOthers
  | flags (names : List Text)
  | valued (names : List Text) (name value : Text)
  | needsValue (names : List Text) (name : Text)
  | other
  | wrong

def longMeaning (forms : List OptionForm) (t : Text) : Meaning :=
  let (name, value) := splitLong t
  match forms.find? (·.name = name), value with
  | none, _ => .wrong
  | some form, none => if form.hasValue then .needsValue [] form.name else .flags [form.name]
  | some form, some value => if form.hasValue then .valued [] form.name value else .wrong

def meaning (forms : List OptionForm) (arg : Text) : Meaning :=
  match arg with
  | ['-', '-'] => .onlyOthers
  | ['-'] => .other
  | '-' :: '-' :: rest => longMeaning forms rest
  | '-' :: rest =>
    match letters? forms rest with
    | none => .wrong
    | some (flags, none) => .flags flags
    | some (flags, some (name, [])) => .needsValue flags name
    | some (flags, some (name, value)) => .valued flags name value
  | _ => .other

/-- The options among the arguments; `none` if one of them is wrong. Unless options may stand
`anywhere`, the first argument that is none ends them. -/
def read (forms : List OptionForm) (anywhere : Bool) : List Text → Option Given
  | [] => some {}
  | arg :: rest =>
    match meaning forms arg with
    | .onlyOthers => some { others := rest }
    | .flags names => (read forms anywhere rest).map (Given.addFlags names)
    | .valued names name value =>
      (read forms anywhere rest).map fun g => (g.addValue name value).addFlags names
    | .needsValue names name =>
      match rest with
      | [] => none
      | value :: rest =>
        (read forms anywhere rest).map fun g => (g.addValue name value).addFlags names
    | .other =>
      if anywhere then (read forms anywhere rest).map (Given.addOther arg)
      else some { others := arg :: rest }
    | .wrong => none

end Arguments
end ModuleGraph
