import AssetEmbed.Text.Class

/-!
# Arguments — what the words of a command line ask for

A command has options and, between them, the words of its operands.  Options may be shortened to any
beginning that only one of them has, and may hold their value after an equals sign.  All operands stand
together, and after a lone `--` every word is an operand.
-/

namespace AssetEmbed

/-! ## 1. Options -/

inductive OptionName where
  | help
  | version
  | out
  | map
  | marker
  | encoding
  | config
  | dryRun
  | verbose
  | quiet
  deriving DecidableEq, Repr

/-- The long form of an option. -/
def OptionName.long : OptionName → String
  | .help => "--help"
  | .version => "--version"
  | .out => "--out"
  | .map => "--map"
  | .marker => "--marker"
  | .encoding => "--encoding"
  | .config => "--config"
  | .dryRun => "--dry-run"
  | .verbose => "--verbose"
  | .quiet => "--quiet"

def OptionName.short? : OptionName → Option String
  | .help => some "-h"
  | .version => some "-v"
  | _ => none

def OptionName.hasValue : OptionName → Bool
  | .out | .map | .marker | .encoding | .config => true
  | _ => false

/-- The option that a text is the full form of. -/
def optionOf? (options : List OptionName) (s : Text) : Option OptionName :=
  options.find? fun o => o.long.toList = s || o.short?.any (·.toList = s)

/-- The options whose long form begins with a text. -/
def optionsFrom (options : List OptionName) (s : Text) : List OptionName :=
  options.filter fun o => s.isPrefixOf o.long.toList

/-! ## 2. Words -/

inductive Word where
  | option (o : OptionName) (value : Option Text)
  | unknown
  /-- The first lone `--`. -/
  | separator
  | operand (s : Text)
  deriving DecidableEq, Repr

/-- A text before its first equals sign, and what follows it. -/
def splitValue (s : Text) : Text × Option Text :=
  match s.dropWhile (· ≠ '=') with
  | [] => (s, none)
  | _ :: value => (s.takeWhile (· ≠ '='), some value)

/-- Whether a text is a minus sign and a number, which is an operand. -/
def isNegativeNumber (s : Text) : Bool :=
  match s with
  | '-' :: rest =>
    let whole := rest.takeWhile Text.isDigit
    match rest.dropWhile Text.isDigit with
    | [] => whole ≠ []
    | '.' :: places => places ≠ [] && places.all Text.isDigit
    | _ => false
  | _ => false

/-- The word of a text that begins with a minus sign, and is no full form of an option; none if it could be
several options. -/
def looseWord? (options : List OptionName) (s : Text) : Option Word :=
  let other : Word :=
    if isNegativeNumber s || s.elem ' ' then .operand s else .unknown
  match s with
  | '-' :: '-' :: _ =>
    let (name, value) := splitValue s
    match optionOf? options name, optionsFrom options name with
    | some o, _ => some (.option o value)
    | none, [o] => some (.option o value)
    | none, [] => some other
    | none, _ => none
  | _ =>
    let (name, value) := splitValue s
    match optionOf? options name, optionOf? options (s.take 2) with
    | some o, _ => some (.option o value)
    -- an option of one letter may be followed by its value at once
    | none, some o => some (.option o (some (s.drop 2)))
    | none, none => some other

/-- The word of a text. -/
def wordOf? (options : List OptionName) (s : Text) : Option Word :=
  if s.head? ≠ some '-' || s.length = 1 then some (.operand s)
  else match optionOf? options s with
    | some o => some (.option o none)
    | none => looseWord? options s

def wordsOf? (options : List OptionName) : List Text → Option (List Word)
  | [] => some []
  | s :: rest =>
    if s = ['-', '-'] then some (.separator :: rest.map .operand)
    else do return (← wordOf? options s) :: (← wordsOf? options rest)

/-! ## 3. Arguments -/

structure Arguments where
  /-- The options, each with its value if it has one. -/
  options : List (OptionName × Option Text)
  /-- The operands, in runs between which there are options; the first lone `--` counts. -/
  runs : List (List Word)

def Arguments.afterOption (o : OptionName) (value : Option Text) (a : Arguments) : Arguments :=
  ⟨(o, value) :: a.options, [] :: a.runs⟩

def Arguments.afterOperand (w : Word) (a : Arguments) : Arguments :=
  match a.runs with
  | [] => ⟨a.options, [[w]]⟩
  | run :: runs => ⟨a.options, (w :: run) :: runs⟩

/-- The arguments of words.  An option with a value takes the next word, if it does not hold the value
itself; no other option holds a value. -/
def Arguments.ofWords? : List Word → Option Arguments
  | [] => some ⟨[], []⟩
  | .unknown :: _ => none
  | .option o value :: rest =>
    if o.hasValue then
      match value, rest with
      | some v, rest => (ofWords? rest).map (·.afterOption o (some v))
      | none, .operand v :: rest => (ofWords? rest).map (·.afterOption o (some v))
      | none, _ => none
    else if value.isSome then none
    else (ofWords? rest).map (·.afterOption o none)
  | w :: rest => (ofWords? rest).map (·.afterOperand w)

def Arguments.value? (a : Arguments) (o : OptionName) : Option Text :=
  (a.options.reverse.find? (·.1 = o)).bind (·.2)

def Arguments.has (a : Arguments) (o : OptionName) : Bool := a.options.any (·.1 = o)

/-- The operands, if they stand in one run. -/
def Arguments.operands? (a : Arguments) : Option (List Text) :=
  match a.runs.filter (· ≠ []) with
  | [run] => some (run.filterMap fun
    | .operand s => some s
    | _ => none)
  | _ => none

/-! ## 4. Commands -/

/-- What all commands can be told. -/
structure CommonArguments where
  config : Option Text
  verbose : Bool
  quiet : Bool
  deriving DecidableEq, Repr

/-- What a command line asks for. -/
inductive Command where
  | help
  | version
  | transform (file : Text) (out map marker encoding : Option Text) (common : CommonArguments)
  | build (source : Text) (out : Option Text) (dryRun : Bool) (common : CommonArguments)
  deriving DecidableEq, Repr

def commonOptions : List OptionName := [.config, .verbose, .quiet]

def CommonArguments.ofArguments (a : Arguments) : CommonArguments :=
  ⟨a.value? .config, a.has .verbose, a.has .quiet⟩

def Command.transformOf? (texts : List Text) : Option Command := do
  let words ← wordsOf? ([.help, .out, .map, .marker, .encoding] ++ commonOptions) texts
  let a ← Arguments.ofWords? words
  if a.has .help then return .help
  match ← a.operands? with
  | [file] =>
    return .transform file (a.value? .out) (a.value? .map) (a.value? .marker) (a.value? .encoding)
      (.ofArguments a)
  | _ => none

/-- The command to build a tree.  A second operand that is itself a `--` counts as none. -/
def Command.buildOf? (texts : List Text) : Option Command := do
  let words ← wordsOf? ([.help, .dryRun] ++ commonOptions) texts
  let a ← Arguments.ofWords? words
  if a.has .help then return .help
  match ← a.operands? with
  | [source] => return .build source none (a.has .dryRun) (.ofArguments a)
  | [source, out] =>
    return .build source (if out = ['-', '-'] then none else some out) (a.has .dryRun) (.ofArguments a)
  | _ => none

/-- The command that the texts of a command line ask for; `known` tells whether all words so far are.
Options before the name of a command stand alone. -/
def Command.ofTexts? (known : Bool) : List Text → Option Command
  | [] => none
  | s :: rest =>
    match wordOf? [.help, .version] s with
    | some (.option .help none) => some .help
    | some (.option .version none) => some .version
    | some .unknown => Command.ofTexts? false rest
    | some (.operand name) =>
      let command :=
        if name = "transform".toList then transformOf? rest
        else if name = "build".toList then buildOf? rest
        else none
      if known || command = some .help then command else none
    | _ => none

/-- The command of a command line. -/
def Command.ofArguments? (texts : List Text) : Option Command := Command.ofTexts? true texts

end AssetEmbed
