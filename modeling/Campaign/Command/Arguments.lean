import Campaign.Number.Decimal
import Campaign.Number.Word
import Campaign.Risk.Score

/-!
# Command lines

The commands of the program and how they are written. An option has its value in the next argument
or after an equals sign; in the next argument it may not look like an option. After `--` every
argument stands for itself. Arguments are taken from left to right, and the first one that does not
fit ends the reading, as does a request for help.
-/

namespace Campaign

/-- Where the content score of a launch comes from. -/
inductive ContentSource where
  | score (score : Nat)
  /-- It is the number of variations of a template. -/
  | template (template : String)
  deriving Repr, DecidableEq

/-- A command. A template that is not given is read from the input. -/
inductive Command where
  | count (template : Option String)
  | segment (template : Option String)
  | sample (template : Option String) (seed : Option Nat) (times : Nat)
  | expand (template : Option String) (limit : Nat)
  | fold (alternatives : List String)
  | unfold (template : Option String)
  | risk (input : Risk.Input)
  | fleet (recipients : Nat) (content : Option ContentSource)

/-- Whether a command reads its template from the input. -/
def Command.readsInput : Command → Bool
  | count template | segment template | unfold template => template.isNone
  | sample template _ _ => template.isNone
  | expand template _ => template.isNone
  | fold _ | risk _ | fleet _ _ => false

/-- What a command line asks for. -/
inductive Request where
  | help
  | version
  | command (command : Command)

/-- The arguments that a command takes. -/
structure Usage where
  /-- The names of its options, and whether a text is a value for each. -/
  options : List (String × (String → Bool))
  /-- The most arguments it takes beside its options, or none if there is no limit. -/
  operands : Option Nat

/-- The arguments of a command, told apart. -/
structure Arguments where
  options : List (String × String)
  operands : List String

/-- What arguments come to. -/
inductive Scan where
  | help
  | arguments (arguments : Arguments)

/-- Adds an operand, if one more is allowed. -/
def Usage.addOperand? (u : Usage) (a : Arguments) (operand : String) : Option Arguments :=
  if u.operands.any (· ≤ a.operands.length) then none
  else some { a with operands := a.operands ++ [operand] }

/-- Adds an option, if its value fits and it was not given before. -/
def Usage.addOption? (u : Usage) (a : Arguments) (name value : String) : Option Arguments := do
  let accepts ← u.options.lookup name
  if (a.options.lookup name).isSome || !accepts value then none
  else some { a with options := a.options ++ [(name, value)] }

/-- Whether an argument looks like an option. -/
def looksLikeOption (argument : String) : Bool :=
  argument.startsWith "-" && argument ≠ "-"

/-- The name of an option written with two dashes, and the value after its equals sign, if it has
one. -/
def optionParts (argument : String) : String × Option String :=
  let (name, rest) := (argument.toList.drop 2).span (· ≠ '=')
  (String.ofList name, match rest with
    | '=' :: value => some (String.ofList value)
    | _ => none)

/-- Tells arguments apart, added to those before; nothing if one does not fit. -/
def Usage.scan? (u : Usage) (a : Arguments) (literal : Bool) : List String → Option Scan
  | [] => some (.arguments a)
  | argument :: rest =>
    if literal || !looksLikeOption argument then
      match u.addOperand? a argument with
      | some a => u.scan? a literal rest
      | none => none
    else if argument = "--" then u.scan? a true rest
    else if !argument.startsWith "--" then
      if argument.startsWith "-h" then some .help else none
    else
      match optionParts argument with
      | ("help", none) => some .help
      | (name, some value) =>
        match u.addOption? a name value with
        | some a => u.scan? a literal rest
        | none => none
      | (name, none) =>
        match rest with
        | [] => none
        | value :: rest =>
          if looksLikeOption value then none
          else
            match u.addOption? a name value with
            | some a => u.scan? a literal rest
            | none => none

def isWord (text : String) : Bool := (readNat? wordMax text.toList).isSome

def isDouble (text : String) : Bool := (readFloat? text.toList).isSome

def isTime (text : String) : Bool := (readInt? int64Min int64Max text.toList).isSome

def Arguments.text? (a : Arguments) (name : String) : Option String := a.options.lookup name

def Arguments.word? (a : Arguments) (name : String) : Option Nat :=
  (a.text? name).bind fun text => readNat? wordMax text.toList

def Arguments.double? (a : Arguments) (name : String) : Option Float :=
  (a.text? name).bind fun text => readFloat? text.toList

def Arguments.time? (a : Arguments) (name : String) : Option Int :=
  (a.text? name).bind fun text => readInt? int64Min int64Max text.toList

/-- How a command is written, and the command that its arguments make; nothing if a required one is
missing or two exclude each other. -/
structure Form where
  usage : Usage
  build? : Arguments → Option Command

/-- A command that takes a template and nothing else. -/
def templateForm (make : Option String → Command) : Form where
  usage := ⟨[], some 1⟩
  build? a := some (make a.operands.head?)

def formOf? : String → Option Form
  | "count" => some (templateForm .count)
  | "segment" => some (templateForm .segment)
  | "unfold" => some (templateForm .unfold)
  | "sample" => some
    { usage := ⟨[("seed", isWord), ("times", isWord)], some 1⟩
      build? a := some (.sample a.operands.head? (a.word? "seed") ((a.word? "times").getD 1)) }
  | "expand" => some
    { usage := ⟨[("limit", isWord)], some 1⟩
      build? a := some (.expand a.operands.head? ((a.word? "limit").getD 1000)) }
  | "fold" => some
    { usage := ⟨[], none⟩
      build? a := if a.operands.isEmpty then none else some (.fold a.operands) }
  | "risk" => some
    { usage := ⟨[("planned", isWord), ("delay", isDouble), ("variations", isWord),
        ("limit", isWord), ("used", isDouble), ("last-activity", isTime)], some 0⟩
      build? a := do
        let plannedMessages ← a.word? "planned"
        let averageDelay ← a.double? "delay"
        return .risk
          { plannedMessages, averageDelay
            contentScore := (a.word? "variations").getD 1
            dailyLimit := (a.word? "limit").getD 0
            usedLastDay := (a.double? "used").getD 0.0
            lastActivity := a.time? "last-activity" } }
  | "fleet" => some
    { usage := ⟨[("recipients", isWord), ("template", fun _ => true), ("variations", isWord)],
        some 0⟩
      build? a := do
        let recipients ← a.word? "recipients"
        match a.text? "template", a.word? "variations" with
        | some _, some _ => none
        | some template, none => return .fleet recipients (some (.template template))
        | none, some score => return .fleet recipients (some (.score score))
        | none, none => return .fleet recipients none }
  | _ => none

/-- Whether help can be had about some words: none, or one that names a command or help itself. -/
def isHelpTopic : List String → Bool
  | [] => true
  | [name] => name = "help" || (formOf? name).isSome
  | _ => false

/-- What a command line asks for; nothing if it does not fit. -/
def Request.ofArguments? : List String → Option Request
  | [] => none
  | first :: rest =>
    if first = "--version" || first.startsWith "-V" then some .version
    else if first = "--help" || first.startsWith "-h" then some .help
    else if first = "help" then if isHelpTopic rest then some .help else none
    else
      match formOf? first with
      | none => none
      | some form =>
        match form.usage.scan? ⟨[], []⟩ false rest with
        | none => none
        | some .help => some .help
        | some (.arguments a) => (form.build? a).map .command

end Campaign
