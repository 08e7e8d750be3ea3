import Lineage.Command
import Lineage.Command.Usage

/-!
# Lineage.Command.Arguments

Reading a command line.  It has two levels: the options before the command,
and the options and words after it.  An option takes the argument after it as
its value unless that looks like an option itself; the value is checked only
when the next option or word comes, or at the end of the level.  Options of
the first level may stand on the second one too, where they replace those of
the first.
-/

namespace Lineage

/-! ## options -/

/-- The options that take a value. -/
inductive OptionName where
  | head
  | config
  | headSet
  | sort
  | visibleHead
  | matching
deriving DecidableEq, Repr

namespace OptionName

/-- How an option is written, after two dashes. -/
def name : OptionName → String
  | .head => "head"
  | .config => "config"
  | .headSet => "head-set"
  | .sort => "sort"
  | .visibleHead => "visible-head"
  | .matching => "match"

/-- Whether an option may be given once only. -/
def isSingle : OptionName → Bool
  | .config | .sort => true
  | _ => false

/-- Whether an option accepts a value. -/
def accepts : OptionName → String → Bool
  | .sort, value => (SortKind.ofText? value).isSome
  | _, _ => true

end OptionName

/-! ## levels -/

/-- The part of a command line before the command, or after it. -/
inductive Level where
  | outer
  | inner (verb : Verb)
deriving DecidableEq, Repr

namespace Level

/-- The options of a level. -/
def options : Level → List OptionName
  | .outer => [.head, .config]
  | .inner .contains => [.head, .config, .headSet]
  | .inner .view => [.head, .config, .sort, .visibleHead, .matching]
  | .inner _ => [.head, .config]

/-- What a flag with a long name asks for. -/
def longFlag? (level : Level) (name : String) : Option Usage :=
  if name = "help" then some .help
  else if name = "version" ∧ level = .outer then some .version
  else none

/-- What a flag of one letter asks for. -/
def shortFlag? (level : Level) (letter : Char) : Option Usage :=
  if letter = 'h' then some .help
  else if letter = 'V' ∧ level = .outer then some .version
  else none

/-- Whether another word is expected after `count` words. -/
def takesWord : Level → Nat → Bool
  | .inner .children, count => count == 0
  | .inner .branches, count => count == 0
  | .inner .contains, _ => true
  | _, _ => false

end Level

/-- Whether a word names a command, the request for help included. -/
def isCommandName (word : String) : Bool := word == "help" || (Verb.ofName? word).isSome

/-- The answer to a request for help on the command that some words name. -/
def helpOn : List String → Usage
  | [] => .help
  | [word] => if isCommandName word then .help else .unknownCommand
  | _ => .unknownCommand

/-! ## arguments -/

/-- An argument by its shape. -/
inductive Argument where
  /-- Two dashes: only words follow. -/
  | rest
  /-- An option after two dashes, with the value after its equals sign. -/
  | long (name : String) (value : Option String)
  /-- Letters after one dash. -/
  | short (first : Char)
  | word
deriving DecidableEq, Repr

/-- The shape of an argument. -/
def Argument.ofText (text : String) : Argument :=
  match text.toList with
  | '-' :: '-' :: [] => .rest
  | '-' :: '-' :: cs =>
    let name := String.ofList (cs.takeWhile (· != '='))
    match cs.dropWhile (· != '=') with
    | _ :: value => .long name (some (String.ofList value))
    | [] => .long name none
  | '-' :: c :: _ => .short c
  | _ => .word

/-- What has been read of a level. -/
structure Reading where
  /-- The values of the options, in order. -/
  given : List (OptionName × String) := []
  words : List String := []
  /-- The option read last, with its value if that has come. -/
  pending : Option (OptionName × Option String) := none
deriving DecidableEq, Repr

namespace Reading

/-- Whether the next argument may be the value of an option. -/
def isAwaiting (s : Reading) : Bool := s.pending.any (·.2.isNone)

/-- Takes the value of an option. -/
def give (s : Reading) (o : OptionName) (value : String) : Except Usage Reading :=
  if o.isSingle && s.given.any (·.1 == o) then .error .repeatedOption
  else if o.accepts value then .ok { s with given := s.given ++ [(o, value)] }
  else .error .badValue

/-- Takes the value of the option read last. -/
def settle (s : Reading) : Except Usage Reading :=
  match s.pending with
  | none => .ok s
  | some (_, none) => .error .missingValue
  | some (o, some value) => { s with pending := none }.give o value

/-- The reading after an option or a flag with a long name. -/
def long (s : Reading) (level : Level) (name : String) (value : Option String) :
    Except Usage Reading :=
  match level.options.find? (·.name == name), level.longFlag? name, value with
  | some o, _, some value => s.settle.bind (·.give o value)
  | some o, _, none => s.settle.map fun s => { s with pending := some (o, none) }
  | none, some _, some _ => .error .excessValue
  | none, some flag, none => s.settle.bind fun _ => .error flag
  | none, none, _ => .error .unknownArgument

/-- The reading after a flag of one letter. -/
def short (s : Reading) (level : Level) (letter : Char) : Except Usage Reading :=
  match level.shortFlag? letter with
  | some flag => s.settle.bind fun _ => .error flag
  | none => .error .unknownArgument

/-- The reading after a word that is no command; `isRest` says whether only
words follow. -/
def word (s : Reading) (level : Level) (isRest : Bool) (text : String) : Except Usage Reading :=
  if level.takesWord s.words.length then
    s.settle.map fun s => { s with words := s.words ++ [text] }
  else if level = .outer ∧ ¬(isRest ∧ isCommandName text) then .error .unknownCommand
  else .error .unknownArgument

/-- The reading after an argument that is no command. -/
def argument (s : Reading) (level : Level) (text : String) : Except Usage Reading :=
  match Argument.ofText text, s.pending with
  | .long name value, _ => s.long level name value
  | .short letter, _ => s.short level letter
  | _, some (o, none) => .ok { s with pending := some (o, some text) }
  | _, _ => s.word level false text

/-- The values of an option. -/
def values (s : Reading) (o : OptionName) : List String :=
  s.given.filterMap fun (p, value) => if p = o then some value else none

/-- The value of an option that may be given once. -/
def value? (s : Reading) (o : OptionName) : Option String := (s.values o).head?

end Reading

/-! ## command lines -/

/-- The reading of a level, and its command with the arguments after that. -/
def readLevel (level : Level) (s : Reading) (isRest : Bool) :
    List String → Except Usage (Reading × Option (Verb × List String))
  | [] => .ok (s, none)
  | text :: args =>
    if isRest then (s.word level true text).bind fun s => readLevel level s true args
    else if level = .outer ∧ !s.isAwaiting ∧ isCommandName text then
      match Verb.ofName? text with
      | some verb => .ok (s, some (verb, args))
      | none => .error (helpOn args)
    else if Argument.ofText text = .rest then readLevel level s true args
    else (s.argument level text).bind fun s => readLevel level s false args

/-- The question that a level asks once it has been read. -/
def Reading.command (s : Reading) : Verb → Except Usage Command
  | .list => .ok .list
  | .children =>
    match s.words with
    | [commit] => .ok (.children commit)
    | _ => .error .missingArgument
  | .branches =>
    match s.words with
    | [commit] => .ok (.branches commit)
    | _ => .error .missingArgument
  | .contains =>
    if s.values .headSet = [] ∨ s.words = [] then .error .missingArgument
    else .ok (.contains (s.values .headSet) s.words)
  | .view =>
    .ok (.view ((s.value? .sort).bind SortKind.ofText?) (s.values .visibleHead)
      (s.values .matching))

/-- The invocation that a list of arguments makes. -/
def Invocation.ofArguments (args : List String) : Except Usage Invocation := do
  let (outer, command) ← readLevel .outer {} false args
  match command with
  | none =>
    let outer ← outer.settle
    .error (if outer.given = [] then .nothing else .noCommand)
  | some (verb, args) =>
    let (inner, _) ← readLevel (.inner verb) {} false args
    let inner ← inner.settle
    let command ← inner.command verb
    let outer ← outer.settle
    let heads := inner.values .head
    pure
      { heads := if heads = [] then outer.values .head else heads
        config := (inner.value? .config).or (outer.value? .config)
        command }

end Lineage
