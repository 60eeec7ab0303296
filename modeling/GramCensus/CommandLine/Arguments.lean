import GramCensus.Settings

/-!
# Arguments of the command line

Eight arguments stand in a fixed order: the directory, the length of the n-grams, their number, the
overage, the number of workers, the verbosity, whether results of all passes are written, and the
beginning of the paths of the results. Two options may stand anywhere between them. Arguments are
read from left to right, and what is wrong with an earlier one is found before a later one is looked
at.
-/

namespace GramCensus

/-- What a command line asks for. -/
structure Arguments where
  directory : Path
  settings : Settings
  deriving DecidableEq, Repr

/-- What a command line comes to. -/
inductive Request where
  | run (arguments : Arguments)
  /-- A text about the program is asked for. -/
  | about
  /-- The command line cannot be read. -/
  | misuse
  deriving DecidableEq, Repr

namespace Arguments

/-! ## Values -/

/-- The largest value of an argument that is a number. -/
def largestNumber : Nat := (1 <<< 64) - 1

/-- A decimal number, perhaps behind a plus sign, that is not larger than `most`. -/
def number? (most : Nat) (text : List Char) : Option Nat :=
  let digits := match text with
    | '+' :: rest => rest
    | rest => rest
  if digits.isEmpty || !digits.all Char.isDigit then none
  else
    let value := digits.foldl (fun value c => 10 * value + (c.toNat - 48)) 0
    if value ≤ most then some value else none

/-- A decimal number, perhaps behind a sign, that is not below zero and not larger than `most`. -/
def signedNumber? (most : Nat) (text : List Char) : Option Nat :=
  match text with
  | '-' :: '+' :: _ => none
  | '-' :: rest => number? 0 rest
  | rest => number? most rest

/-- The words for yes. -/
def yesWords : List String := ["y", "yes", "t", "true", "on", "1"]

/-- The words for no. -/
def noWords : List String := ["n", "no", "f", "false", "off", "0"]

/-- A word for yes or no in any case. -/
def switch? (text : List Char) : Option Bool :=
  let word := String.ofList (text.map Char.toLower)
  if yesWords.contains word then some true
  else if noWords.contains word then some false
  else none

/-- A path, which has at least one character. -/
def path? (text : List Char) : Option Path :=
  if text.isEmpty then none else some text

/-! ## Reading from left to right -/

/-- What was read so far: the number of positional arguments, their values over those that are set
unless something else is asked for, and the options. -/
structure Draft where
  placed : Nat
  arguments : Arguments
  groupSize : Option Nat
  chunkSize : Option Nat
  deriving DecidableEq, Repr

/-- Nothing read. -/
def Draft.empty : Draft where
  placed := 0
  arguments := ⟨[], .usual⟩
  groupSize := none
  chunkSize := none

/-- The number of positional arguments. -/
def positions : Nat := 8

/-- The largest verbosity. -/
def largestVerbosity : Nat := 255

/-- Reads the next positional argument. -/
def Draft.place? (draft : Draft) (text : List Char) : Option Draft := do
  let arguments := draft.arguments
  let settings := arguments.settings
  let arguments ← match draft.placed with
    | 0 => (path? text).map fun directory => { arguments with directory }
    | 1 => (number? largestNumber text).map fun gramLength =>
      { arguments with settings := { settings with gramLength } }
    | 2 => (number? largestNumber text).map fun limit =>
      { arguments with settings := { settings with limit } }
    | 3 => (Binary64.read? text).map fun overage =>
      { arguments with settings := { settings with overage } }
    | 4 => (number? largestNumber text).map fun workers =>
      { arguments with settings := { settings with workers } }
    | 5 => (signedNumber? largestVerbosity text).map fun _ => arguments
    | 6 => (switch? text).map fun recordAll =>
      { arguments with settings := { settings with recordAll } }
    | 7 => (path? text).map fun stem =>
      { arguments with settings := { settings with outputStem := some stem } }
    | _ => none
  return { draft with placed := draft.placed + 1, arguments }

/-- Reads all arguments as positional ones. -/
def Draft.placeAll? (draft : Draft) : List (List Char) → Option Draft
  | [] => some draft
  | text :: rest => (draft.place? text).bind fun longer => longer.placeAll? rest

/-- The options that take a number. -/
inductive OptionName where
  | groupSize
  | chunkSize
  deriving DecidableEq, Repr

/-- The option of a name. -/
def option? (name : List Char) : Option OptionName :=
  if name = "group-size".toList then some .groupSize
  else if name = "chunk-size".toList then some .chunkSize
  else none

/-- Reads the value of an option, which may be given once. -/
def Draft.setOption? (draft : Draft) (name : OptionName) (text : List Char) : Option Draft := do
  let value ← number? largestNumber text
  match name with
  | .groupSize =>
    if draft.groupSize.isSome then none else some { draft with groupSize := some value }
  | .chunkSize =>
    if draft.chunkSize.isSome then none else some { draft with chunkSize := some value }

/-- The request that a draft makes when nothing is left to be read. -/
def Draft.request (draft : Draft) : Request :=
  if draft.placed < positions then .misuse
  else
    let settings := draft.arguments.settings
    .run { draft.arguments with
      settings := { settings with
        groupSize := draft.groupSize.getD Settings.usual.groupSize
        chunkSize := draft.chunkSize.getD Settings.usual.chunkSize } }

/-- The parts of a text before and behind its first equals sign. -/
def splitValue (text : List Char) : List Char × Option (List Char) :=
  match text.dropWhile (· ≠ '=') with
  | [] => (text, none)
  | _ :: value => (text.takeWhile (· ≠ '='), some value)

/-- An argument that begins with a hyphen and is not only one. -/
def looksLikeOption (text : List Char) : Bool :=
  match text with
  | '-' :: _ :: _ => true
  | _ => false

/-- Reads arguments from left to right. -/
def readFrom (draft : Draft) : List (List Char) → Request
  | [] => draft.request
  | ('-' :: '-' :: []) :: rest =>
    match draft.placeAll? rest with
    | none => .misuse
    | some full => full.request
  | ('-' :: '-' :: text) :: rest =>
    match splitValue text with
    | (name, some value) =>
      match (option? name).bind fun option => draft.setOption? option value with
      | none => .misuse
      | some more => readFrom more rest
    | (name, none) =>
      if name = "help".toList ∨ name = "version".toList then .about
      else match option? name with
        | none => .misuse
        | some option =>
          match rest with
          | [] => .misuse
          | value :: others =>
            if looksLikeOption value then .misuse
            else match draft.setOption? option value with
              | none => .misuse
              | some more => readFrom more others
  | ('-' :: c :: _) :: _ => if c = 'h' ∨ c = 'V' then .about else .misuse
  | text :: rest =>
    match draft.place? text with
    | none => .misuse
    | some longer => readFrom longer rest

/-- Reads the arguments of a command line. -/
def read (arguments : List (List Char)) : Request :=
  readFrom .empty arguments

end Arguments

end GramCensus
