import Wordcode.Command.Flags
import Wordcode.Elementary
import Wordcode.Files
import Wordcode.Text.LetterCase
import Wordcode.Yaml.Decode

namespace Wordcode.Command

/-! # Settings

A setting has a value from one of three sources: a flag, a variable of the environment, or a
configuration file, in this order. The three agree on names: the setting `max-depth` is the flag
`--max-depth`, the variable `FRAMEVM_MAX_DEPTH` and the key `max-depth` of the file.

* `Sources.load` reads the configuration file.
* `Settings.value?` finds the value of a setting.
* `truthOf`, `numberOf` and `textOf` read a value as what the setting needs.
-/

/-- Where settings come from, apart from flags. -/
structure Sources where
  /-- The variables of the environment. -/
  environment : List (String × String) := []
  /-- The entries of the configuration file, keys in lower case. -/
  config : List (String × Datum) := []
  deriving Inhabited

namespace Sources

/-- The names that a configuration file can have, the preferred one first. -/
def configNames : List String := ["framevm.json", "framevm.yaml", "framevm.yml"]

/-- The entries of a configuration file. -/
def readConfig (bytes : List UInt8) : List (String × Datum) :=
  match Yaml.decode bytes Yaml.Decoder.record with
  | .ok (some entries) => entries.map fun (name, d) => (name.map Text.toLower, d)
  | _ => []

/-- The sources that files and an environment give. The configuration file is looked for in the
working directory first, then in the home directory. -/
def load (files : Files) (home : String) (environment : List (String × String)) : Sources :=
  let paths := configNames ++ configNames.map (home ++ "/" ++ ·)
  let found? := paths.findSome? fun path => (files.read path).toOption
  { environment, config := (found?.map readConfig).getD [] }

end Sources

/-! ## Readings -/

/-- Cuts zeros after a point off the end of a numeral, together with the point. -/
def dropZeroFraction (text : String) : String :=
  let reversed := text.toList.reverse
  let zeros := reversed.takeWhile (· = '0')
  match reversed.drop zeros.length with
  | '.' :: whole => if zeros.isEmpty then text else String.ofList whole.reverse
  | _ => text

/-- A value as a truth value; what cannot be read is false. -/
def truthOf : Datum → Bool
  | .bool _ b => b
  | .int _ n => n ≠ 0
  | .float _ x => x != 0
  | .str _ s => (readTruth? s).getD false
  | _ => false

/-- A value as a number; what cannot be read is zero. -/
def numberOf : Datum → Int
  | .bool _ b => b.toNat
  | .int _ n => Int.bmod n Word.modulus
  | .float _ x => (Elementary.toWord x).toInt
  | .str _ s =>
    match Decimal.readMarkedInt (dropZeroFraction s) with
    | .value n => n.toInt
    | _ => 0
  | _ => 0

/-- A value as a text; what cannot be read is empty. -/
def textOf : Datum → String
  | .bool _ b => if b then "true" else "false"
  | .int _ n => toString n
  | .float _ x =>
    match Decimal.decode x with
    | .nan => "NaN"
    | .infinite negative => if negative then "-Inf" else "+Inf"
    | .finite negative m e =>
      let body := (Decimal.shortest m e).plain
      String.ofList (if negative then '-' :: body else body)
  | .str _ s => s
  | .stray _ s => s.shown
  | .other _ text => text
  | _ => ""

/-! ## Lookup -/

/-- The settings of a command. -/
structure Settings where
  arguments : Arguments := {}
  sources : Sources := {}
  deriving Inhabited

namespace Settings

/-- The variable of the environment for a setting. -/
def variableName (name : String) : String :=
  "FRAMEVM_" ++ name.map fun c => if c = '-' then '_' else c.toUpper

/-- The value that a setting has. An empty variable and a null entry count as absent. -/
def value? (s : Settings) (name : String) : Option Datum :=
  let ofText (text : String) := Datum.str Datum.strType text
  match s.arguments.text? name with
  | some text => some (ofText text)
  | none =>
    match s.sources.environment.lookup (variableName name) with
    | some text => if text = "" then ofConfig else some (ofText text)
    | none => ofConfig
where
  /-- The value in the configuration file. -/
  ofConfig : Option Datum :=
    match s.sources.config.reverse.lookup name with
    | some .null => none
    | d? => d?

/-- A setting that is a truth value. -/
def isOn (s : Settings) (name : String) : Bool := ((s.value? name).map truthOf).getD false

/-- A setting that is a number. -/
def number (s : Settings) (name : String) (default : Int) : Int :=
  ((s.value? name).map numberOf).getD default

/-- A setting that is a text. -/
def text (s : Settings) (name : String) : String := ((s.value? name).map textOf).getD ""

end Settings

end Wordcode.Command
