import AsyncErasure.Command.Standard.Json
import AsyncErasure.Journal
import AsyncErasure.Text.Identifier
import AsyncErasure.Text.Unprintable

/-!
How events are kept and written: a filter keeps those that are severe enough for their target, and
each is a line of its own.
-/

namespace AsyncErasure

namespace Severity

def rank : Severity → Nat
  | trace => 0
  | debug => 1
  | info => 2
  | warn => 3
  | error => 4

def text : Severity → String
  | trace => "TRACE"
  | debug => "DEBUG"
  | info => "INFO"
  | warn => "WARN"
  | error => "ERROR"

/-- The name at its right end in five columns. -/
def column (s : Severity) : String := "".pushn ' ' (5 - s.text.length) ++ s.text

end Severity

namespace Detail

def isUnprintable (c : Char) : Bool :=
  if Text.isAscii c then c.toNat < 0x20 || c.toNat = 0x7f
  else Text.inRanges Text.unprintableRanges c

/-- How a character shows between quotes; one without a shape shows as its code point. -/
def escapeChar (c : Char) : String :=
  if c = '"' then "\\\""
  else if c = '\\' then "\\\\"
  else if c = '\n' then "\\n"
  else if c = '\r' then "\\r"
  else if c = '\t' then "\\t"
  else if c.toNat = 0 then "\\0"
  else if isUnprintable c then
    "\\u\x7b" ++ String.ofList (Nat.toDigits 16 c.toNat) ++ "\x7d"
  else c.toString

def display : Detail → String
  | text value => value
  | quoted value => "\"" ++ String.join (value.toList.map escapeChar) ++ "\""
  | number value => toString value

def json : Detail → Json
  | text value => .str value
  | quoted value => .str value
  | number value => .num value

end Detail

namespace Event

def line (e : Event) : String :=
  e.severity.column ++ " " ++ e.target ++ ": " ++ e.message ++
    String.join (e.details.map fun (name, detail) => " " ++ name ++ "=" ++ detail.display)

def json (e : Event) : Json :=
  .obj [("level", .str e.severity.text),
    ("fields", .obj (("message", .str e.message) ::
      e.details.map fun (name, detail) => (name, detail.json))),
    ("target", .str e.target)]

end Event

/-- What a filter lets through: events from targets that begin with `scope`, from `least` on, or
none at all. -/
structure Directive where
  scope : String
  least : Option Severity
deriving DecidableEq, Repr

namespace Directive

/-- The thresholds by name or number; the outer option tells a threshold from any other word. -/
def threshold? (word : String) : Option (Option Severity) :=
  [("off", none), ("0", none), ("error", some .error), ("1", some .error), ("warn", some .warn),
   ("2", some .warn), ("info", some .info), ("3", some .info), ("debug", some .debug),
   ("4", some .debug), ("trace", some .trace), ("5", some .trace)].lookup
    (String.ofList (word.toList.map Char.toLower))

/-- A threshold for all targets, or a target with its threshold; a target alone keeps all. -/
def parse (word : String) : Directive :=
  match threshold? word with
  | some least => ⟨"", least⟩
  | none =>
    match word.splitOn "=" with
    | [scope, level] => ⟨scope, (threshold? level).getD (some .trace)⟩
    | _ => ⟨word, some .trace⟩

def covers (d : Directive) (target : String) : Bool := d.scope.toList.isPrefixOf target.toList

end Directive

/-- Of the directives for a target the one with the longest scope counts, the last of equals. -/
structure Filter where
  directives : List Directive

namespace Filter

/-- Without any directive only errors pass. -/
def parse (text : String) : Filter :=
  match (text.splitOn ",").filter (· ≠ "") with
  | [] => ⟨[⟨"", some .error⟩]⟩
  | words => ⟨words.map Directive.parse⟩

def stronger (found : Option Directive) (d : Directive) : Option Directive :=
  match found with
  | some best => if d.scope.length < best.scope.length then some best else some d
  | none => some d

def threshold (f : Filter) (target : String) : Option Severity :=
  ((f.directives.filter (·.covers target)).foldl stronger none).bind Directive.least

def passes (f : Filter) (e : Event) : Bool :=
  match f.threshold e.target with
  | some least => least.rank ≤ e.severity.rank
  | none => false

end Filter

end AsyncErasure
