import DensityKernel.Definition.Basic
import DensityKernel.Yaml.Document

/-!
Definitions written as YAML documents. Every field has a name of its own, none
may stand twice, and there are no others. Text may be any scalar, as it is
written; truth values and numbers are plain scalars; where a field is optional
an empty plain scalar or a spelling of null leaves it out.
-/

namespace DensityKernel

namespace Yaml

/-- A plain scalar that stands for no value. -/
def Scalar.isNull (s : Scalar) : Bool :=
  s.plain && ["", "~", "null", "Null", "NULL"].contains s.text

/-- A truth value. -/
def Scalar.bool? (s : Scalar) : Option Bool :=
  if !s.plain then none
  else if ["true", "True", "TRUE"].contains s.text then some true
  else if ["false", "False", "FALSE"].contains s.text then some false
  else none

/-- A number: one of the spellings of infinity and NaN with a leading point, or
a decimal that is finite. A plus sign may stand in front. -/
def Scalar.number? {K : Type} [Literal K] [Spelling K] (s : Scalar) : Option K :=
  let unsigned := match s.text.toList with
    | '+' :: rest => rest
    | cs => cs
  let doubleSign := s.text.toList.head? = some '+'
    && (unsigned.head? = some '+' || unsigned.head? = some '-')
  if !s.plain || doubleSign then none
  else if [".inf", ".Inf", ".INF"].contains (String.ofList unsigned) then
    Spelling.read? "inf".toList
  else if ["-.inf", "-.Inf", "-.INF"].contains s.text then Spelling.read? "-inf".toList
  else if [".nan", ".NaN", ".NAN"].contains s.text then Spelling.read? "nan".toList
  else (Spelling.read? unsigned).filter Literal.isFinite

namespace Value

/-- The text of a scalar. -/
def text? : Value → Option String
  | .scalar s => some s.text
  | .mapping _ => none

/-- An optional field: nothing for null, and otherwise what `read` makes of the
scalar. -/
def optional? {α : Type} (read : Scalar → Option α) : Value → Option (Option α)
  | .scalar s => if s.isNull then some none else (read s).map some
  | .mapping _ => none

def bool? : Value → Option Bool
  | .scalar s => s.bool?
  | .mapping _ => none

/-- The texts of a mapping; of two entries with one name the later one counts.
Nothing written at all is a mapping without entries, a spelling of null is none. -/
def texts? : Value → Option (List (String × String))
  | .scalar s => if s = .empty then some [] else none
  | .mapping entries =>
    some (entries.foldl (fun texts (name, s) =>
      texts.filter (·.1 != name) ++ [(name, s.text)]) [])

end Value

end Yaml

namespace Definition

variable {K : Type} [Literal K] [Spelling K]

open Yaml

/-- Puts the value of one field into a definition. -/
def setField? (d : Definition K) (field : String) (value : Value) : Option (Definition K) :=
  let optionalText := value.optional? fun s => some s.text
  match field with
  | "name" => value.text?.map fun x => { d with name := x }
  | "decoupled" => value.bool?.map fun x => { d with decoupled := x }
  | "gga" => (value.optional? Scalar.bool?).map fun x => { d with gradients := x }
  | "cross" => value.bool?.map fun x => { d with cross := x }
  | "threshold" => (value.optional? Scalar.number?).map fun x => { d with threshold := x }
  | "parameters" => value.texts?.map fun x => { d with parameters := x }
  | "expression" => optionalText.map fun x => { d with expression := x }
  | "alpha" => optionalText.map fun x => { d with alpha := x }
  | "beta" => optionalText.map fun x => { d with beta := x }
  | "preamble" => optionalText.map fun x => { d with preamble := x }
  | "prefix" => optionalText.map fun x => { d with factor := x }
  | "info" => optionalText.map fun x => { d with info := x }
  | _ => none

/-- The definition that a document states. The name is the one field that must
not be missing. -/
def ofDocument? (document : Document) : Option (Definition K) :=
  let fields := document.map (·.1)
  if fields.contains "name" && fields.eraseDups.length == fields.length then
    document.foldlM (fun d (field, value) => d.setField? field value) { name := "" }
  else none

/-- Reads a definition from the text of a document. -/
def ofYaml (text : String) : Except Error (Definition K) :=
  match (Document.read? text).bind ofDocument? with
  | some d => .ok d
  | none => .error (.unreadable "the document is no definition of a functional")

end Definition

end DensityKernel
