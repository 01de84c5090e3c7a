import OpenPuffer.Json

/-!
# Namespace schema

A schema is a JSON object from field names to specs.  A spec is a type string
or an object with a `type`.  `mergeSchema` lays the fields of a write-time
patch over the stored ones and refuses a result with more vector columns than
a namespace may have.
-/

namespace OpenPuffer

/-- At most two vector columns per namespace. -/
def maxVectorFields : Nat := 2

inductive VectorElement where
  | f32
  | f16
deriving DecidableEq, Repr

/-! ## Vector type strings -/

/-- `char::is_whitespace`. -/
def isWhitespace (c : Char) : Bool :=
  let n := c.toNat
  (9 ≤ n && n ≤ 13) || n = 32 || n = 0x85 || n = 0xA0 || n = 0x1680 ||
    (0x2000 ≤ n && n ≤ 0x200A) || n = 0x2028 || n = 0x2029 || n = 0x202F || n = 0x205F ||
    n = 0x3000

/-- `str::trim`. -/
def trim (cs : List Char) : List Char :=
  ((cs.dropWhile isWhitespace).reverse.dropWhile isWhitespace).reverse

/-- The digits of a `u32`, most significant first.  Overflow is an error. -/
def parseDigits : List Char → Nat → Option Nat
  | [], acc => some acc
  | c :: cs, acc =>
    if c.isDigit then
      let acc' := acc * 10 + (c.toNat - '0'.toNat)
      if acc' < 2 ^ 32 then parseDigits cs acc' else none
    else none

/-- `str::parse::<u32>`: a leading plus is allowed, an empty number is not. -/
def parseU32 (cs : List Char) : Option Nat :=
  match cs with
  | '+' :: [] => none
  | '+' :: ds => parseDigits ds 0
  | [] => none
  | ds => parseDigits ds 0

/-- `str::split_once` at a character. -/
def splitOnce (sep : Char) : List Char → Option (List Char × List Char)
  | [] => none
  | c :: cs =>
    if c = sep then some ([], cs)
    else (splitOnce sep cs).map fun p => (c :: p.1, p.2)

def parseVectorTypeStr (s : String) : Option (Nat × VectorElement) :=
  match trim s.toList with
  | '[' :: inner =>
    match splitOnce ']' inner with
    | none => none
    | some (dimsStr, elem) =>
      match parseU32 dimsStr with
      | none => none
      | some dims =>
        match elem.map Char.toLower with
        | ['f', '3', '2'] => some (dims, .f32)
        | ['f', '1', '6'] => some (dims, .f16)
        | _ => none
  | _ => none

/-- The type string of a spec, from the shorthand or the `type` field. -/
def specTypeStr : Json → Option String
  | .str s => some s
  | .obj m => (getField "type" m).bind Json.asStr
  | _ => none

def parseVectorTypeSpec (spec : Json) : Option (Nat × VectorElement) :=
  (specTypeStr spec).bind parseVectorTypeStr

def fieldIsVectorTypeStr (t : List Char) : Bool :=
  contains t "f32" || contains t "f16" || contains t "vector" || contains t "[]f"

def fieldIsVectorSpec (spec : Json) : Bool :=
  match specTypeStr spec with
  | some t => fieldIsVectorTypeStr (toAsciiLowercase t)
  | none => false

/-! ## Fields of a schema -/

def vectorElementForField (schema : Json) (field : String) : VectorElement :=
  ((schema.asObject.bind (getField field)).bind parseVectorTypeSpec).elim .f32 Prod.snd

def vectorDimensionsForField (schema : Json) (field : String) : Option Nat :=
  ((schema.asObject.bind (getField field)).bind parseVectorTypeSpec).map Prod.fst

/-- The fields of a schema whose spec passes a check, in the order of the map. -/
def fieldsWhere (check : Json → Bool) (schema : Json) : List String :=
  match schema.asObject with
  | none => []
  | some fields => (fields.filter fun f => check f.2).map Prod.fst

def vectorFieldsFromSchema (schema : Json) : List String := fieldsWhere fieldIsVectorSpec schema

/-! ## Fields that are indexed -/

def textTypeStr (t : List Char) : Bool :=
  contains t "string" || contains t "text" || t = "full_text".toList

/-- The flag of a spec is set to the given value. -/
def flagIs (flag : String) (value : Bool) (spec : List (String × Json)) : Bool :=
  (getField flag spec).bind Json.asBool = some value

def fieldFullTextSearch : Json → Bool
  | .obj spec =>
    if flagIs "full_text_search" true spec then true
    else
      match getField "type" spec with
      | some (.str t) => textTypeStr (toAsciiLowercase t)
      | _ => false
  | .str s => textTypeStr (toAsciiLowercase s)
  | _ => false

def scalarTypeFilterable (t : List Char) : Bool :=
  contains t "string" || contains t "bool" || contains t "int" || contains t "uint" ||
    contains t "float" || t = "number".toList || t = "uuid".toList || contains t "datetime"

def fieldFilterable (spec : Json) : Bool :=
  match spec with
  | .obj m =>
    if flagIs "filterable" false m then false
    else if flagIs "filterable" true m then true
    else if fieldIsVectorSpec spec then false
    else if fieldFullTextSearch spec then true
    else
      match getField "type" m with
      | some (.str t) => scalarTypeFilterable (toAsciiLowercase t)
      | _ => false
  | .str s =>
    let t := toAsciiLowercase s
    if fieldIsVectorTypeStr t then false else scalarTypeFilterable t
  | _ => false

def filterFieldsFromSchema (schema : Json) : List String := fieldsWhere fieldFilterable schema

/-- The fields to index for full-text search.  If some field asks for it
explicitly, only such fields; otherwise every text field. -/
def indexFieldsFromSchema (schema : Json) : List String :=
  let explicit := fieldsWhere (fun spec => (spec.asObject.map (flagIs "full_text_search" true)).getD
    false) schema
  if explicit.isEmpty then fieldsWhere fieldFullTextSearch schema else explicit

/-- The field the full-text segment is built for. -/
def primaryFtsField (schema : Json) : String := (indexFieldsFromSchema schema).head?.getD ""

/-! ## Merging a patch -/

def overlayFields (existing patch : List (String × Json)) : List (String × Json) :=
  patch.foldl (fun out f => insertField f.1 f.2 out) existing

/-- Merge a write-time schema patch into the stored schema. -/
def mergeSchema (existing patch : Json) : Except String Json :=
  match patch.asObject with
  | none => .ok existing
  | some patchObj =>
    let merged := Json.obj (overlayFields (existing.asObject.getD []) patchObj)
    let vectorCount := (vectorFieldsFromSchema merged).length
    if vectorCount > maxVectorFields then
      .error s!"namespace schema has {vectorCount} vector fields; maximum is {maxVectorFields}"
    else .ok merged

end OpenPuffer
