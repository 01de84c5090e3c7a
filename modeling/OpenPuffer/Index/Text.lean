import OpenPuffer.Wal

/-!
# Text of a document and its terms

Full-text search indexes the text of one attribute, or of all string attributes: normalized,
cut at every character that is neither a letter nor a number, put into lower case and cleared
of stop words.  What comes from libraries is in `TextEnv`, and nothing is assumed of it.
-/

namespace OpenPuffer

/-- What text processing takes from its libraries and its configuration. -/
structure TextEnv where
  /-- Unicode normalization form KC. -/
  nfkc : List Char → List Char
  isAlphabetic : Char → Bool
  isNumeric : Char → Bool
  toLowercase : List Char → List Char
  /-- The English stemmer, when `OPENPUFFER_FTS_STEM` asks for it. -/
  stemEnglish : Option (List Char → List Char)
  /-- The JSON text of a finite float. -/
  formatFloat : Rat → List Char
  /-- The order in which a hash map yields attributes. -/
  order : IterOrder String

/-! ## Tokens -/

/-- High-frequency function words. -/
def stopwordList : List String :=
  ["a", "an", "and", "are", "as", "at", "be", "been", "being", "but", "by", "can", "did", "do",
   "does", "for", "from", "had", "has", "have", "he", "her", "him", "his", "if", "in", "into",
   "is", "it", "its", "may", "might", "must", "no", "nor", "not", "of", "on", "or", "our",
   "shall", "she", "should", "so", "such", "than", "that", "the", "their", "them", "then",
   "there", "these", "they", "this", "those", "to", "too", "was", "we", "were", "what", "when",
   "where", "which", "while", "who", "whom", "why", "will", "with", "would", "you", "your"]

/-- An empty term or a stop word. -/
def isDropped (term : List Char) : Bool :=
  term.isEmpty || stopwordList.contains (String.ofList term)

section Text

variable (env : TextEnv)

def isTokenChar (ch : Char) : Bool := env.isAlphabetic ch || env.isNumeric ch

def pushToken (out : List String) (raw : List Char) : List String :=
  let term := env.toLowercase raw
  if isDropped term then out
  else
    match env.stemEnglish with
    | none => out ++ [String.ofList term]
    | some stem =>
      let term := stem term
      if isDropped term then out else out ++ [String.ofList term]

/-- One character: it extends the current token or ends it. -/
def tokenizeChar (state : List String × List Char) (ch : Char) : List String × List Char :=
  let (tokens, cur) := state
  if isTokenChar env ch then (tokens, cur ++ [ch])
  else if cur.isEmpty then (tokens, cur)
  else (pushToken env tokens cur, [])

def tokenize (text : List Char) : List String :=
  let (tokens, cur) := (env.nfkc text).foldl (tokenizeChar env) ([], [])
  if cur.isEmpty then tokens else pushToken env tokens cur

/-! ## JSON text -/

def hexDigit (n : Nat) : Char := "0123456789abcdef".toList.getD n '0'

/-- A character of a JSON string literal. -/
def escapeChar (c : Char) : List Char :=
  match c.toNat with
  | 0x22 => ['\\', '"']
  | 0x5C => ['\\', '\\']
  | 0x08 => ['\\', 'b']
  | 0x0C => ['\\', 'f']
  | 0x0A => ['\\', 'n']
  | 0x0D => ['\\', 'r']
  | 0x09 => ['\\', 't']
  | n => if n < 0x20 then ['\\', 'u', '0', '0', hexDigit (n / 16), hexDigit (n % 16)] else [c]

def stringText (s : String) : List Char := '"' :: s.toList.flatMap escapeChar ++ ['"']

def numberText : Number → List Char
  | .posInt n => (toString n).toList
  | .negInt n => (toString n).toList
  | .float q => env.formatFloat q
  | .negZero => "-0.0".toList

mutual

/-- `Value::to_string`. -/
def jsonText : Json → List Char
  | .null => "null".toList
  | .bool b => (toString b).toList
  | .num n => numberText env n
  | .str s => stringText s
  | .arr items => '[' :: itemsText items ++ [']']
  | .obj fields => Char.ofNat 0x7B :: fieldsText fields ++ [Char.ofNat 0x7D]
termination_by structural v => v

def itemsText : List Json → List Char
  | [] => []
  | [v] => jsonText v
  | v :: w :: rest => jsonText v ++ ',' :: itemsText (w :: rest)
termination_by structural vs => vs

def fieldsText : List (String × Json) → List Char
  | [] => []
  | [(k, v)] => stringText k ++ ':' :: jsonText v
  | (k, v) :: f :: rest => stringText k ++ ':' :: jsonText v ++ ',' :: fieldsText (f :: rest)
termination_by structural fs => fs

end

def valueToText : Json → List Char
  | .str s => s.toList
  | v => jsonText env v

/-- The searchable text of a document for a field; the empty field stands for
all string attributes. -/
def extractIndexText (doc : Document) (field : String) : List Char :=
  if field ≠ "" then ((doc.attributes.lookup field).map (valueToText env)).getD []
  else
    let parts := (HashMap.iter env.order doc.attributes).filterMap fun a =>
      a.2.asStr.map String.toList
    [' '].intercalate parts

/-- The terms of a document. -/
def docTokens (field : String) (doc : Document) : List String :=
  tokenize env (extractIndexText env doc field)

end Text

/-- Text that is plain ASCII, unstemmed, with attributes in the order of their
names. -/
def asciiEnv : TextEnv where
  nfkc := id
  isAlphabetic := Char.isAlpha
  isNumeric := Char.isDigit
  toLowercase := List.map Char.toLower
  stemEnglish := none
  formatFloat := fun q => (toString q.num ++ "/" ++ toString q.den).toList
  order := .sorted String

example : tokenize asciiEnv "Hello, the Rust-world!".toList = ["hello", "rust", "world"] := by
  decide +kernel

end OpenPuffer
