import Concordance.Settings.Reading

/-!
# Settings in JSON

The syntax of settings that the program runs with is the JSON subset of YAML: mappings in braces,
lists in brackets, and scalars, quoted or plain. A plain `null` is nothing; any other scalar counts
by its text alone, so `5` and `"5"` are the same. Text without any content stands for nothing.

A reader takes the bytes that are left and gives back what it read with the bytes after it. The
nesting of a text is bounded by its length, which is the fuel that the reader starts with.
-/

namespace Concordance.SettingsText

/-- The value of four hexadecimal digits, and what follows them. -/
def fourHex? (s : Bytes) : Option (Nat × Bytes) :=
  match s with
  | a :: b :: c :: d :: rest => do
    let a ← Scalar.digit? 16 a
    let b ← Scalar.digit? 16 b
    let c ← Scalar.digit? 16 c
    let d ← Scalar.digit? 16 d
    return (((a * 16 + b) * 16 + c) * 16 + d, rest)
  | _ => none

/-- The character of an escape by number, after the letter `u`. Two escapes that are halves of one
character are read together. -/
def numbered? (s : Bytes) : Option (Char × Bytes) := do
  let (high, rest) ← fourHex? s
  if 0xD800 ≤ high ∧ high < 0xDC00 then
    match rest with
    | 92 :: 117 :: more =>
      let (low, rest) ← fourHex? more
      if 0xDC00 ≤ low ∧ low < 0xE000 then
        return (Char.ofNat (0x10000 + (high - 0xD800) * 1024 + (low - 0xDC00)), rest)
      else none
    | _ => none
  else return (Char.ofNat high, rest)

/-- The byte that a short escape stands for. -/
def shortEscape? (b : UInt8) : Option UInt8 :=
  if b = 34 ∨ b = 92 ∨ b = 47 then some b
  else if b = 98 then some 8
  else if b = 102 then some 12
  else if b = 110 then some 10
  else if b = 114 then some 13
  else if b = 116 then some 9
  else none

/-- Bytes that stand for themselves in a quoted text. -/
def isLiteral (b : UInt8) : Bool :=
  b != 34 && b != 92

/-- The content of a quoted text after its opening quote, and what follows the closing one. Each
round goes as far as the next quote or escape. -/
def quoted? : Nat → Bytes → Option (Bytes × Bytes)
  | 0, _ => none
  | fuel + 1, s =>
    let text := s.takeWhile isLiteral
    match s.dropWhile isLiteral with
    | 34 :: rest => some (text, rest)
    | 92 :: 117 :: rest => do
      let (c, rest) ← numbered? rest
      let (more, rest) ← quoted? fuel rest
      return (text ++ encode [c] ++ more, rest)
    | 92 :: b :: rest => do
      let b ← shortEscape? b
      let (more, rest) ← quoted? fuel rest
      return (text ++ b :: more, rest)
    | _ => none

/-- Bytes of a plain scalar. -/
def isPlain (b : UInt8) : Bool :=
  !Bytes.isSpace b && !(utf8 ",:[]\x7b\x7d\"").contains b

/-- A plain scalar, of which `null` is nothing. -/
def plain (text : Bytes) : SettingsNode :=
  if text = utf8 "null" then .null else .scalar text

mutual

/-- A value, and what follows it. -/
def value? : Nat → Bytes → Option (SettingsNode × Bytes)
  | 0, _ => none
  | fuel + 1, s =>
    match Bytes.trimLeft s with
    | [] => none
    | 34 :: rest => do
      let (text, rest) ← quoted? rest.length.succ rest
      return (.scalar text, rest)
    | 91 :: rest =>
      match Bytes.trimLeft rest with
      | 93 :: rest => some (.list [], rest)
      | rest => do
        let (items, rest) ← items? fuel rest
        return (.list items, rest)
    | 123 :: rest =>
      match Bytes.trimLeft rest with
      | 125 :: rest => some (.mapping [], rest)
      | rest => do
        let (entries, rest) ← entries? fuel rest
        return (.mapping entries, rest)
    | s =>
      let text := s.takeWhile isPlain
      if text.isEmpty then none
      else
        some (plain text, s.dropWhile isPlain)

/-- The items of a list up to its closing bracket, and what follows it. -/
def items? : Nat → Bytes → Option (List SettingsNode × Bytes)
  | 0, _ => none
  | fuel + 1, s => do
    let (item, rest) ← value? fuel s
    match Bytes.trimLeft rest with
    | 44 :: rest => do
      let (items, rest) ← items? fuel rest
      return (item :: items, rest)
    | 93 :: rest => return ([item], rest)
    | _ => none

/-- The entries of a mapping up to its closing brace, and what follows it. -/
def entries? : Nat → Bytes → Option (List (Bytes × SettingsNode) × Bytes)
  | 0, _ => none
  | fuel + 1, s =>
    match Bytes.trimLeft s with
    | 34 :: rest => do
      let (key, rest) ← quoted? rest.length.succ rest
      match Bytes.trimLeft rest with
      | 58 :: rest => do
        let (item, rest) ← value? fuel rest
        match Bytes.trimLeft rest with
        | 44 :: rest => do
          let (entries, rest) ← entries? fuel rest
          return ((key, item) :: entries, rest)
        | 125 :: rest => return ([(key, item)], rest)
        | _ => none
      | _ => none
    | _ => none

end

/-- Whether a text begins a mapping, a list or a quoted scalar. -/
def isEnclosed (text : Bytes) : Bool :=
  (text.head?.map (utf8 "\x7b[\"").contains).getD false

/-- The tree that a text means, if it is well-formed. A text that is not enclosed in anything is one
plain scalar as a whole. -/
def parse? (text : Bytes) : Option SettingsNode :=
  let text := Bytes.trimRight (Bytes.trimLeft text)
  if text.isEmpty then some .null
  else if isEnclosed text then
    match value? (2 * text.length + 2) text with
    | some (node, []) => some node
    | _ => none
  else some (plain text)

end SettingsText

/-- Settings are read as JSON. -/
instance jsonSyntax : SettingsSyntax where
  parse text :=
    match SettingsText.parse? text with
    | some node => .ok node
    | none => .error (utf8 "not a value in the JSON subset")

end Concordance
