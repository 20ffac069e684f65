import Mathlib.Data.Nat.Notation

/-!
# JSON texts

The standard grammar as a reader: a text is white space, one value and white space. Objects are maps: members are kept in the order of their names, and of two
members with one name the later counts. How a numeral is represented, and which
numerals are out of range, is a parameter.

The reader is the meaning of a text here, not an implementation: whatever reads
the same texts as the same values reads standard JSON.
-/

namespace Json

/-- A JSON value with numbers in `ν`. -/
inductive Value (ν : Type) where
  | null
  | bool (b : Bool)
  | number (n : ν)
  | string (s : String)
  | array (items : List (Value ν))
  | object (members : List (String × Value ν))

variable {ν : Type}

/-- The member of an object. -/
def Value.get (name : String) : Value ν → Option (Value ν)
  | .object members => members.lookup name
  | _ => none

/-- The text of a string value. -/
def Value.asStr : Value ν → Option String
  | .string s => some s
  | _ => none

/-- Put a member in its place, over one of the same name. -/
def insertMember (name : String) (value : Value ν) :
    List (String × Value ν) → List (String × Value ν)
  | [] => [(name, value)]
  | (other, v) :: members =>
    if name = other then (name, value) :: members
    else if name < other then (name, value) :: (other, v) :: members
    else (other, v) :: insertMember name value members

def isWhitespace (c : Char) : Bool := c == ' ' || c == '\t' || c == '\n' || c == '\r'

def skipWhitespace (text : List Char) : List Char := text.dropWhile isWhitespace

/-! ## Numerals -/

def isNumeralChar (c : Char) : Bool :=
  c.isDigit || c == '-' || c == '+' || c == '.' || c == 'e' || c == 'E'

/-- At least one digit, and what follows the digits. -/
def skipDigits : List Char → Option (List Char)
  | c :: text => if c.isDigit then some (text.dropWhile Char.isDigit) else none
  | [] => none

def skipSign : List Char → List Char
  | '+' :: text | '-' :: text => text
  | text => text

/-- `[ minus ] int [ frac ] [ exp ]`. -/
def isNumeral (text : List Char) : Bool :=
  let unsigned := match text with
    | '-' :: text => text
    | text => text
  let afterInt := match unsigned with
    | '0' :: text => some text
    | text => skipDigits text
  let afterFrac := afterInt.bind fun text => match text with
    | '.' :: text => skipDigits text
    | text => some text
  let afterExp := afterFrac.bind fun text => match text with
    | 'e' :: text | 'E' :: text => skipDigits (skipSign text)
    | text => some text
  afterExp == some []

/-! ## Strings -/

/-- Four hexadecimal digits. -/
def readHex4 : List Char → Option (Nat × List Char)
  | a :: b :: c :: d :: text =>
    if [a, b, c, d].all Char.isHexDigit then
      some ([a, b, c, d].foldl (fun n c =>
        n * 16 + if c.isDigit then c.toNat - 48 else c.toLower.toNat - 87) 0, text)
    else none
  | _ => none

/-- An escape, after its backslash. A high surrogate is followed by the escape of a low one. -/
def readEscape : List Char → Option (Char × List Char)
  | '"' :: text => some ('"', text)
  | '\\' :: text => some ('\\', text)
  | '/' :: text => some ('/', text)
  | 'b' :: text => some ('\x08', text)
  | 'f' :: text => some ('\x0c', text)
  | 'n' :: text => some ('\n', text)
  | 'r' :: text => some ('\r', text)
  | 't' :: text => some ('\t', text)
  | 'u' :: text => do
    let (high, text) ← readHex4 text
    if 0xD800 ≤ high ∧ high < 0xDC00 then
      match text with
      | '\\' :: 'u' :: text =>
        let (low, text) ← readHex4 text
        if 0xDC00 ≤ low ∧ low < 0xE000 then
          some (Char.ofNat (0x10000 + (high - 0xD800) * 0x400 + (low - 0xDC00)), text)
        else none
      | _ => none
    else if 0xDC00 ≤ high ∧ high < 0xE000 then none
    else some (Char.ofNat high, text)
  | _ => none

/-- The rest of a string, after its opening quote. -/
def readString : Nat → List Char → Option (List Char × List Char)
  | 0, _ | _, [] => none
  | _ + 1, '"' :: text => some ([], text)
  | fuel + 1, '\\' :: text => do
    let (c, text) ← readEscape text
    let (cs, text) ← readString fuel text
    return (c :: cs, text)
  | fuel + 1, c :: text =>
    if c.toNat < 0x20 then none
    else (readString fuel text).map fun (cs, text) => (c :: cs, text)

/-! ## Values -/

mutual

/-- A value, and what follows it. Every recursive call is one character further. -/
def readValue (number : List Char → Option ν) : Nat → List Char → Option (Value ν × List Char)
  | 0, _ => none
  | fuel + 1, text =>
    match skipWhitespace text with
    | 'n' :: 'u' :: 'l' :: 'l' :: text => some (.null, text)
    | 't' :: 'r' :: 'u' :: 'e' :: text => some (.bool true, text)
    | 'f' :: 'a' :: 'l' :: 's' :: 'e' :: text => some (.bool false, text)
    | '"' :: text => (readString fuel text).map fun (cs, text) => (.string (.ofList cs), text)
    | '[' :: text =>
      match skipWhitespace text with
      | ']' :: text => some (.array [], text)
      | text => (readItems number fuel text).map fun (items, text) => (.array items, text)
    | '{' :: text =>
      match skipWhitespace text with
      | '}' :: text => some (.object [], text)
      | text => (readMembers number fuel [] text).map fun (members, text) => (.object members, text)
    | text =>
      let numeral := text.takeWhile isNumeralChar
      if isNumeral numeral then
        (number numeral).map fun n => (.number n, text.dropWhile isNumeralChar)
      else none

/-- The items of an array, up to its bracket. -/
def readItems (number : List Char → Option ν) : Nat → List Char →
    Option (List (Value ν) × List Char)
  | 0, _ => none
  | fuel + 1, text => do
    let (item, text) ← readValue number fuel text
    match skipWhitespace text with
    | ']' :: text => return ([item], text)
    | ',' :: text =>
      let (items, text) ← readItems number fuel text
      return (item :: items, text)
    | _ => none

/-- The members of an object, up to its brace. -/
def readMembers (number : List Char → Option ν) : Nat → List (String × Value ν) → List Char →
    Option (List (String × Value ν) × List Char)
  | 0, _, _ => none
  | fuel + 1, members, text =>
    match skipWhitespace text with
    | '"' :: text => do
      let (name, text) ← readString fuel text
      match skipWhitespace text with
      | ':' :: text =>
        let (value, text) ← readValue number fuel text
        let members := insertMember (.ofList name) value members
        match skipWhitespace text with
        | '}' :: text => return (members, text)
        | ',' :: text => readMembers number fuel members text
        | _ => none
      | _ => none
    | _ => none

end

/-- The value of a text. -/
def read (number : List Char → Option ν) (text : List Char) : Option (Value ν) := do
  let text := skipWhitespace text
  let (value, rest) ← readValue number (text.length + 1) text
  if (skipWhitespace rest).isEmpty then some value else none

/-- White space before a text is skipped. -/
theorem read_append_of_whitespace {number : List Char → Option ν} {ws : List Char}
    (h : ∀ c ∈ ws, isWhitespace c = true) (text : List Char) :
    read number (ws ++ text) = read number text := by
  have hskip : skipWhitespace (ws ++ text) = skipWhitespace text :=
    List.dropWhile_append_of_pos h
  unfold read
  rw [hskip]

end Json
