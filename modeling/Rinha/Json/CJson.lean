import Rinha.Library.Binary64

/-! `cJSON_Parse` of `cJSON.c`, and the tree it builds.

A parser takes the text from the buffer's offset and gives the item and the text
from the offset it leaves. The text is that of the C string: the NUL that ends
the buffer is no character any of them takes, so where the source stands on it
the text here is empty. Each gets by on a fuel that is more than the text needs
(`parseFuel`). `valueint` is not kept: nothing reads it. -/
namespace Rinha.Json
open Library

inductive CJson where
  | null
  | false
  | true
  | number (valuedouble : Double)
  | string (valuestring : List UInt8)
  | array (child : List CJson)
  | object (child : List (List UInt8 × CJson))

/-! ### Numbers -/

/-- What `parse_number` copies for `strtod`. -/
def isNumberChar (b : UInt8) : Bool := isdigit b || b = 43 || b = 45 || b = 101 || b = 69 || b = 46

/-- `parse_number`, which looks at 63 characters at most. -/
def parseNumber (text : List UInt8) : Option (CJson × List UInt8) :=
  let number_c_string := (text.take 63).takeWhile isNumberChar
  match strtod number_c_string with
  | none => none
  | some (x, rest) => some (.number x, text.drop (number_c_string.length - rest.length))

/-! ### Strings -/

def hexDigit (b : UInt8) : Option Nat :=
  if 48 ≤ b && b ≤ 57 then some (b.toNat - 48)
  else if 65 ≤ b && b ≤ 70 then some (b.toNat - 55)
  else if 97 ≤ b && b ≤ 102 then some (b.toNat - 87)
  else none

/-- `parse_hex4`, which gives 0 for what is not hexadecimal. -/
def parseHex4 (s : List UInt8) : Nat :=
  match (s.take 4).mapM hexDigit with
  | some digits => digits.foldl (fun h d => 16 * h + d) 0
  | none => 0

def encodeUtf8 (codepoint : Nat) : List UInt8 :=
  let continuation := fun k => (0x80 + codepoint / 64 ^ k % 64).toUInt8
  if codepoint < 0x80 then [codepoint.toUInt8]
  else if codepoint < 0x800 then [(0xC0 + codepoint / 64).toUInt8, continuation 0]
  else if codepoint < 0x10000 then [(0xE0 + codepoint / 64 ^ 2).toUInt8, continuation 1, continuation 0]
  else [(0xF0 + codepoint / 64 ^ 3).toUInt8, continuation 2, continuation 1, continuation 0]

/-- `utf16_literal_to_utf8`: the bytes, and the length of the sequence they come from. -/
def utf16LiteralToUtf8 (s : List UInt8) : Option (List UInt8 × Nat) :=
  if s.length < 6 then none
  else
    let first_code := parseHex4 (s.drop 2)
    if 0xDC00 ≤ first_code ∧ first_code ≤ 0xDFFF then none
    else if 0xD800 ≤ first_code ∧ first_code ≤ 0xDBFF then
      let second_sequence := s.drop 6
      if second_sequence.length < 6 ∨ second_sequence.take 2 ≠ [92, 117] then none
      else
        let second_code := parseHex4 (second_sequence.drop 2)
        if second_code < 0xDC00 ∨ 0xDFFF < second_code then none
        else some (encodeUtf8 (0x10000 + first_code % 0x400 * 0x400 + second_code % 0x400), 12)
    else some (encodeUtf8 first_code, 6)

/-- The characters of the escape sequences of two. -/
def escaped (b : UInt8) : Option UInt8 :=
  if b = 98 then some 8
  else if b = 102 then some 12
  else if b = 110 then some 10
  else if b = 114 then some 13
  else if b = 116 then some 9
  else if b = 34 ∨ b = 92 ∨ b = 47 then some b
  else none

/-- The second loop of `parse_string`, with `skip` more bytes of a sequence to pass. -/
def unescape (skip : Nat) : List UInt8 → Option (List UInt8)
  | [] => some []
  | b :: s =>
    match skip with
    | skip + 1 => unescape skip s
    | 0 =>
      if b ≠ 92 then (unescape 0 s).map (b :: ·)
      else if s.head? = some 117 then
        match utf16LiteralToUtf8 (b :: s) with
        | none => none
        | some (out, sequence_length) => (unescape (sequence_length - 1) s).map (out ++ ·)
      else
        -- Behind a backslash at the end of the literal stands its closing quote.
        match escaped (s.headD 34) with
        | none => none
        | some c => (unescape 1 s).map (c :: ·)

/-- The first loop: the literal up to its closing quote, and the text behind it. -/
def scanLiteral : List UInt8 → Option (List UInt8 × List UInt8)
  | [] => none
  | [b] => if b = 34 then some ([], []) else none
  | b :: c :: s =>
    if b = 34 then some ([], c :: s)
    else if b = 92 then (scanLiteral s).map fun (lit, rest) => (b :: c :: lit, rest)
    else (scanLiteral (c :: s)).map fun (lit, rest) => (b :: lit, rest)

def parseString : List UInt8 → Option (List UInt8 × List UInt8)
  | 34 :: s =>
    match scanLiteral s with
    | none => none
    | some (lit, rest) => (unescape 0 lit).map fun out => (out, rest)
  | _ => none

/-! ### Values -/

/-- `buffer_skip_whitespace` -/
def bufferSkipWhitespace (s : List UInt8) : List UInt8 := s.dropWhile (· ≤ 32)

/-- `skip_utf8_bom`, which wants more behind it than the NUL. -/
def skipUtf8Bom (s : List UInt8) : List UInt8 :=
  if 4 ≤ s.length ∧ [0xEF, 0xBB, 0xBF] <+: s then s.drop 3 else s

/-- `CJSON_NESTING_LIMIT` -/
def nestingLimit : Nat := 1000

mutual

def parseValue (fuel depth : Nat) (s : List UInt8) : Option (CJson × List UInt8) :=
  match fuel with
  | 0 => none
  | fuel + 1 =>
    if bytes "null" <+: s then some (.null, s.drop 4)
    else if bytes "false" <+: s then some (.false, s.drop 5)
    else if bytes "true" <+: s then some (.true, s.drop 4)
    else
      match s with
      | [] => none
      | b :: rest =>
        if b = 34 then (parseString s).map fun (valuestring, rest) => (.string valuestring, rest)
        else if b = 45 || isdigit b then parseNumber s
        else if b = 91 then
          if nestingLimit ≤ depth then none
          else
            match bufferSkipWhitespace rest with
            | [] => none
            | 93 :: rest => some (.array [], rest)
            | s => (parseElements fuel (depth + 1) s).map fun (child, rest) => (.array child, rest)
        else if b = 123 then
          if nestingLimit ≤ depth then none
          else
            match bufferSkipWhitespace rest with
            | [] => none
            | 125 :: rest => some (.object [], rest)
            | s => (parseMembers fuel (depth + 1) s).map fun (child, rest) => (.object child, rest)
        else none

/-- The loop of `parse_array`, from an element on. -/
def parseElements (fuel depth : Nat) (s : List UInt8) : Option (List CJson × List UInt8) :=
  match fuel with
  | 0 => none
  | fuel + 1 =>
    match parseValue fuel depth (bufferSkipWhitespace s) with
    | none => none
    | some (item, rest) =>
      match bufferSkipWhitespace rest with
      | 44 :: rest => (parseElements fuel depth rest).map fun (child, rest) => (item :: child, rest)
      | 93 :: rest => some ([item], rest)
      | _ => none

/-- The loop of `parse_object`, from a name on. -/
def parseMembers (fuel depth : Nat) (s : List UInt8) : Option (List (List UInt8 × CJson) × List UInt8) :=
  match fuel with
  | 0 => none
  | fuel + 1 =>
    match parseString (bufferSkipWhitespace s) with
    | none => none
    | some (name, rest) =>
      match bufferSkipWhitespace rest with
      | 58 :: rest =>
        match parseValue fuel depth (bufferSkipWhitespace rest) with
        | none => none
        | some (item, rest) =>
          match bufferSkipWhitespace rest with
          | 44 :: rest =>
            (parseMembers fuel depth rest).map fun (child, rest) => ((name, item) :: child, rest)
          | 125 :: rest => some ([(name, item)], rest)
          | _ => none
      | _ => none

end

/-- Each element or member, and each value in it, starts at another character. -/
def parseFuel (s : List UInt8) : Nat := 2 * s.length + 2

/-- `cJSON_Parse`, which stops behind the first value; allocation does not fail. -/
def cJSONParse (value : List UInt8) : Option CJson :=
  let s := bufferSkipWhitespace (skipUtf8Bom value)
  (parseValue (parseFuel s) 0 s).map Prod.fst

/-! ### Items -/

namespace CJson

/-- `cJSON_GetObjectItemCaseSensitive`: the first member of the name, as C strings
compare. The elements of an array have no name and stop the search. -/
def getObjectItem (name : List UInt8) : CJson → Option CJson
  | object child => (child.find? fun m => cstr m.1 = name).map Prod.snd
  | _ => none

/-- The value of `cJSON_GetNumberValue` where `cJSON_IsNumber` holds. -/
def numberValue : Option CJson → Option Double
  | some (number valuedouble) => some valuedouble
  | _ => none

/-- The C string `valuestring` where `cJSON_IsString` holds. -/
def stringValue : Option CJson → Option (List UInt8)
  | some (string valuestring) => some (cstr valuestring)
  | _ => none

end CJson
end Rinha.Json
