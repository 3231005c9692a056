import Mathlib.Data.List.Basic
import Mathlib.Data.UInt

/-! `phr_parse_request` of `picohttpparser.c`.

A parser takes the bytes from its `buf` to `buf_end` and gives what is left of
them, or the value it puts in `*ret`: -2 where the text ends too soon, -1 where
it is malformed. The header names and values, which no caller reads, are skipped
and not kept; `last_len` is 0 in every call. -/
namespace Rinha.Http

/-- `*ret = -2` and `*ret = -1` -/
inductive Ret where
  | incomplete
  | malformed
  deriving DecidableEq, Repr

/-- `token_char_map` -/
def tokenCharMap (b : UInt8) : Bool :=
  b = 0x21 || (0x23 ≤ b && b ≤ 0x27) || b = 0x2a || b = 0x2b || b = 0x2d || b = 0x2e ||
    (0x30 ≤ b && b ≤ 0x39) || (0x41 ≤ b && b ≤ 0x5a) || b = 0x5e || b = 0x5f ||
    (0x60 ≤ b && b ≤ 0x7a) || b = 0x7c || b = 0x7e

/-- The token up to `next_char`, and the text from there. -/
def parseToken (nextChar : UInt8) : List UInt8 → Except Ret (List UInt8 × List UInt8)
  | [] => .error .incomplete
  | b :: rest =>
    if b = nextChar then .ok ([], b :: rest)
    else if !tokenCharMap b then .error .malformed
    else
      match parseToken nextChar rest with
      | .ok (token, rest') => .ok (b :: token, rest')
      | .error e => .error e

/-- `ADVANCE_TOKEN`: the token up to a space, and the text from there. -/
def advanceToken : List UInt8 → Except Ret (List UInt8 × List UInt8)
  | [] => .error .incomplete
  | b :: rest =>
    if b = 32 then .ok ([], b :: rest)
    else if b < 32 ∨ b = 127 then .error .malformed
    else
      match advanceToken rest with
      | .ok (token, rest') => .ok (b :: token, rest')
      | .error e => .error e

/-- `do { ++buf; CHECK_EOF(); } while (*buf == ' ');` after the `++buf` -/
def skipSpaces : List UInt8 → Except Ret (List UInt8)
  | [] => .error .incomplete
  | b :: rest => if b = 32 then skipSpaces rest else .ok (b :: rest)

/-- `EXPECT_CHAR` -/
def expectChar (ch : UInt8) : List UInt8 → Except Ret (List UInt8)
  | [] => .error .incomplete
  | b :: rest => if b = ch then .ok rest else .error .malformed

/-- `EXPECT_CHAR_NO_CHECK` of each character in turn -/
def expectChars : List UInt8 → List UInt8 → Except Ret (List UInt8)
  | [], text => .ok text
  | ch :: chs, text =>
    match expectChar ch text with
    | .ok rest => expectChars chs rest
    | .error e => .error e

/-- `HTTP/1.` and the minor version, if there are the nine characters it takes. -/
def parseHttpVersion (text : List UInt8) : Except Ret (Nat × List UInt8) :=
  if text.length < 9 then .error .incomplete
  else
    match expectChars [72, 84, 84, 80, 47, 49, 46] text with
    | .error e => .error e
    | .ok [] => .error .incomplete
    | .ok (b :: rest) => if b < 48 ∨ 57 < b then .error .malformed else .ok (b.toNat - 48, rest)

/-- From a control character on: it has to be the end of the line. -/
def foundCtl : List UInt8 → Except Ret (List UInt8)
  | [] => .error .incomplete
  | b :: rest =>
    if b = 13 then expectChar 10 rest else if b = 10 then .ok rest else .error .malformed

/-- The text behind the end of the line. -/
def getTokenToEol : List UInt8 → Except Ret (List UInt8)
  | [] => .error .incomplete
  | b :: rest =>
    if (b < 32 ∧ b ≠ 9) ∨ b = 127 then foundCtl (b :: rest) else getTokenToEol rest

/-- The spaces and tabs in front of a header's value. -/
def skipBlanks : List UInt8 → Except Ret (List UInt8)
  | [] => .error .incomplete
  | b :: rest => if b = 32 ∨ b = 9 then skipBlanks rest else .ok (b :: rest)

/-- The name of a header and its colon; a line that starts with a blank, unless it
is the first, continues the header before it and has no name. -/
def parseHeaderName (first : Bool) (text : List UInt8) : Except Ret (List UInt8) :=
  if !first && (text.head? = some 32 || text.head? = some 9) then .ok text
  else
    match parseToken 58 text with
    | .error e => .error e
    | .ok (name, rest) => if name = [] then .error .malformed else skipBlanks rest.tail

/-- The headers, of which `left` more fit, and the empty line behind them. -/
def parseHeaders : Nat → Bool → List UInt8 → Except Ret (List UInt8)
  | _, _, [] => .error .incomplete
  | left, first, b :: rest =>
    if b = 13 then expectChar 10 rest
    else if b = 10 then .ok rest
    else
      match left with
      | 0 => .error .malformed
      | left + 1 =>
        match parseHeaderName first (b :: rest) with
        | .error e => .error e
        | .ok value =>
          match getTokenToEol value with
          | .error e => .error e
          | .ok rest' => parseHeaders left false rest'

/-- The empty line some clients send before the request. -/
def skipEmptyLine : List UInt8 → Except Ret (List UInt8)
  | [] => .error .incomplete
  | b :: rest =>
    if b = 13 then expectChar 10 rest else if b = 10 then .ok rest else .ok (b :: rest)

/-- What `phr_parse_request` finds: the method and the path, each with the text
that starts at it, and the text behind the headers. -/
structure Request where
  method : List UInt8
  methodText : List UInt8
  path : List UInt8
  pathText : List UInt8
  minorVersion : Nat
  body : List UInt8
  deriving DecidableEq, Repr

def parseRequest (text : List UInt8) (maxHeaders : Nat) : Except Ret Request :=
  match skipEmptyLine text with
  | .error e => .error e
  | .ok methodText =>
    match parseToken 32 methodText with
    | .error e => .error e
    | .ok (method, rest) =>
      match skipSpaces rest.tail with
      | .error e => .error e
      | .ok pathText =>
        match advanceToken pathText with
        | .error e => .error e
        | .ok (path, rest) =>
          match skipSpaces rest.tail with
          | .error e => .error e
          | .ok versionText =>
            if method = [] ∨ path = [] then .error .malformed
            else
              match parseHttpVersion versionText with
              | .error e => .error e
              | .ok (minorVersion, rest) =>
                match foundCtl rest with
                | .error e => .error e
                | .ok headersText =>
                  match parseHeaders maxHeaders true headersText with
                  | .error e => .error e
                  | .ok body => .ok ⟨method, methodText, path, pathText, minorVersion, body⟩

/-- The request in a buffer, and how many bytes of it were parsed. -/
def phrParseRequest (buf : List UInt8) (maxHeaders : Nat) : Except Ret (Request × Nat) :=
  match parseRequest buf maxHeaders with
  | .error e => .error e
  | .ok r => .ok (r, buf.length - r.body.length)

end Rinha.Http
