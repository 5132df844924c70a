import MemLane.Text

/-!
# The RESP wire format

Values, parser and encoder of `resp.rs`.  A parser call ends in one of three
ways: with a result, with a `RespError`, or with a panic, so slicing and
`Vec::with_capacity` are modelled with the bounds that make them panic.
Sizes and offsets are `usize` of a 64-bit target, whose additions wrap.

`parseAt` takes the nesting depth it may still descend.  `parse` starts it with
more than the buffer can nest, and `parse_eq` shows that `parse` satisfies the
recursion of the source.
-/

namespace MemLane

inductive RespValue
  | simpleString (text : String)
  | error (text : String)
  | integer (n : Int64)
  | bulkString (data : Bytes)
  | nil
  | array (items : List RespValue)

/-- `incomplete` is only used between the parser's own functions. -/
inductive RespError
  | incomplete
  | protocol (msg : String)
  deriving DecidableEq

/-- The ways a call fails to produce its result. -/
inductive Fault
  | err (e : RespError)
  | panic
  deriving DecidableEq

def Fault.protocol (msg : String) : Fault := .err (.protocol msg)

/-- `isize::MAX`: no allocation and no slice is larger. -/
def isizeMax : Nat := 2 ^ 63 - 1

/-- `usize` addition; wraps. -/
def usizeAdd (a b : Nat) : Nat := (a + b) % 2 ^ 64

/-- `&buf[lo..hi]`. -/
def slice (buf : Bytes) (lo hi : Nat) : Except Fault Bytes :=
  if lo ≤ hi ∧ hi ≤ buf.length then .ok ((buf.take hi).drop lo) else .error .panic

/-- `&buf[lo..]`. -/
def sliceFrom (buf : Bytes) (lo : Nat) : Except Fault Bytes :=
  if lo ≤ buf.length then .ok (buf.drop lo) else .error .panic

def crlf : Bytes := [13, 10]

/-! ## The parser -/

/-- What a parsing function returns: nothing where more data is needed, else a value
and the number of bytes consumed. -/
abbrev Parsed := Except Fault (Option (RespValue × Nat))

/-- The position of the first CR LF. -/
def findCrlf : Bytes → Option Nat
  | [] => none
  | b :: rest => if b = 13 ∧ rest.head? = some 10 then some 0 else (findCrlf rest).map (· + 1)

/-- The text of the header line without its type byte, and the offset behind it. -/
def parseLine (buf : Bytes) : Except Fault (String × Nat) :=
  match findCrlf buf with
  | none => .error (.err .incomplete)
  | some pos =>
      match slice buf 1 pos with
      | .error e => .error e
      | .ok line =>
          match fromUtf8 line with
          | none => .error (.protocol "Non-UTF8 line")
          | some line => .ok (line, usizeAdd pos 2)

/-- The frame of every typed parser: an incomplete line is no error. -/
def withLine (buf : Bytes) (f : String → Nat → Parsed) : Parsed :=
  match parseLine buf with
  | .error (.err .incomplete) => .ok none
  | .error e => .error e
  | .ok (line, consumed) => f line consumed

def parseSimpleString (buf : Bytes) : Parsed :=
  withLine buf fun line consumed => .ok (some (.simpleString line, consumed))

def parseError (buf : Bytes) : Parsed :=
  withLine buf fun line consumed => .ok (some (.error line, consumed))

def parseInteger (buf : Bytes) : Parsed :=
  withLine buf fun line consumed =>
    match parseI64 line with
    | none => .error (.protocol ("Invalid integer: " ++ line))
    | some n => .ok (some (.integer n, consumed))

/-- The two bytes behind the payload are counted, and not looked at. -/
def parseBulkString (buf : Bytes) : Parsed :=
  withLine buf fun line headerLen =>
    match parseI64 line with
    | none => .error (.protocol ("Invalid bulk string length: " ++ line))
    | some len =>
        if len < 0 then .ok (some (.nil, headerLen))
        else
          let len := len.toInt.toNat
          let needed := usizeAdd (usizeAdd headerLen len) 2
          if buf.length < needed then .ok none
          else
            match slice buf headerLen (usizeAdd headerLen len) with
            | .error e => .error e
            | .ok data => .ok (some (.bulkString data, needed))

/-- The loop of `parse_array`, over the remaining count. -/
def parseItems (parseOne : Bytes → Parsed) (buf : Bytes) :
    Nat → Nat → List RespValue → Parsed
  | 0, offset, items => .ok (some (.array items, offset))
  | count + 1, offset, items =>
      match sliceFrom buf offset with
      | .error e => .error e
      | .ok rest =>
          match parseOne rest with
          | .error e => .error e
          | .ok none => .ok none
          | .ok (some (val, consumed)) =>
              parseItems parseOne buf count (usizeAdd offset consumed) (items ++ [val])

/-- `Vec::with_capacity` panics when the capacity in bytes exceeds `isizeMax`;
`elemSize` is the size of a `RespValue`. -/
def parseArray (elemSize : Nat) (parseOne : Bytes → Parsed) (buf : Bytes) : Parsed :=
  withLine buf fun line offset =>
    match parseI64 line with
    | none => .error (.protocol ("Invalid array length: " ++ line))
    | some count =>
        if count < 0 then .ok (some (.nil, offset))
        else
          let count := count.toInt.toNat
          if count * elemSize > isizeMax then .error .panic
          else parseItems parseOne buf count offset []

/-- A byte in two lower-case hexadecimal digits. -/
def hexByte (b : UInt8) : String :=
  let digit (d : Nat) : Char := "0123456789abcdef".toList.getD d '0'
  String.ofList [digit (b.toNat / 16), digit (b.toNat % 16)]

/-- The body of `parse`, with the parser used for array elements. -/
def parseBody (elemSize : Nat) (parseOne : Bytes → Parsed) (buf : Bytes) : Parsed :=
  match buf.head? with
  | none => .ok none
  | some 43 => parseSimpleString buf
  | some 45 => parseError buf
  | some 58 => parseInteger buf
  | some 36 => parseBulkString buf
  | some 42 => parseArray elemSize parseOne buf
  | some other => .error (.protocol ("Unknown RESP type byte: 0x" ++ hexByte other))

def parseAt (elemSize : Nat) : Nat → Bytes → Parsed
  | 0, _ => .error .panic
  | depth + 1, buf => parseBody elemSize (parseAt elemSize depth) buf

def parse (elemSize : Nat) (buf : Bytes) : Parsed := parseAt elemSize (buf.length + 1) buf

/-- The loop of `parse_all`, with the given number of iterations left. -/
def parseAllLoop (elemSize : Nat) (buf : Bytes) :
    Nat → Nat → List RespValue → Except Fault (List RespValue × Nat)
  | 0, _, _ => .error .panic
  | left + 1, offset, values =>
      match sliceFrom buf offset with
      | .error e => .error e
      | .ok rest =>
          match parse elemSize rest with
          | .error e => .error e
          | .ok none => .ok (values, offset)
          | .ok (some (val, consumed)) =>
              parseAllLoop elemSize buf left (usizeAdd offset consumed) (values ++ [val])

/-- `parse_all`; every iteration but the last consumes at least one byte. -/
def parseAll (elemSize : Nat) (buf : Bytes) : Except Fault (List RespValue × Nat) :=
  parseAllLoop elemSize buf (buf.length + 1) 0 []

/-! ## The encoder -/

mutual

/-- `encode`: append the encoding to a buffer. -/
def encode : RespValue → Bytes → Bytes
  | .simpleString s, buf => buf ++ [43] ++ asBytes s ++ crlf
  | .error e, buf => buf ++ [45] ++ asBytes e ++ crlf
  | .integer n, buf => buf ++ [58] ++ Decimal.intNumeral n.toInt ++ crlf
  | .bulkString data, buf =>
      buf ++ [36] ++ Decimal.numeral data.length ++ crlf ++ data ++ crlf
  | .nil, buf => buf ++ [36, 45, 49] ++ crlf
  | .array items, buf => encodeItems items (buf ++ [42] ++ Decimal.numeral items.length ++ crlf)

/-- The loop over the items of an array. -/
def encodeItems : List RespValue → Bytes → Bytes
  | [], buf => buf
  | item :: items, buf => encodeItems items (encode item buf)

end

def encodeToVec (val : RespValue) : Bytes := encode val []

end MemLane
