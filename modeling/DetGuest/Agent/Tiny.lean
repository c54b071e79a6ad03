import DetGuest.Lib.Exec
import DetGuest.Lib.Text

/-!
# The parser of the boot manifest's format

The agent parses a subset of TOML line by line: comments, headers of tables and of arrays of
tables, and keys with strings, integers or arrays of strings.
-/

namespace Agent

namespace Tiny

/-! ### Values -/

/-- A value.  The keys of a table are unique. -/
inductive Value where
  | str (s : Text)
  | int (i : Int)
  | array (items : List Value)
  | table (entries : List (Text × Value))
  deriving Repr

/-- A table: its keys and values. -/
abbrev Table : Type := List (Text × Value)

/-- The value of a key. -/
def Table.get (t : Table) (key : Text) : Option Value := t.lookup key

/-- Set the value of a key. -/
def Table.set (t : Table) (key : Text) (v : Value) : Table :=
  match t with
  | [] => [(key, v)]
  | (k, w) :: t => if k = key then (key, v) :: t else (k, w) :: set t key v

def Value.asTable : Value → Option Table
  | .table entries => some entries
  | _ => none

def Value.asInteger : Value → Option Int
  | .int i => some i
  | _ => none

def Value.asStr : Value → Option Text
  | .str s => some s
  | _ => none

def Value.asArray : Value → Option (List Value)
  | .array items => some items
  | _ => none

/-! ### Errors -/

/-- Why a line cannot be parsed. -/
inductive Error where
  | expectedString (s : Text)
  | unsupportedEscape (other : Option (Nat × Char))
  | unterminatedString
  | badInteger (s : Text) (e : Text.ParseIntError)
  | trailingJunk (rest : Text)
  | unterminatedArray (t : Text)
  | expectedComma (rest : Text)
  | invalidSegment (seg : Text)
  | notTableArray (seg : Text)
  | notTable (seg : Text)
  | malformedArrayHeader
  | emptyArrayHeader
  | invalidTableName (last : Text)
  | notArrayOfTables (last : Text)
  | malformedHeader
  | invalidKey (key : Text)
  | duplicateKey (key : Text)
  | unrecognizedLine (line : Text)
  deriving DecidableEq, Repr

/-- The `Debug` forms of texts and of positions in them. -/
structure Debug where
  text : Text → String
  escape : Option (Nat × Char) → String

/-- The text of an error. -/
def Error.message (debug : Debug) : Error → String
  | .expectedString s => s!"expected string at {debug.text s}"
  | .unsupportedEscape other => s!"unsupported escape {debug.escape other}"
  | .unterminatedString => "unterminated string"
  | .badInteger s e => s!"bad integer {debug.text s}: {e.message}"
  | .trailingJunk rest => s!"trailing junk after string: {debug.text rest}"
  | .unterminatedArray t => s!"unterminated array {debug.text t}"
  | .expectedComma rest => s!"expected ',' in array near {debug.text rest}"
  | .invalidSegment seg => s!"invalid table name segment {debug.text seg}"
  | .notTableArray seg => s!"{String.ofList seg} is not a table array"
  | .notTable seg => s!"{String.ofList seg} is not a table"
  | .malformedArrayHeader => "malformed [[header]]"
  | .emptyArrayHeader => "empty [[header]]"
  | .invalidTableName last => s!"invalid table name {debug.text last}"
  | .notArrayOfTables last => s!"{String.ofList last} is not an array of tables"
  | .malformedHeader => "malformed [header]"
  | .invalidKey key => s!"invalid key {debug.text key}"
  | .duplicateKey key => s!"duplicate key {debug.text key}"
  | .unrecognizedLine line => s!"unrecognized line {debug.text line}"

/-- An error with the number of its line. -/
structure LineError where
  line : Nat
  error : Error
  deriving DecidableEq, Repr

/-- The text of an error in a line. -/
def LineError.message (debug : Debug) (e : LineError) : String :=
  s!"line {e.line}: {e.error.message debug}"

/-! ### Values of a line -/

/-- The characters of a line up to a comment, inside or outside of a string, and behind a
backslash or not. -/
def stripCommentFrom (inStr escaped : Bool) : Text → Text
  | [] => []
  | c :: cs =>
      if c = '\\' ∧ inStr = true ∧ escaped = false then c :: stripCommentFrom inStr true cs
      else if c = '"' ∧ escaped = false then c :: stripCommentFrom (!inStr) false cs
      else if c = '#' ∧ inStr = false then []
      else c :: stripCommentFrom inStr false cs

/-- A line without its comment. -/
def stripComment (line : Text) : Text := stripCommentFrom false false line

/-- The character of an escape. -/
def unescape (c : Char) : Option Char :=
  if c = '"' then some '"'
  else if c = '\\' then some '\\'
  else if c = 'n' then some '\n'
  else if c = 't' then some '\t'
  else none

/-- Scan a string behind its opening quote; `i` is the position of the next character. -/
def scanString (i : Nat) (out : Text) : Text → Res Error (Text × Text)
  | [] => .err .unterminatedString
  | c :: cs =>
      if c = '"' then .ok (out, cs)
      else if c = '\\' then
        match cs with
        | [] => .err (.unsupportedEscape none)
        | e :: cs =>
            match unescape e with
            | some d => scanString (i + 1 + e.utf8Size) (out ++ [d]) cs
            | none => .err (.unsupportedEscape (some (i + 1, e)))
      else scanString (i + c.utf8Size) (out ++ [c]) cs

/-- Parse a string, and return what is behind it. -/
def parseString (s : Text) : Res Error (Text × Text) :=
  match s with
  | '"' :: rest => scanString 0 [] rest
  | _ => .err (.expectedString s)

/-- The sign in front of an integer is stripped: whether it is `-`, and what is behind it. -/
def stripSign (t : Text) : Bool × Text :=
  match t with
  | '-' :: r => (true, r)
  | '+' :: r => (false, r)
  | _ => (false, t)

/-- Read digits in the radix that their start says. -/
def parseDigits (digits : Text) : Except Text.ParseIntError Int :=
  match digits with
  | '0' :: 'x' :: hex => Text.fromStrRadix 16 hex
  | '0' :: 'X' :: hex => Text.fromStrRadix 16 hex
  | _ => Text.fromStrRadix 10 digits

/-- `-v` on `i64`, which panics for the least number when overflow is checked, and wraps when
it is not. -/
def negate (dbg : Bool) (v : Int) : Res Error Int :=
  if v = -2 ^ 63 then if dbg then .panic else .ok v else .ok (-v)

/-- Parse an integer. -/
def parseInt (dbg : Bool) (s : Text) : Res Error Int :=
  let (neg, t) := stripSign (Text.trim s)
  match parseDigits (t.filter (· ≠ '_')) with
  | .error e => .err (.badInteger s e)
  | .ok v => if neg then negate dbg v else .ok v

/-- Parse the strings of an array.  A round takes a string, so that there are no more rounds
than characters. -/
def parseItems : Nat → Text → Res Error (List Value)
  | 0, _ => .ok []
  | fuel + 1, rest =>
      if rest = [] then .ok []
      else do
        let (v, after) ← parseString rest
        match Text.trimStart after with
        | [] => pure [.str v]
        | ',' :: r => do
            let items ← parseItems fuel (Text.trimStart r)
            pure (.str v :: items)
        | rest => .err (.expectedComma rest)

/-- Parse a value. -/
def parseValue (dbg : Bool) (s : Text) : Res Error Value :=
  match Text.trim s with
  | '"' :: cs => do
      let (v, rest) ← parseString ('"' :: cs)
      Res.failIf (Text.trim rest ≠ []) (.trailingJunk rest)
      pure (.str v)
  | '[' :: inner =>
      if inner.getLast? = some ']' then do
        let rest := Text.trim inner.dropLast
        let items ← parseItems rest.length rest
        pure (.array items)
      else .err (.unterminatedArray ('[' :: inner))
  | t => do
      let i ← parseInt dbg t
      pure (.int i)

/-! ### Tables -/

/-- `char::is_ascii_alphanumeric`. -/
def isAsciiAlphanumeric (c : Char) : Bool :=
  ('0'.toNat ≤ c.toNat && c.toNat ≤ '9'.toNat) || ('a'.toNat ≤ c.toNat && c.toNat ≤ 'z'.toNat) ||
    ('A'.toNat ≤ c.toNat && c.toNat ≤ 'Z'.toNat)

/-- Whether a text is a key. -/
def validKey (k : Text) : Bool :=
  k ≠ [] && k.all fun c => isAsciiAlphanumeric c || c == '_' || c == '-'

/-- Change the table at a path.  Tables that are missing are created, and through an array of
tables the path goes by its last table. -/
def navigate (change : Table → Res Error Table) : List Text → Table → Res Error Table
  | [], cur => change cur
  | seg :: path, cur =>
      if validKey seg then
        match cur.get seg with
        | none => do
            let t ← navigate change path []
            pure (cur.set seg (.table t))
        | some (.table t) => do
            let t ← navigate change path t
            pure (cur.set seg (.table t))
        | some (.array items) =>
            match items.getLast? with
            | some (.table t) => do
                let t ← navigate change path t
                pure (cur.set seg (.array (items.dropLast ++ [.table t])))
            | _ => .err (.notTableArray seg)
        | some _ => .err (.notTable seg)
      else .err (.invalidSegment seg)

/-- Append an empty table to the array of a key, which is created if it is missing. -/
def pushTable (key : Text) (t : Table) : Res Error Table :=
  match t.get key with
  | none => .ok (t.set key (.array [.table []]))
  | some (.array items) => .ok (t.set key (.array (items ++ [.table []])))
  | some _ => .err (.notArrayOfTables key)

/-- Insert a key that is not there yet. -/
def insertKey (key : Text) (v : Value) (t : Table) : Res Error Table :=
  match t.get key with
  | none => .ok (t.set key v)
  | some _ => .err (.duplicateKey key)

/-- The document so far, and the path of its open table. -/
structure Doc where
  root : Table
  curPath : List Text

/-- The segments of a header. -/
def segments (header : Text) : List Text :=
  ((Text.trim header).splitOn '.').map Text.trim

/-- A text without the characters at its end, if they are there. -/
def stripSuffix (s ending : Text) : Option Text :=
  if ending <:+ s then some (s.take (s.length - ending.length)) else none

/-- A line in front of and behind the first `=`. -/
def splitKey : Text → Option (Text × Text)
  | [] => none
  | c :: cs => if c = '=' then some ([], cs) else (splitKey cs).map fun p => (c :: p.1, p.2)

/-- A header of an array of tables. -/
def openArray (doc : Doc) (h : Text) : Res Error Doc :=
  match stripSuffix h [']', ']'] with
  | none => .err .malformedArrayHeader
  | some name =>
      let segs := segments name
      match segs.getLast? with
      | none => .err .emptyArrayHeader
      | some last =>
          if validKey last then do
            let root ← navigate (pushTable last) segs.dropLast doc.root
            pure { root, curPath := segs }
          else .err (.invalidTableName last)

/-- A header of a table. -/
def openTable (doc : Doc) (h : Text) : Res Error Doc :=
  match stripSuffix h [']'] with
  | none => .err .malformedHeader
  | some name => do
      let root ← navigate .ok (segments name) doc.root
      pure { root, curPath := segments name }

/-- A key with its value. -/
def addKey (dbg : Bool) (doc : Doc) (line : Text) : Res Error Doc :=
  match splitKey line with
  | none => .err (.unrecognizedLine line)
  | some (k, v) =>
      let key := Text.trim k
      if validKey key then do
        let value ← parseValue dbg v
        let root ← navigate (insertKey key value) doc.curPath doc.root
        pure { doc with root }
      else .err (.invalidKey key)

/-- Parse a line that is stripped of its comment and of the blanks around it. -/
def parseStripped (dbg : Bool) (doc : Doc) (line : Text) : Res Error Doc :=
  match line with
  | [] => .ok doc
  | '[' :: '[' :: h => openArray doc h
  | '[' :: h => openTable doc h
  | _ => addKey dbg doc line

/-- Parse a line. -/
def parseLine (dbg : Bool) (doc : Doc) (raw : Text) : Res Error Doc :=
  parseStripped dbg doc (Text.trim (stripComment raw))

/-- Parse lines from the number `lineno` on. -/
def parseLines (dbg : Bool) (lineno : Nat) (doc : Doc) : List Text → Res LineError Doc
  | [] => .ok doc
  | raw :: raws => do
      let doc ← (parseLine dbg doc raw).mapErr (LineError.mk (lineno + 1))
      parseLines dbg (lineno + 1) doc raws

/-- Parse a document. -/
def parseDoc (dbg : Bool) (text : Text) : Res LineError Value := do
  let doc ← parseLines dbg 0 { root := [], curPath := [] } (Text.lines text)
  pure (.table doc.root)

end Tiny

end Agent
