import DensityKernel.Yaml.BlockScalar

/-!
Documents that are a mapping from names to scalars and to mappings of scalars,
in block or in flow style. Anything else, sequences, anchors, tags and deeper
nesting included, is no such document.

The readers of collections are given a number of steps, for which the length
of the text is enough.
-/

namespace DensityKernel.Yaml

/-- The value of an entry. -/
inductive Value where
  | scalar (s : Scalar)
  | mapping (entries : List (String × Scalar))
deriving DecidableEq, Repr

/-- The entries in the order in which they are written. -/
abbrev Document := List (String × Value)

/-- The colon after a name stands on the line on which the name begins, at most
so many characters after its first one. -/
def nameLimit : Nat := 1024

/-- The colon `c` ends the name that begins at `start`. -/
def endsName (start c : Placed) : Bool :=
  c.char == ':' && c.line == start.line && c.column ≤ start.column + nameLimit

/-! ### Flow style -/

/-- The next character that counts in a flow collection, and the rest. There is
none at the end of the text and where a document is marked. -/
def nextInFlow? (cs : List Placed) : Option (Placed × List Placed) :=
  match (skipBlanks true false false cs).2 with
  | [] => none
  | c :: rest => if atDocumentMarker (c :: rest) then none else some (c, rest)

/-- The value of an entry in flow style after its name: `empty` if there is no
colon or nothing after it. The colon has to end the name. -/
def flowEntryValue? {α : Type} (empty : α) (value : Reader α) (ends : Placed → Bool) :
    Reader α := fun cs => do
  let (c, rest) ← nextInFlow? cs
  if c.char != ':' then some ⟨empty, false, c :: rest⟩
  else if !ends c then none
  else
    let (d, after) ← nextInFlow? rest
    if d.char == ',' || d.char == '\x7d' then some ⟨empty, false, d :: after⟩
    else value (d :: after)

/-- The name of an entry after a question mark. It may be empty. -/
def markedFlowName? (indent : Nat) : Reader Scalar := fun cs => do
  let (c, rest) ← nextInFlow? cs
  if c.char == ':' || c.char == ',' || c.char == '\x7d' then some ⟨.empty, false, c :: rest⟩
  else lineScalar? true indent (c :: rest)

/-- The entries of a mapping in flow style after its opening brace. Lines with
which a plain scalar goes on must not have a tab before column `indent`. A name
after a question mark may be followed by its colon on any line. -/
def flowEntries? {α : Type} (indent : Nat) (empty : α) (value : Reader α) :
    Nat → Reader (List (String × α))
  | 0, _ => none
  | steps + 1, cs => do
    let (start, after) ← nextInFlow? cs
    if start.char == '\x7d' then some ⟨[], false, after⟩
    else
      let marked := start.char == '?'
      let key ← if marked then markedFlowName? indent after
        else lineScalar? true indent (start :: after)
      let v ← flowEntryValue? empty value (fun c => marked || endsName start c) key.rest
      let (c, rest) ← nextInFlow? v.rest
      if c.char == ',' then do
        let more ← flowEntries? indent empty value steps rest
        some (more.map ((key.value.text, v.value) :: ·))
      else if c.char == '\x7d' then some ⟨[(key.value.text, v.value)], false, rest⟩
      else none

/-- A mapping of scalars in flow style after its opening brace. -/
def flowMapping? (indent : Nat) : Reader Value := fun cs =>
  (flowEntries? indent Scalar.empty (lineScalar? true indent) (cs.length + 1) cs).map
    (·.map .mapping)

/-- A value in flow style. -/
def flowValue? (indent : Nat) : Reader Value
  | [] => none
  | c :: cs =>
    if c.char == '\x7b' then flowMapping? indent cs
    else (lineScalar? true indent (c :: cs)).map (·.map .scalar)

/-- A document in flow style after its opening brace. -/
def flowDocument? : Reader Document := fun cs =>
  flowEntries? 0 (.scalar .empty) (flowValue? 0) (cs.length + 1) cs

/-! ### Block style -/

/-- The text after the colon of a name in block style. A blank follows the
colon. -/
def afterName? (start : Placed) (cs : List Placed) : Option (List Placed) :=
  match cs.dropWhile fun c => isSpace c.char with
  | [] => none
  | c :: rest => if endsName start c && atBlank rest then some rest else none

/-- A scalar as a value in a mapping indented by `parent`. -/
def blockOrLineScalar? (parent : Nat) : Reader Scalar
  | [] => none
  | c :: cs =>
    if c.char == '|' then blockScalar? true parent cs
    else if c.char == '>' then blockScalar? false parent cs
    else lineScalar? false (parent + 1) (c :: cs)

/-- A scalar that does not turn out to be a name. -/
def bareScalar? (parent : Nat) : Reader Scalar
  | [] => none
  | c :: cs => do
    let found ← blockOrLineScalar? parent (c :: cs)
    if (afterName? c found.rest).isSome then none else some found

/-- What stands after a mark in a mapping indented by `parent`. On the line of
the mark it is read by `onLine`; on a later one, and after a mark that leaves
its line `fresh`, by `below`. A line that is not indented more can only hold
the mark of a block scalar; otherwise nothing is written. -/
def afterMark? {α : Type} (parent : Nat) (ofScalar : Scalar → α) (onLine below : Reader α)
    (fresh : Bool) : Reader α := fun cs =>
  let (fresh, cs) := skipBlanks false fresh false cs
  match cs with
  | [] => some ⟨ofScalar .empty, fresh, []⟩
  | c :: _ =>
    if !fresh then onLine cs
    else if parent < c.column then below cs
    else if c.column = parent && (c.char == '|' || c.char == '>') then
      (blockOrLineScalar? parent cs).map (·.map ofScalar)
    else some ⟨ofScalar .empty, fresh, cs⟩

/-- A question mark on its own marks a name. -/
def atMarkedName : List Placed → Bool
  | [] => false
  | c :: cs => c.char == '?' && atBlank cs

/-- An entry whose name begins in a given column or stands after a question mark
there. The colon of such a name begins a line, and leaves it fresh. -/
def blockEntry? {α : Type} (column : Nat) (empty : α) (value : (fresh : Bool) → Reader α) :
    Reader (String × α)
  | [] => none
  | start :: cs =>
    if atMarkedName (start :: cs) then do
      let key ← afterMark? column id (bareScalar? column) (bareScalar? column) true cs
      let (fresh, rest) := skipBlanks false key.fresh false key.rest
      match rest with
      | [] => some ⟨(key.value.text, empty), fresh, []⟩
      | c :: after =>
        if c.char == ':' && c.column = column && atBlank after then
          (value true after).map (·.map (key.value.text, ·))
        else some ⟨(key.value.text, empty), fresh, c :: after⟩
    else do
      let key ← lineScalar? false (column + 1) (start :: cs)
      let rest ← afterName? start key.rest
      (value false rest).map (·.map (key.value.text, ·))

/-- The entries of a mapping whose names begin in a given column. -/
def blockEntries? {α : Type} (column : Nat) (empty : α) (value : (fresh : Bool) → Reader α) :
    Nat → (fresh : Bool) → Reader (List (String × α))
  | 0, _, _ => none
  | steps + 1, fresh, cs =>
    let (fresh, cs) := skipBlanks false fresh false cs
    match cs with
    | [] => some ⟨[], fresh, []⟩
    | start :: _ =>
      if start.column < column || atDocumentMarker cs then some ⟨[], fresh, cs⟩
      else if column < start.column then none
      else do
        let entry ← blockEntry? column empty value cs
        let more ← blockEntries? column empty value steps entry.fresh entry.rest
        some (more.map (entry.value :: ·))

/-- The value of an entry of an inner mapping, after its colon. -/
def innerValue? (parent : Nat) (fresh : Bool) : Reader Scalar :=
  afterMark? parent id (blockOrLineScalar? parent) (blockOrLineScalar? parent) fresh

/-- A mapping of scalars in block style that begins with the text. -/
def blockMapping? : Reader Value
  | [] => none
  | c :: cs =>
    (blockEntries? c.column Scalar.empty (innerValue? c.column) (cs.length + 2) true
      (c :: cs)).map (·.map .mapping)

/-- A value on the line of its name. -/
def valueOnLine? (parent : Nat) : Reader Value
  | [] => none
  | c :: cs =>
    if c.char == '\x7b' then flowMapping? (parent + 1) cs
    else (blockOrLineScalar? parent (c :: cs)).map (·.map .scalar)

/-- A value where names may stand: a mapping if it begins with a name. -/
def valueBelow? (parent : Nat) : Reader Value
  | [] => none
  | c :: cs =>
    if atMarkedName (c :: cs) then blockMapping? (c :: cs)
    else do
      let found ← valueOnLine? parent (c :: cs)
      match found.value with
      | .scalar _ => if (afterName? c found.rest).isSome then blockMapping? (c :: cs) else some found
      | .mapping _ => some found

/-- The value of an entry of the document, after its colon. -/
def outerValue? (parent : Nat) (fresh : Bool) : Reader Value :=
  afterMark? parent .scalar (valueOnLine? parent) (valueBelow? parent) fresh

/-! ### Documents -/

/-- The mapping that a document is. Block style begins on a line of its own. -/
def content? (fresh : Bool) : Reader Document
  | [] => none
  | c :: cs =>
    if c.char == '\x7b' then flowDocument? cs
    else if fresh then
      blockEntries? c.column (.scalar .empty) (outerValue? c.column) (cs.length + 2) true (c :: cs)
    else none

/-- The document at the start of a text. A line that begins with three dashes
may come before it. -/
def document? : Reader Document := fun cs =>
  let (_, cs) := skipBlanks false true false cs
  if atMarker '-' cs then
    let (fresh, cs) := skipBlanks false false false (cs.drop 3)
    content? fresh cs
  else content? true cs

/-- Nothing follows but blanks, comments and lines with three points. -/
def isFinished : Nat → (fresh : Bool) → List Placed → Bool
  | 0, _, _ => false
  | steps + 1, fresh, cs =>
    let (_, cs) := skipBlanks false fresh false cs
    if atMarker '.' cs then isFinished steps false (cs.drop 3) else cs.isEmpty

/-- Line ends as single line feeds. -/
def normalizeBreaks : List Char → List Char
  | '\r' :: '\n' :: cs => '\n' :: normalizeBreaks cs
  | '\r' :: cs => '\n' :: normalizeBreaks cs
  | '\u0085' :: cs => '\n' :: normalizeBreaks cs
  | c :: cs => c :: normalizeBreaks cs
  | [] => []

/-- Characters that may stand in a document: tab, line ends, and everything that
is neither a control character nor one of the last two of the basic plane. -/
def isPermitted (c : Char) : Bool :=
  let n := c.toNat
  n == 0x9 || n == 0xA || n == 0xD || (0x20 ≤ n && n ≤ 0x7E) || n == 0x85
    || (0xA0 ≤ n && n ≤ 0xFFFD) || 0x10000 ≤ n

/-- The places of a text. A byte order mark at its start is passed, but takes up
a column. -/
def placed (cs : List Char) : List Placed :=
  match place 0 0 (normalizeBreaks cs) with
  | c :: rest => if c.char == '\uFEFF' then rest else c :: rest
  | [] => []

/-- Reads a document. -/
def Document.read? (text : String) : Option Document := do
  let cs := text.toList
  if !cs.all isPermitted then none
  else do
    let found ← document? (placed cs)
    if isFinished (found.rest.length + 1) found.fresh found.rest then some found.value else none

end DensityKernel.Yaml
