import LuaChunk.Markdown.Cursor
import LuaChunk.Markdown.Html

/-!
The blocks of a Markdown text: quotations, lists and their items hold other blocks, all others hold
lines. A block is open as long as lines can still belong to it. `Block.proceed` says whether an open
block takes the line at the cursor; `Opener.try_` opens a new block there. Both move the cursor
behind what belongs to the block.
-/

set_option autoImplicit false

namespace LuaChunk.Markdown

open LuaChunk

/-- A block of code between fences. -/
structure Fence where
  info : Bytes := []
  /-- the number of the first line of the content; none if it has no lines -/
  line? : Option Nat := none
  content : Bytes := []
  deriving DecidableEq, Repr

inductive Block where
  | quote
  | list (marker : UInt8)
  /-- the width of the marker with the blanks after it; whether nothing is in the item yet -/
  | item (width : Nat) (isEmpty : Bool)
  | indentedCode
  | single
  /-- the byte that fences are made of, how many of them, how far the opening fence is indented, and
  the content, the last line first -/
  | fence (mark : UInt8) (size indent : Nat) (info : Bytes) (line? : Option Nat)
    (lines : List Bytes)
  | html (ending : HtmlEnd) (ended : Bool)
  | paragraph
  deriving DecidableEq, Repr

namespace Block

def isParagraph : Block → Bool
  | .paragraph => true
  | _ => false

def fence? : Block → Option Fence
  | .fence _ _ _ info line? lines => some ⟨info, line?, lines.reverse.flatten⟩
  | _ => none

def holdsBlocks : Block → Bool
  | .quote => true
  | .list _ => true
  | .item .. => true
  | _ => false

end Block

/-- The state of reading: a position, and what is known of list items across lines. -/
structure Reading where
  cursor : Cursor
  /-- the item's own list is the one that goes on, so no list opens -/
  skipList : Bool := false
  /-- an item without content is followed by a blank line -/
  blankItem : Bool := false

namespace Reading

def line (r : Reading) : Bytes := r.cursor.line?.getD []

def move (r : Reading) (change : Cursor → Cursor) : Reading := { r with cursor := change r.cursor }

def indent (r : Reading) : Nat × Nat := Markdown.indent r.cursor.offset r.line

end Reading

/-- Whether a line is a rule: three or more of one mark, with blanks between them. -/
def isRule (column : Nat) (line : Bytes) : Bool :=
  let marks := line.filter fun b => !Text.isBlank b
  (indent column line).1 ≤ 3 && 3 ≤ marks.length
    && [byte '*', byte '-', byte '_'].any fun m => marks.all (· == m)

def underline? (line : Bytes) : Option UInt8 :=
  let s := ((line.dropWhile (· == 32)).reverse.dropWhile Text.isBlank).reverse
  if 3 < (line.takeWhile (· == 32)).length then none
  else [byte '=', byte '-'].find? fun m => !s.isEmpty && s.all (· == m)

/-- The start of a list item. -/
structure ItemMark where
  marker : UInt8
  number? : Option Nat
  /-- how many bytes there are up to the end of the marker -/
  stop : Nat

def ItemMark.content (m : ItemMark) (line : Bytes) : Bytes := line.drop m.stop

def isBullet (b : UInt8) : Bool := b == byte '-' || b == byte '*' || b == byte '+'

def isDigit (b : UInt8) : Bool := 48 ≤ b && b ≤ 57

def decimal (digits : Bytes) : Nat := digits.foldl (fun n b => 10 * n + (b.toNat - 48)) 0

def marker? (indent : Nat) (s : Bytes) : Option ItemMark :=
  match s with
  | [] => none
  | b :: _ =>
    if isBullet b then some ⟨b, none, indent + 1⟩
    else
      let digits := s.takeWhile isDigit
      match s.dropWhile isDigit with
      | [] => none
      | p :: _ =>
        if digits.isEmpty || 9 < digits.length || !(p == byte '.' || p == byte ')') then none
        else some ⟨p, some (decimal digits), indent + digits.length + 1⟩

/-- The start of a list item on a line: a marker after up to three blanks and before white space. -/
def itemMark? (line : Bytes) : Option ItemMark := do
  let blanks := (line.takeWhile (· == 32)).length
  if 3 < blanks then none
  let m ← marker? blanks (line.drop blanks)
  match m.content line with
  | [] => some m
  | b :: _ => if b == 10 || b == 32 || b == 9 then some m else none

/-- The width from the marker's end to the content of an item; an item that starts with code or has
no content on its line counts one. -/
def ItemMark.gap (m : ItemMark) (line : Bytes) : Nat :=
  let content := m.content line
  if isBlankLine content then 1
  else
    let width := (indent m.stop content).1
    if 4 < width then 1 else width

/-- The position of the first byte that is no blank, if the line has one. -/
def firstText (line : Bytes) : Nat :=
  let n := (line.takeWhile fun b => b == 32 || b == 9).length
  match line.drop n with
  | [] => 0
  | b :: _ => if b = 10 then 0 else n

/-- A line of code between fences. As much of its indentation is left out as the opening fence
has. -/
def fenceLine (c : Cursor) (fenceIndent : Nat) : Bytes :=
  let line := c.line?.getD []
  let text := match indentEnd? c.offset c.padding fenceIndent line with
    | none => c.rest.drop (firstText line)
    | some (pos, padding) => List.replicate padding 32 ++ c.rest.drop pos
  if text.isEmpty || text.getLast? = some 10 then text else text ++ [10]

def closesFence (r : Reading) (mark : UInt8) (size : Nat) : Bool :=
  let (width, pos) := r.indent
  let s := r.line.drop pos
  width < 4 && size ≤ (s.takeWhile (· == mark)).length && isBlankLine (s.dropWhile (· == mark))

def quote? (r : Reading) : Option Reading :=
  let (width, pos) := r.indent
  match r.line.drop pos with
  | [] => none
  | b :: after =>
    if 3 < width || b != byte '>' then none
    else
      let r := r.move (Cursor.advance (pos + 1))
      match after with
      | 32 :: _ => some (r.move (Cursor.advancePadded 1 0))
      | 9 :: _ => some (r.move (Cursor.advancePadded 1 (tabWidth r.cursor.offset - 1)))
      | _ => some r

/-- Whether a list goes on, by what is known of its last item. It goes on with a new item or with a
line that is indented into the last one. -/
def listGoesOn (r : Reading) (marker : UInt8) (width : Nat) (isEmpty afterParagraph : Bool) :
    Bool :=
  let indent := r.indent.1
  let byIndent := !(isEmpty && indent < width) && !r.blankItem
  if indent < width || isEmpty then
    match if indent < 4 then itemMark? r.line else none with
    | some m =>
      let s := r.line.drop (m.stop - 1)
      m.marker == marker
        && (!isRule 0 s || (afterParagraph && underline? s == some (byte '-')))
    | none => isEmpty && byIndent
  else byIndent

namespace Block

/-- Whether an open block takes the line, and the block after it has. `above` are the open blocks in
it, outermost first. -/
def proceed (above : List Block) (r : Reading) : Block → Reading × Option Block
  | .quote =>
    match quote? r with
    | some r => (r, some .quote)
    | none => (r, none)
  | .list marker =>
    let (width, isEmpty) := match above with
      | .item width isEmpty :: _ => (width, isEmpty)
      | _ => (0, false)
    if isBlankLine r.line then
      ({ r with blankItem := r.blankItem || isEmpty }, some (.list marker))
    else
      let afterParagraph := (above.getLast?.map isParagraph).getD false
      (r, if listGoesOn r marker width isEmpty afterParagraph then some (.list marker) else none)
  | .item width isEmpty =>
    if isBlankLine r.line then (r.move Cursor.toEnd, some (.item width isEmpty))
    else
      let indent := r.indent.1
      let unclear := isEmpty && r.blankItem
      let isNext := (unclear || indent < width) && indent < 4
      if isNext && (itemMark? r.line).isSome then ({ r with skipList := true }, none)
      else if isNext && !unclear then (r, none)
      else
        let (pos, padding) := (indentEnd? r.cursor.offset 0 width r.line).getD (0, 0)
        (r.move (Cursor.advancePadded pos padding), some (.item width isEmpty))
  | .indentedCode =>
    let goesOn := isBlankLine r.line || (indentEnd? r.cursor.offset 0 4 r.line).isSome
    (r, if goesOn then some .indentedCode else none)
  | .single => (r, none)
  | .fence mark size fenceIndent info line? lines =>
    if closesFence r mark size then (r.move Cursor.toEnd, none)
    else (r.move Cursor.toEnd, some (.fence mark size fenceIndent info
      (line? <|> some r.cursor.number) (fenceLine r.cursor fenceIndent :: lines)))
  | .html ending ended =>
    if ended || (ending = .blank && isBlankLine r.line) then (r, none)
    else if Html.isIn ending r.line then
      (r.move (if ending = .rawText then Cursor.toEnd else Cursor.advance r.line.length), none)
    else (r.move Cursor.toEnd, some (.html ending false))
  | .paragraph => (r, none)

end Block

/-- The open blocks around a place where a new one may open. -/
structure Around where
  inside : List Block
  /-- those that did not take the line, outermost first -/
  closing : List Block
  /-- whether the innermost of the first was opened on this line -/
  isNew : Bool := false

namespace Around

def afterParagraph (a : Around) : Bool :=
  !a.isNew && (a.closing.getLast?.map Block.isParagraph).getD false

def besideParagraph (a : Around) : Bool := !a.isNew && a.closing == [.paragraph]

def afterList (a : Around) : Bool :=
  match if a.isNew || a.closing.isEmpty then a.inside.head? else a.closing.getLast? with
  | some (.list _) => true
  | _ => false

def inList (a : Around) : Bool :=
  match a.inside with
  | .list _ :: _ => true
  | _ => false

def add (a : Around) (b : Block) : Around :=
  let inside := match a.inside with
    | .item width _ :: rest => .item width false :: rest
    | bs => bs
  { a with inside := b :: inside, isNew := true }

end Around

/-- The ways in which a block can start. -/
inductive Opener where
  | underline
  | rule
  | list
  | item
  | heading
  | fence
  | quote
  | html
  | indentedCode
  | paragraph
  deriving DecidableEq, Repr

def backtick : UInt8 := 96

namespace Opener

/-- The ways to try for a line whose first byte after the indentation is this one, in order. -/
def ofByte (b : UInt8) : List Opener :=
  let marked :=
    if b == byte '=' then [underline]
    else if b == byte '-' then [underline, rule, list, item]
    else if b == byte '*' then [rule, list, item]
    else if b == byte '_' then [rule]
    else if b == byte '+' || isDigit b then [list, item]
    else if b == byte '#' then [heading]
    else if b == backtick || b == byte '~' then [fence]
    else if b == byte '>' then [quote]
    else if b == byte '<' then [html]
    else []
  marked ++ [indentedCode, paragraph]

def interrupts : Opener → Bool
  | .indentedCode => false
  | .paragraph => false
  | _ => true

/-- The text after the opening fence, without white space around it. A line that ends right after
the first byte of that text, without a newline, has none. -/
def fenceInfo (s : Bytes) : Bytes :=
  if s.length < 2 then []
  else (((s.dropWhile Text.isBlank).reverse.dropWhile Text.isBlank).reverse)

def fence? (line : Bytes) (pos : Nat) : Option Block := do
  let s := line.drop pos
  let mark ← s.head?
  let size := (s.takeWhile (· == mark)).length
  let info := fenceInfo (s.drop size)
  if size < 3 || (mark == backtick && info.contains mark) then none
  some (.fence mark size pos info none [])

def heading? (line : Bytes) (pos : Nat) : Option Block :=
  let s := line.drop pos
  let level := (s.takeWhile (· == byte '#')).length
  match s.drop level with
  | [] => if level ≤ 6 then some .single else none
  | b :: _ => if level ≤ 6 && Text.isBlank b then some .single else none

/-- A list does not open where the innermost block is a list already. After a paragraph's line it
has to start with a number one or a bullet, and with content. -/
def list? (a : Around) (r : Reading) : Reading × Option (Block × Bool) :=
  if a.afterList || r.skipList then ({ r with skipList := false }, none)
  else match itemMark? r.line with
    | none => (r, none)
    | some m =>
      let weak := (m.number?.map (· != 1)).getD false || isBlankLine (m.content r.line)
      if a.besideParagraph && weak then (r, none)
      else ({ r with blankItem := false }, some (.list m.marker, true))

def item? (a : Around) (r : Reading) : Reading × Option (Block × Bool) :=
  match if a.inList then itemMark? r.line else none with
  | none => (r, none)
  | some m =>
    let r := { r with blankItem := false }
    let gap := m.gap r.line
    let content := m.content r.line
    let block := Block.item (m.stop + gap) true
    if isBlankLine content then (r, some (block, false))
    else
      let (pos, padding) := (indentEnd? m.stop 0 gap content).getD (0, 0)
      (r.move (Cursor.advancePadded (m.stop + pos) padding), some (block, true))

/-- Opens a block at the cursor, if this way of starting one fits. The flag says whether another one
may open in it on the same line. -/
def try_ (o : Opener) (a : Around) (r : Reading) : Reading × Option (Block × Bool) :=
  let leaf := fun (b : Option Block) => (r, b.map fun b => (b, false))
  let (width, pos) := r.indent
  match o with
  | .underline =>
    leaf (if a.besideParagraph && (underline? r.line).isSome then some .single else none)
  | .rule => leaf (if isRule r.cursor.offset r.line then some .single else none)
  | .list => list? a r
  | .item => item? a r
  | .heading => leaf (if width < r.line.length then heading? r.line pos else none)
  | .fence => leaf (if width < r.line.length then fence? r.line pos else none)
  | .quote =>
    match quote? r with
    | some r => (r, some (.quote, true))
    | none => (r, none)
  | .html => leaf ((Html.start? a.afterParagraph r.line).map fun e =>
      .html e (Html.isIn e r.line))
  | .indentedCode => leaf (if 4 ≤ width && !isBlankLine r.line then some .indentedCode else none)
  | .paragraph => leaf (if isBlankLine r.line then none else some .paragraph)

/-- Whether a way of starting a block is open to a line with this indentation. -/
def allowed (a : Around) (width : Nat) (o : Opener) : Bool :=
  (!a.afterParagraph || o.interrupts) && (width ≤ 3 || o = .indentedCode)

def tryAll (a : Around) (width : Nat) : List Opener → Reading → Reading × Option (Block × Bool)
  | [], r => (r, none)
  | o :: rest, r =>
    if !allowed a width o then tryAll a width rest r
    else match o.try_ a r with
      | (r, some b) => (r, some b)
      | (r, none) => tryAll a width rest r

end Opener

end LuaChunk.Markdown
