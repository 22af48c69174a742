import LuaChunk.Text.Blank

set_option autoImplicit false

namespace LuaChunk.Markdown

open LuaChunk

/-- How a block of HTML ends. -/
inductive HtmlEnd where
  /-- with the line that has the closing tag of an element with raw text -/
  | rawText
  | mark (text : Bytes)
  | blank
  deriving DecidableEq, Repr

namespace Html

def lower (b : UInt8) : UInt8 := if 65 ≤ b && b ≤ 90 then b + 32 else b

def isLetter (b : UInt8) : Bool := 97 ≤ lower b && lower b ≤ 122

def isNameByte (b : UInt8) : Bool := isLetter b || (48 ≤ b && b ≤ 57)

def rawElements : List Bytes := ["script", "pre", "style", "textarea"].map utf8

def blockElements : List Bytes :=
  ["address", "article", "aside", "base", "basefont", "blockquote", "body", "caption", "center",
    "col", "colgroup", "dd", "details", "dialog", "dir", "div", "dl", "dt", "fieldset",
    "figcaption", "figure", "footer", "form", "frame", "frameset", "h1", "h2", "h3", "h4", "h5",
    "h6", "head", "header", "hr", "html", "iframe", "legend", "li", "link", "main", "menu",
    "menuitem", "meta", "nav", "noframes", "ol", "optgroup", "option", "p", "param", "search",
    "section", "summary", "table", "tbody", "td", "tfoot", "th", "thead", "title", "tr", "track",
    "ul"].map utf8

def atLineEnd (s : Bytes) : Bool := s.isEmpty || s == [10] || s == [13, 10]

def afterAngle? (line : Bytes) : Option Bytes :=
  if 3 < (line.takeWhile (· == 32)).length then none
  else Bytes.dropPrefix? (utf8 "<") (line.dropWhile (· == 32))

def startsRawText (s : Bytes) : Bool :=
  rawElements.any fun name =>
    match Bytes.dropPrefix? name (s.map lower) with
    | none => false
    | some [] => true
    | some (b :: rest) => (Text.isBlank b && b != 11) || b = 62 || (b = 47 && rest.head? = some 62)

def endsRawText (line : Bytes) : Bool :=
  rawElements.any fun name =>
    Bytes.occursIn (utf8 "</" ++ name ++ utf8 ">") (line.map lower)

def isIn (e : HtmlEnd) (line : Bytes) : Bool :=
  match e with
  | .rawText => endsRawText line
  | .mark text => Bytes.occursIn text line
  | .blank => false

/-- The slash of a closing tag with the blanks after it, and the rest. -/
def slash (s : Bytes) : Bytes × Bytes :=
  match s with
  | 47 :: rest => (47 :: rest.takeWhile (· == 32), rest.dropWhile (· == 32))
  | _ => ([], s)

def tagName? (s : Bytes) : Option (Bytes × Bytes) :=
  match s with
  | b :: _ =>
    if isLetter b then
      some (s.takeWhile (fun c => isNameByte c || c == 45),
        s.dropWhile fun c => isNameByte c || c == 45)
    else none
  | [] => none

def isTagSpace (b : UInt8) : Bool := b == 13 || b == 10 || b == 32 || b == 9

def afterQuote? (q : UInt8) (s : Bytes) : Option Bytes :=
  match s.dropWhile (· != q) with
  | _ :: rest => some rest
  | [] => none

def isBareValue (b : UInt8) : Bool :=
  32 < b && b != 34 && b != 39 && b != 61 && b != 60 && b != 62 && b != 96

def afterValue? (s : Bytes) : Option Bytes :=
  match s with
  | 39 :: rest => afterQuote? 39 rest
  | 34 :: rest => afterQuote? 34 rest
  | b :: _ => if isBareValue b then some (s.dropWhile isBareValue) else none
  | [] => none

/-- The text after `=` and a value, or the same text if they are not there. -/
def passValue (s : Bytes) : Bytes :=
  match s.dropWhile isTagSpace with
  | 61 :: rest => (afterValue? (rest.dropWhile isTagSpace)).getD s
  | _ => s

def afterAttribute? (s : Bytes) : Option Bytes :=
  match s with
  | b :: _ =>
    if !isTagSpace b then none
    else match s.dropWhile isTagSpace with
      | c :: rest =>
        if isLetter c || c == 95 || c == 58 then
          some (passValue (rest.dropWhile fun d =>
            isNameByte d || d == 58 || d == 46 || d == 95 || d == 45))
        else none
      | [] => none
  | [] => none

/-- The text after all attributes. Each of them takes some of the text, so as many steps as the text
has bytes are enough. -/
def passAttributes : Nat → Bytes → Bytes
  | 0, s => s
  | n + 1, s =>
    match afterAttribute? s with
    | some rest => passAttributes n rest
    | none => s

/-- Whether a tag ends here and nothing but blanks comes after it on the line. -/
def endsTag (s : Bytes) : Bool :=
  let s := s.dropWhile (· == 32)
  let after := match s with
    | 62 :: rest => some rest
    | 47 :: 62 :: rest => some rest
    | _ => none
  match after with
  | some rest => atLineEnd (rest.dropWhile (· == 32))
  | none => false

def endsName : Bytes → Bool
  | 32 :: _ => true
  | 62 :: _ => true
  | 47 :: 62 :: _ => true
  | s => atLineEnd s

/-- How a block ends that a tag opens. Tags of other than block elements open one only if they are
complete and alone on their line, and not within a paragraph. -/
def tagEnd? (afterParagraph : Bool) (s : Bytes) : Option HtmlEnd :=
  let (closing, s) := slash s
  match tagName? s with
  | none => none
  | some (name, rest) =>
    let name := name.map lower
    let after := passAttributes rest.length rest
    if blockElements.contains name then if endsTag after || endsName rest then some .blank else none
    else if endsTag after && !afterParagraph && !(rawElements.take 3).contains name
        && !(closing == [47] && after.length < rest.length) then some .blank
    else none

def start? (afterParagraph : Bool) (line : Bytes) : Option HtmlEnd := do
  let s ← afterAngle? line
  if startsRawText s then return .rawText
  if Bytes.startsWith s (utf8 "!--") then return .mark (utf8 "-->")
  if Bytes.startsWith s (utf8 "?") then return .mark (utf8 "?>")
  match s with
  | 33 :: b :: _ => if 65 ≤ b && b ≤ 90 then return .mark (utf8 ">")
  | _ => pure ()
  if Bytes.startsWith s (utf8 "![CDATA[") then return .mark (utf8 "]]>")
  tagEnd? afterParagraph s

end Html

end LuaChunk.Markdown
