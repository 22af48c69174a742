import LuaChunk.Markdown.Block

/-!
Reading a Markdown text line by line. Each line goes to the open blocks from the outermost on, until
one does not take it; new blocks open there, and those that did not take the line are closed unless
the line goes on with a paragraph in them. `fences` gives the fenced code blocks of a text in order.
-/

set_option autoImplicit false

namespace LuaChunk.Markdown

open LuaChunk

/-- Opens as many blocks at the cursor as start there, each in the one before. Each of them takes a
byte of the line or is a list, whose item does, so `fuel` need not exceed twice the line. -/
def openBlocks : (fuel : Nat) → Around → Reading → Reading × Around
  | 0, a, r => (r, a)
  | fuel + 1, a, r =>
    let line := r.line
    if line.isEmpty || line.head? = some 10 then (r, a)
    else
      let (width, pos) := r.indent
      match Opener.tryAll a width (Opener.ofByte (line.getD pos 10)) r with
      | (r, none) => (r, a)
      | (r, some (b, goesOn)) =>
        if goesOn then openBlocks fuel (a.add b) r else (r, a.add b)

def openAt (a : Around) (r : Reading) : Reading × Around :=
  openBlocks (2 * r.line.length + 2) a r

/-- The open blocks, outermost first, and the fenced blocks that are closed, the last one first. -/
structure Outline where
  reading : Reading
  stack : List Block := []
  fences : List Fence := []

namespace Outline

def close (closed : List Block) (fences : List Fence) : List Fence :=
  (closed.filterMap Block.fence?).reverse ++ fences

/-- Opens blocks where some open ones, `closing`, did not take the line. They stay open if all that
the line does is go on with a paragraph in them. -/
def settle (o : Outline) (inside closing : List Block) (r : Reading) : Outline :=
  let (r, a) := openAt { inside, closing } r
  if a.afterParagraph && !isBlankLine r.line then
    { o with reading := r, stack := inside.reverse ++ closing }
  else { reading := r, stack := a.inside.reverse, fences := close closing o.fences }

/-- Takes a line to the open blocks in turn. `inside` are those that took it, innermost first. The
text can end within a line. -/
def take (o : Outline) (r : Reading) : (inside open_ : List Block) → Outline
  | inside, [] => { o with reading := r, stack := inside.reverse }
  | inside, b :: rest =>
    if r.cursor.line?.isNone then
      { reading := r, fences := close (inside.reverse ++ b :: rest) o.fences }
    else match b.proceed rest r with
      | (r, none) => o.settle inside (b :: rest) r
      | (r, some b) =>
        if b.holdsBlocks && rest.isEmpty then o.settle (b :: inside) [] r
        else take o r (b :: inside) rest

def line (o : Outline) : Outline :=
  let r := o.reading
  let o := if o.stack.isEmpty then
      if isBlankLine r.line then o else o.settle [] [] r
    else o.take r [] o.stack
  { o with reading := o.reading.move Cursor.nextLine }

/-- Reads lines until the text ends. Each step passes at least one. -/
def lines : (fuel : Nat) → Outline → Outline
  | 0, o => o
  | fuel + 1, o =>
    if o.reading.cursor.line?.isNone then o else lines fuel o.line

end Outline

def fences (text : Bytes) : List Fence :=
  let c := Cursor.start text
  let o := Outline.lines (c.next.length + 1) { reading := { cursor := c } }
  (Outline.close o.stack o.fences).reverse

end LuaChunk.Markdown
