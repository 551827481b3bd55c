import Mathlib.Data.List.Infix
import SearchLang.Node.Plain
import SearchLang.Node.Tokens
import SearchLang.Token.Scan

/-!
# Readable trees

The trees whose leaves give themselves back when their texts are read alone, in
one chunk or between quotes, and whose compounds are made as plain ones are. The
text of a readable leaf may hold any characters but spaces. What comes after a
leaf counts where it may be taken in: a link takes in the bracket that it stands
before, and what starts like an emoticon may do so too.
-/

namespace SearchLang

namespace Text

/-- A text without spaces whose ends are no sign, no quote and no slash, and not trimmed off. -/
def isSolid (s : Text) : Bool :=
  s.head?.any (fun c => !(['+', '-', '"', '/', '\x00'].contains c)) && s.getLast? != some '\x00' &&
    s.all fun c => !isSpace c

/-- A text that may stand between quotes: it holds none, and spaces are not trimmed off it or
collapsed in it. -/
def isQuotable (s : Text) : Bool :=
  !s.isEmpty && !s.contains '"' && trimSpace s == s && collapseBlanks s == s

end Text

namespace Leaf

/-- Whether the text of a signed leaf is one chunk before `next`, out of which no link and no range
is made. -/
def isOneChunk (next : Text) (spaced : Bool) (m : Modifiers) (l : Leaf) : Bool :=
  let text := m.lead ++ l.render
  Chunk.lengthAt spaced (text ++ next) == text.length && !decide ("://".toList <:+: text ++ next) &&
    (Text.splitAtDots l.render).isNone

/-- Whether the text of a signed leaf gives back the sign and the leaf when it is read alone. -/
def readsAlone (m : Modifiers) (l : Leaf) : Bool :=
  scan (m.lead ++ l.render) == m.leadTokens ++ l.tokens

/-- A leaf that is read back wherever it stands. -/
def isReadable (m : Modifiers) : Leaf → Bool
  | number value => value.isFinite && m.sign.isNone
  | text .phrase value => Text.isQuotable value
  | l => Text.isSolid l.render && !l.render.head?.any Chunk.startsEmoticon &&
      l.isOneChunk [] true m && l.readsAlone m

/-- A leaf that is read back after a space, or right after a field or a bracket, and before `next`.
If that is nothing, a space or a modifier comes after the leaf, and a link goes on up to it. -/
def isReadableBefore (next : Text) (spaced : Bool) (m : Modifiers) (l : Leaf) : Bool :=
  l.isReadable m || (Text.isSolid l.render && l.readsAlone m &&
    ((next.isEmpty && Pattern.isUrl l.render) ||
      (l.isOneChunk [] true m && l.isOneChunk next spaced m)))

/-- The leaf that a bound of a word range is written as. -/
def ofWordBound (s : Text) : Leaf :=
  if isBareBound s || s.contains '"' then .word s false else .text .phrase s

end Leaf

/-- The leaves that the bounds of a range are written as. -/
def Interval.leaves : Interval → List Leaf
  | words r => r.bounds.map Leaf.ofWordBound
  | numbers r => r.bounds.map Leaf.number
  | dates r => r.bounds.map (Leaf.text .date)

namespace Node

/-- The bracket right after a leaf in a subquery: there is one after the last leaf, if that has no
modifiers. -/
def bracketAfter (m : Modifiers) (others : List Node) : Text :=
  if others.isEmpty && m.trail.isEmpty then [')'] else []

/-- The nodes of a subquery that are read back in it: leaves, with spaces between them. -/
def areReadableLeaves (spaced : Bool) : List Node → Bool
  | [] => true
  | .leaf l m :: ns =>
    l.isReadableBefore (bracketAfter m ns) spaced m && areReadableLeaves true ns
  | _ :: _ => false

/-- A value that is read back in a filter: a leaf, a range between readable bounds, or a subquery
of readable leaves. -/
def isReadableValue : Node → Bool
  | .leaf l _ => l.isReadableBefore [] false {}
  | .range i _ => i.leaves.all (Leaf.isReadable {})
  | .subquery nodes _ => areReadableLeaves false nodes
  | .filter .. => false

/-- A node whose leaves are read back where they stand. -/
def isReadable : Node → Bool
  | .leaf l m => l.isReadableBefore [] true m
  | .filter field _ value _ => Text.isPlainField field && value.isReadableValue
  | .subquery nodes _ => areReadableLeaves false nodes
  | .range .. => false

end Node

end SearchLang
