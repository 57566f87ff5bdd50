import LiveMarkup.Live.Tree
import LiveMarkup.Markup.Escape
import LiveMarkup.Patch.Source

/-!
# The markup of a live tree

Elements are written with their attributes in order, and void elements without an end tag.
Texts are escaped, except right below a raw-text element, where they stand as they are.
Keys are not written.
-/

namespace LiveMarkup.Live.Tree

/-- A place of the walk that writes markup: a node, or the end of an element. -/
inductive Stop where
  | node (h : Handle)
  | close (name : String)
deriving DecidableEq, Repr

/-- A start tag. -/
def startTag (name : String) (attributes : List (String × String)) : String :=
  "<" ++ name ++
    String.join (attributes.map fun (name, value) =>
      " " ++ name ++ "=\"" ++ Markup.escape .value value ++ "\"") ++ ">"

/-- An end tag. -/
def endTag (name : String) : String := "</" ++ name ++ ">"

/-- A text below the given parent. -/
def textMarkup (t : Tree) (parent : Option Handle) (content : String) : String :=
  if (parent.bind t.elementName?).any Markup.isRawText then content
  else Markup.escape .content content

/-- What a place writes, and the places below it. -/
def visitMarkup (t : Tree) : Stop → List String × List Stop
  | .close name => ([endTag name], [])
  | .node h =>
    match t.node? h with
    | none => ([], [])
    | some node =>
      match node.kind with
      | .root => ([], node.children.map Stop.node)
      | .element name _ attributes =>
        if Markup.isVoid name then ([startTag name attributes], [])
        else ([startTag name attributes], node.children.map Stop.node ++ [.close name])
      | .text content => ([t.textMarkup node.parent content], [])

/-- The markup of a node and all below it. -/
def subtreeMarkup (t : Tree) (h : Handle) : String :=
  String.join (walk t.visitMarkup (2 * t.capacity) [.node h])

/-- The markup of what is below a node. -/
def innerMarkup (t : Tree) (h : Handle) : String :=
  String.join ((t.children h).map t.subtreeMarkup)

/-- The markup of a node. The root writes only what is below it, and an unknown node
nothing. -/
def outerMarkup (t : Tree) (h : Handle) : String :=
  if h = .root then t.innerMarkup h else t.subtreeMarkup h

/-- An element as the source of a compile. -/
def source? (t : Tree) (h : Handle) : Option Patch.Source :=
  (t.elementName? h).map fun _ => .element (t.outerMarkup h)

end LiveMarkup.Live.Tree
