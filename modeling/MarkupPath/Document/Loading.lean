import MarkupPath.Markup.Outline
import MarkupPath.Tree.Forest

/-!
# Loading documents

Documents are loaded from many kinds of sources. Every loader knows some of them; it either gives
the content of a new tree or an `Excuse`. All loaders are tried in a fixed order, and if none of
them succeeds all their excuses make up the `LoadFailure`.

From elements and trees a copy is made, so what is loaded shares nothing with its source.
-/

namespace MarkupPath

/-- What a document can be asked to be loaded from. -/
inductive Source where
  /-- markup -/
  | text (markup : String)
  /-- encoded markup -/
  | bytes (markup : List UInt8)
  /-- a buffer that holds markup -/
  | textBuffer (markup : String)
  /-- a buffer that holds encoded markup -/
  | byteBuffer (markup : List UInt8)
  /-- a path, with what is in the file there if there's one -/
  | file (markup : Option (List UInt8))
  /-- an element -/
  | element (node : NodeId)
  /-- the tree that an element belongs to -/
  | tree (node : NodeId)
  /-- a tree without anything in it -/
  | emptyTree
  /-- a number, which is nothing that a document can be loaded from -/
  | number (n : Int)
  /-- nothing at all -/
  | absent
deriving DecidableEq, Repr

/-- Why a loader doesn't load a source. -/
inductive Excuse where
  /-- the source isn't a path -/
  | noPath
  /-- the file at a path can't be read, or isn't well-formed -/
  | malformedFile
  /-- the source isn't a buffer -/
  | noBuffer
  /-- what is in a buffer isn't well-formed -/
  | malformedBuffer
  /-- the source is neither a text nor bytes -/
  | noText
  /-- a text isn't well-formed -/
  | malformedText
  /-- the source is neither a tree nor an element -/
  | noTree
deriving DecidableEq, Repr

/-- The wording of an excuse, without details of what is malformed. -/
def Excuse.message : Excuse → String
  | .noPath => "The input value is not a path."
  | .malformedFile => "The file couldn't be parsed"
  | .noBuffer => "The input value is not a buffer."
  | .malformedBuffer => "The buffer's content isn't well-formed"
  | .noText => "The input value is neither a string nor bytes."
  | .malformedText => "The text isn't well-formed"
  | .noTree => "The input value is neither an lxml tree nor element."

/-- The loaders. -/
inductive Loader where
  /-- loads from files -/
  | path
  /-- loads from buffers -/
  | buffer
  /-- loads from texts and bytes -/
  | text
  /-- loads from trees and elements -/
  | tree
deriving DecidableEq, Repr

/-- The name of a loader in messages. -/
def Loader.name : Loader → String
  | .path => "path_loader"
  | .buffer => "buffer_loader"
  | .text => "text_loader"
  | .tree => "etree_loader"

/-- The loaders in the order in which they are tried. -/
def Loader.all : List Loader := [.path, .buffer, .text, .tree]

/-- Why a source couldn't be loaded. -/
inductive LoadFailure where
  /-- none of the loaders that were tried loads it -/
  | excused (source : Source) (excuses : List (Loader × Excuse))
  /-- a text that isn't made of bytes declares an encoding -/
  | encodingDeclared
deriving DecidableEq, Repr

/-- The wording of a failure. It's only given where it doesn't depend on details of the source. -/
def LoadFailure.message? : LoadFailure → Option String
  | .excused (.number n) excuses =>
    some ("Couldn't load " ++ toString n ++ " with these loaders: "
      ++ ", ".intercalate (excuses.map fun (loader, excuse) =>
        loader.name ++ ": " ++ excuse.message))
  | .excused .. => none
  | .encodingDeclared =>
    some ("Unicode strings with encoding declaration are not supported. "
      ++ "Please use bytes input or XML fragments without declaration.")

/-- What a loader does with a source. -/
inductive Loaded where
  /-- it gives the content of a tree, maybe without a root -/
  | content (content : Content)
  /-- it has an excuse -/
  | excuse (excuse : Excuse)
  /-- it fails in a way that no other loader can make up for -/
  | failure
deriving DecidableEq, Repr

/-- Content that was read, or else an excuse. -/
def Loaded.ofRead (otherwise : Excuse) : Option Content → Loaded
  | some read => .content read
  | none => .excuse otherwise

/-- The bytes of a text. -/
def encode (text : String) : List UInt8 := text.toUTF8.data.toList

/-- A copy of an element with its tail, with declarations for all its names. -/
def Forest.copyOf? (forest : Forest) (node : NodeId) : Option Content :=
  (forest.find? node).map fun (element, tail) =>
    let copy := element.selfContained
    .element copy.tag copy.content tail .nil

/-- Loads a source. Where blanks aren't kept, white space that lays out the markup is dropped. -/
def Loader.load (loader : Loader) (forest : Forest) (keepBlanks : Bool) (source : Source) :
    Loaded :=
  match loader, source with
  | .path, .file markup =>
    .ofRead .malformedFile (markup.bind (Markup.readBytes keepBlanks))
  | .path, _ => .excuse .noPath
  | .buffer, .textBuffer markup =>
    if Markup.declaresEncoding markup then .failure
    else .ofRead .malformedBuffer (Markup.readBytes keepBlanks (encode markup))
  | .buffer, .byteBuffer markup => .ofRead .malformedBuffer (Markup.readBytes keepBlanks markup)
  | .buffer, _ => .excuse .noBuffer
  | .text, .text markup => .ofRead .malformedText (Markup.readBytes keepBlanks (encode markup))
  | .text, .bytes markup => .ofRead .malformedText (Markup.readBytes keepBlanks markup)
  | .text, _ => .excuse .noText
  | .tree, .element node => .ofRead .noTree (forest.copyOf? node)
  | .tree, .tree node => .ofRead .noTree ((forest.treeOf? node).map (·.content))
  | .tree, .emptyTree => .content .nil
  | .tree, _ => .excuse .noTree

/-- Tries loaders in their order, up to the first one that succeeds. -/
def loadWith (forest : Forest) (keepBlanks : Bool) (source : Source)
    (excuses : List (Loader × Excuse)) : List Loader → Except LoadFailure Content
  | [] => .error (.excused source excuses)
  | loader :: rest =>
    match loader.load forest keepBlanks source with
    | .content content => .ok content
    | .excuse excuse => loadWith forest keepBlanks source (excuses ++ [(loader, excuse)]) rest
    | .failure => .error .encodingDeclared

end MarkupPath
