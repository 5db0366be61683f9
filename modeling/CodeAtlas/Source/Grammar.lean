import CodeAtlas.Language

namespace CodeAtlas.Source

/-- A source as it is read in a language from files with an extension: a written tree, and the text
before and after it. -/
structure Sheet where
  language : Language
  extension : String
  before : String := ""
  tree : Piece
  after : String := ""

namespace Sheet

def source (s : Sheet) : String :=
  s.before ++ s.tree.source ++ s.after

/-- The tree in its place. Plain text is no tree. -/
def root? (s : Sheet) : Option SyntaxNode :=
  (s.tree.layOut (Spot.zero.after s.before)).head?

/-- A tree that is the same in all languages and begins at the beginning of the source. -/
def inAll (tree : Piece) : List Sheet :=
  Language.all.flatMap fun l => l.extensions.map fun extension => { language := l, extension, tree }

end Sheet

abbrev Grammar := List Sheet

def Grammar.ofPieces (pieces : List Piece) : Grammar :=
  pieces.flatMap Sheet.inAll

/-- The tree of a source. A source that the grammar does not know is one node without children. -/
def Grammar.parse (g : Grammar) (l : Language) (extension source : String) : SyntaxNode :=
  let known := g.findSome? fun s =>
    if s.language = l ∧ s.extension = extension ∧ s.source = source then s.root? else none
  known.getD (.mk l.rootKind none true Spot.zero (Spot.zero.after source) source [])

end CodeAtlas.Source
