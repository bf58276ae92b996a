import Highlight.Text.CharSet
import Highlight.Document.Edit
import Highlight.Definition.Reader
import Highlight.Session
import Highlight.Proofs.Session.History
import Highlight.Proofs.Session.Levels
import Highlight.Proofs.Session.Restyle
import Highlight.Proofs.Session.Relevel
import Highlight.Proofs.Session.Folding
import Highlight.Proofs.Scss.Resume
import Highlight.Proofs.Tcl.Walk
import Highlight.Proofs.Haskell.Resume
import Highlight.Proofs.Sql.Parts
import Highlight.Proofs.Sql.Front
import Highlight.Proofs.Gibiane.Alike
import Highlight.Proofs.Gibiane.Fold
import Highlight.Proofs.Gibiane.Parts
import Highlight.Proofs.Session.Front
import Highlight.Proofs.Gibiane.Overlay
import Highlight.Proofs.Gibiane.Pass
import Highlight.Proofs.Scss.Fold
import Highlight.Proofs.Scss.Front
import Highlight.Proofs.Session.Again
import Highlight.Proofs.Document.Seam
import Highlight.Proofs.Cursor.Restart
import Highlight.Proofs.Fold.Front
import Highlight.Proofs.Gibiane.Front
import Highlight.Proofs.Cursor.Walk
import Highlight.Proofs.R.Parts
import Highlight.Proofs.Scss.Parts
import Highlight.Proofs.Cursor.Tiles
import Highlight.Proofs.Haskell.Ends
import Highlight.Proofs.Sql.Comment
import Highlight.Proofs.Session.Lowered
import Highlight.Proofs.Rust.Comment
import Highlight.Proofs.Session.Nesting
import Highlight.Proofs.Rust.Levels
import Highlight.Proofs.Sql.Blocks
import Highlight.Proofs.R.Levels
import Highlight.Proofs.Rust.White
import Highlight.Proofs.Tcl.White
import Highlight.Proofs.Gibiane.CommentLines
import Highlight.Proofs.Tcl.Expand
import Highlight.Proofs.Session.LineComments
import Highlight.Proofs.Sql.Pairs
import Highlight.Proofs.Scss.Strings
import Highlight.Proofs.Haskell.Senses
import Highlight.Proofs.Fold.Region
import Highlight.Proofs.Text.Utf8
import Highlight.Proofs.Cursor.Match
import Highlight.Proofs.Tcl.Ends
import Highlight.Proofs.Definition.Set
import Highlight.Proofs.Session.LineWords
import Highlight.Proofs.Options
import Highlight.Proofs.Style.Canonical
