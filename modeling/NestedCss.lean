import NestedCss.CommandLine.Machine
import NestedCss.Main
import NestedCss.Source.Cursor
import NestedCss.Proofs.Extend.Worklist
import NestedCss.Proofs.Extend.Derivation
import NestedCss.Proofs.Extend.BreadthFirst
import NestedCss.Proofs.Extend.Saturation
import NestedCss.Proofs.Extend.Chain
import NestedCss.Proofs.Scanner.Run
import NestedCss.Proofs.Scanner.Lexeme
import NestedCss.Proofs.Scanner.Escape
import NestedCss.Proofs.Text.Collapse
import NestedCss.Proofs.Selector.Name
import NestedCss.Proofs.Selector.Attribute
import NestedCss.Proofs.Selector.Fragment
import NestedCss.Proofs.Selector.ReadFrom
import NestedCss.Proofs.Selector.Nonempty
import NestedCss.Proofs.Selector.Normal
import NestedCss.Proofs.Selector.RoundTrip
import NestedCss.Proofs.Selector.Seams
import NestedCss.Proofs.Selector.Stitching
import NestedCss.Proofs.Selector.Resolved
import NestedCss.Proofs.Selector.Combination
import NestedCss.Proofs.Selector.Substitution
import NestedCss.Proofs.Extend.Filled
import NestedCss.Proofs.Extend.Reachability
import NestedCss.Proofs.Extend.Interleaving
import NestedCss.Proofs.Extend.Order
import NestedCss.Proofs.Extend.Visible
import NestedCss.Proofs.Css.Order
import NestedCss.Proofs.Flatten.Flat
import NestedCss.Proofs.Flatten.Order
import NestedCss.Proofs.Flatten.Placement
import NestedCss.Proofs.Flatten.Resolved
import NestedCss.Proofs.Flatten.Scoping
import NestedCss.Proofs.Extend.Unmatched
import NestedCss.Proofs.Extend.Quoting
import NestedCss.Proofs.Css.Pieces
import NestedCss.Proofs.Flatten.Placed
import NestedCss.Proofs.Flatten.LineEnds
import NestedCss.Proofs.Scanner.Comment
import NestedCss.Proofs.Scanner.StatementText
import NestedCss.Proofs.Scanner.Identifier
import NestedCss.Proofs.Stylesheet.Trailing
import NestedCss.Proofs.Selector.Replacement
import NestedCss.Proofs.Extend.Stripping
import NestedCss.Proofs.Css.Blocks
import NestedCss.Proofs.Flatten.MediaQueries
import NestedCss.Proofs.Css.Additions
import NestedCss.Proofs.Scanner.Canonical
import NestedCss.Proofs.Stylesheet.Splitting
import NestedCss.Proofs.Stylesheet.Dialects
import NestedCss.Proofs.Selector.WhiteSpace
import NestedCss.Proofs.Text.Units
import NestedCss.Proofs.Stylesheet.Spans
import NestedCss.Proofs.Stylesheet.Steps
import NestedCss.Proofs.Stylesheet.Blocks
import NestedCss.Proofs.Selector.Offsets
import NestedCss.Proofs.Source.Cursor
import NestedCss.Proofs.CommandLine.Machine
