import SExpr.Chain
import SExpr.Dialect.CommonLisp
import SExpr.Dialect.Plain
import SExpr.Dialect.Scheme
import SExpr.Dialect.Sparql
import SExpr.Layout
import SExpr.Proofs.Lexeme
import SExpr.Proofs.Layout
import SExpr.Proofs.ReadBack
import SExpr.Proofs.Numeral
import SExpr.Proofs.Token
import SExpr.Proofs.CommonLisp
import SExpr.Proofs.Ensures
import SExpr.Proofs.Output
import SExpr.Proofs.NoBars
import SExpr.Proofs.Sparql.Token
import SExpr.Proofs.Sparql.Terms
import SExpr.Proofs.Misread
import SExpr.Proofs.Reference
import SExpr.Proofs.Sparql.Output
import SExpr.Proofs.Sparql.Written
import SExpr.Proofs.Sparql.Forms
import SExpr.Proofs.Iterator
import SExpr.Proofs.Place
import SExpr.Proofs.Tracks
import SExpr.Proofs.Tracks.Lexeme
import SExpr.Proofs.Tracks.Token
import SExpr.Proofs.Tracks.Sparql
import SExpr.Proofs.Tracks.Structure
import SExpr.Proofs.Positions
import SExpr.Proofs.SelfDelimiting
import SExpr.Proofs.Surroundings
import SExpr.Proofs.Concatenation
import SExpr.Proofs.TokenStream
import SExpr.Proofs.Course
import SExpr.Proofs.Limit
import SExpr.Proofs.Skipping
import SExpr.Proofs.EntryPoints
import SExpr.Proofs.Depth
import SExpr.Proofs.Nesting
import SExpr.Proofs.Blame
import SExpr.Proofs.Blame.Structure
import SExpr.Proofs.Utf8
import SExpr.Proofs.Source
import SExpr.Proofs.Trace
import SExpr.Proofs.Sparql.Effect
import SExpr.Proofs.Sparql.Identity
import SExpr.Proofs.Sparql.Fresh
import SExpr.Proofs.Sparql.Reachable
import SExpr.Proofs.Sparql.Region
import SExpr.Proofs.Pieces
import SExpr.Proofs.Segments
import SExpr.Proofs.Resolution
import SExpr.Proofs.Splitting
import SExpr.Proofs.Completion
import SExpr.Proofs.Sparql.Abbreviated
import SExpr.Proofs.DotSegments
import SExpr.Proofs.Elsewhere
import SExpr.Proofs.Sequence
import SExpr.Proofs.DatumComment
import SExpr.Proofs.LongForms
import SExpr.Proofs.Joining
import SExpr.Proofs.Quoted
import SExpr.Proofs.Sparql.Datatype
import SExpr.Proofs.Chain
import SExpr.Proofs.Chain.Program
import SExpr.Proofs.Chain.Sets
import SExpr.Proofs.Numeral.Kinds
import SExpr.Proofs.PushBack
import SExpr.Proofs.Progress
import SExpr.Proofs.Progress.Lexeme
import SExpr.Proofs.Progress.Structure
import SExpr.Proofs.Equality.Shape
