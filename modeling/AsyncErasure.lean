import AsyncErasure.Command.FileTree
import AsyncErasure.Main
import AsyncErasure.Proofs.Erasure
import AsyncErasure.Proofs.Renaming
import AsyncErasure.Proofs.Comment
import AsyncErasure.Proofs.CommentLine
import AsyncErasure.Proofs.Docstring
import AsyncErasure.Proofs.Grammar.Precedence
import AsyncErasure.Proofs.BlankLine
import AsyncErasure.Proofs.Marker
import AsyncErasure.Proofs.Setter
import AsyncErasure.Proofs.Skeleton
import AsyncErasure.Proofs.Command.Run
import AsyncErasure.Proofs.Renaming.FormatString
import AsyncErasure.Proofs.Render.Seam
import AsyncErasure.Proofs.Render.Shape
import AsyncErasure.Proofs.Tree.Change
import AsyncErasure.Proofs.Tree.Substitution
import AsyncErasure.Proofs.Grammar.Conservation
import AsyncErasure.Proofs.Source
import AsyncErasure.Proofs.Header
import AsyncErasure.Proofs.Regeneration
import AsyncErasure.Proofs.Conversion
import AsyncErasure.Proofs.Coverage
import AsyncErasure.Proofs.Renaming.Word
import AsyncErasure.Proofs.Renaming.Segment
import AsyncErasure.Proofs.Renaming.Specification
import AsyncErasure.Proofs.Token.Stream
import AsyncErasure.Proofs.Token.Tiling
import AsyncErasure.Proofs.Order
import AsyncErasure.Proofs.Token.Locality
import AsyncErasure.Proofs.Token.Lookahead
import AsyncErasure.Proofs.Bounds
