import Dockerfile.Document.Transfer
import Dockerfile.Json.Codec
import Dockerfile.Proofs.Document.Canonical
import Dockerfile.Proofs.Document.Retag
import Dockerfile.Proofs.Document.Separation
import Dockerfile.Proofs.Reading.Append
import Dockerfile.Proofs.Document.Collapse
import Dockerfile.Proofs.Reading.Coverage
import Dockerfile.Proofs.Statement.Visible
import Dockerfile.Proofs.Document.Escape
import Dockerfile.Proofs.Document.LocalEdit
import Dockerfile.Proofs.Image.Grammar
import Dockerfile.Proofs.Image.Legible
import Dockerfile.Proofs.Text.Insert
import Dockerfile.Proofs.Reading.Insert
import Dockerfile.Proofs.Document.LastTag
import Dockerfile.Proofs.Json.Reader
import Dockerfile.Proofs.Json.Texts
import Dockerfile.Proofs.Document.Entrypoint
import Dockerfile.Proofs.Statement.LeftOpen
import Dockerfile.Proofs.Document.Heredoc
import Dockerfile.Proofs.Reading.LineEnding
import Dockerfile.Proofs.Statement.Lines
import Dockerfile.Proofs.Reading.Heredoc
import Dockerfile.Proofs.Document.HeredocText
import Dockerfile.Proofs.Statement.Cut
import Dockerfile.Proofs.Reading.Cut
import Dockerfile.Proofs.Reading.Fault
import Dockerfile.Proofs.Document.Continuation
import Dockerfile.Proofs.Document.KeywordCase
import Dockerfile.Proofs.Json.RoundTrip
import Dockerfile.Proofs.Document.Transfer
import Dockerfile.Proofs.Argument.Piece
import Dockerfile.Proofs.Reading.Log
import Dockerfile.Proofs.Document.Overflow
