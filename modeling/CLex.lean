import CLex.Lexer.Conditional
import CLex.Lexer.Header
import CLex.Lexer.Isolated
import CLex.Main
import CLex.Proofs.Book
import CLex.Proofs.View
import CLex.Proofs.Simulation.Basic
import CLex.Proofs.Simulation.Blank
import CLex.Proofs.Simulation.Escape
import CLex.Proofs.Simulation.Token
import CLex.Proofs.Simulation.Stack
import CLex.Proofs.Reading
import CLex.Proofs.Extent
import CLex.Proofs.Joining
import CLex.Proofs.Lexemes
import CLex.Proofs.Splicing
import CLex.Proofs.Framing
import CLex.Proofs.Stacking
import CLex.Proofs.Placing
import CLex.Proofs.Simulation.Group
import CLex.Proofs.Consumption
import CLex.Proofs.Skipping
import CLex.Proofs.Taking
import CLex.Proofs.Directives
import CLex.Proofs.Grouping
import CLex.Proofs.Footing.Basic
import CLex.Proofs.Footing.Token
import CLex.Proofs.Room
import CLex.Proofs.Session
import CLex.Proofs.Failures
import CLex.Proofs.Position
import CLex.Proofs.LineStart
import CLex.Proofs.Composition
import CLex.Proofs.Finishing
import CLex.Proofs.Copying
import CLex.Proofs.Interchange
import CLex.Proofs.Metering
import CLex.Proofs.Termination
import CLex.Proofs.Isolation
import CLex.Proofs.Shielding
import CLex.Proofs.Reporting
import CLex.Proofs.Crossing
import CLex.Proofs.LeftOpen
import CLex.Proofs.Unterminated
import CLex.Proofs.Digits
import CLex.Proofs.Quoting
import CLex.Proofs.Following
import CLex.Proofs.Respelling
import CLex.Proofs.Stopping.Basic
import CLex.Proofs.Stopping.Word
import CLex.Proofs.Stopping.Token
import CLex.Proofs.Reprinting
import CLex.Proofs.Rereading
import CLex.Proofs.Closing
import CLex.Proofs.Leading
import CLex.Proofs.Munching
import CLex.Proofs.Numbers
import CLex.Proofs.Advancing
import CLex.Proofs.Nesting
import CLex.Proofs.Naming
import CLex.Proofs.Decoding
import CLex.Proofs.Characters
import CLex.Proofs.Headers
import CLex.Proofs.Declining
import CLex.Proofs.Commenting
import CLex.Proofs.Numbering
import CLex.Proofs.Singling
