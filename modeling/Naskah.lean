import Naskah.Command.Rehearsal
import Naskah.Main
import Naskah.Token.Stream
import Naskah.Proofs.Assembly.Calls
import Naskah.Proofs.Assembly.Splicing
import Naskah.Proofs.Block.ChainStates
import Naskah.Proofs.Block.Interleaved
import Naskah.Proofs.Block.LoopRuns
import Naskah.Proofs.Compile.Calls
import Naskah.Proofs.Compile.Constants
import Naskah.Proofs.Compile.Entry
import Naskah.Proofs.Compile.Turns
import Naskah.Proofs.Compile.Preserved
import Naskah.Proofs.Compile.Verified
import Naskah.Proofs.Compile.WellFormed
import Naskah.Proofs.Compile.Bound
import Naskah.Proofs.Desk.Compound
import Naskah.Proofs.Compile.Delimited
import Naskah.Proofs.Expression.Evaluation
import Naskah.Proofs.Expression.Splitting
import Naskah.Proofs.Machine.Integers
import Naskah.Proofs.Program.Listed
import Naskah.Proofs.Program.Stored
import Naskah.Proofs.Compile.Stored
import Naskah.Proofs.Compile.Lines
import Naskah.Proofs.Compile.Quoted
import Naskah.Proofs.Token.Comments
