import ScriptReplay.Limits.Reader
import ScriptReplay.Proofs.Agreement
import ScriptReplay.Proofs.Declaring.Runs
import ScriptReplay.Proofs.Mirrors
import ScriptReplay.Proofs.Queue.Completion
import ScriptReplay.Proofs.Queue.Promises
import ScriptReplay.Proofs.Restored
import ScriptReplay.Proofs.Rewording.Loops
import ScriptReplay.Proofs.Snapshots
import ScriptReplay.Proofs.Source.Embedding
import ScriptReplay.Proofs.Source.Ending
import ScriptReplay.Proofs.Source.Excerpts
import ScriptReplay.Proofs.Source.Literals
import ScriptReplay.Proofs.Source.Nesting
import ScriptReplay.Proofs.Source.Precedence
import ScriptReplay.Proofs.Text.Order
import ScriptReplay.Proofs.Text.Splitting
import ScriptReplay.Proofs.Texts
import ScriptReplay.Proofs.Unwinding.Runs
