import Monkey.Main
import Monkey.Repl.Completion
import Monkey.Proofs.Accepts
import Monkey.Proofs.RoundTrip
import Monkey.Proofs.FirstError
import Monkey.Proofs.ReturnWrapper
import Monkey.Proofs.StepLimit
import Monkey.Proofs.OwnScope
import Monkey.Proofs.Tiling
import Monkey.Proofs.DepthLimit
import Monkey.Proofs.Layout
import Monkey.Proofs.Composition
import Monkey.Proofs.Pieces
import Monkey.Proofs.Tables
import Monkey.Proofs.Schedule
import Monkey.Proofs.Lossless
import Monkey.Proofs.CrashFree
import Monkey.Proofs.Brackets
import Monkey.Proofs.WholeTrees
import Monkey.Proofs.FewProblems
import Monkey.Proofs.Classification
import Monkey.Proofs.Positions
import Monkey.Proofs.Nesting
import Monkey.Proofs.OwnText
import Monkey.Proofs.Arithmetic
import Monkey.Proofs.SourceOrder
import Monkey.Proofs.TableOrder
import Monkey.Proofs.ReadsBack
import Monkey.Proofs.Scopes
import Monkey.Proofs.UnreadName
import Monkey.Proofs.Gathering
import Monkey.Proofs.Completions
import Monkey.Proofs.WrittenTokens
