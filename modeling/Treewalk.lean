import Treewalk.Main
import Treewalk.Proofs.Eval.Arithmetic
import Treewalk.Proofs.Eval.ArrayBuiltins
import Treewalk.Proofs.Eval.Frame
import Treewalk.Proofs.Eval.HashLiterals
import Treewalk.Proofs.Eval.Operators
import Treewalk.Proofs.Eval.Repeat
import Treewalk.Proofs.Eval.Signals
import Treewalk.Proofs.Eval.StringKeys
import Treewalk.Proofs.Eval.TailReturns
import Treewalk.Proofs.Host.Apart
import Treewalk.Proofs.Host.Chronicle
import Treewalk.Proofs.Host.Displays
import Treewalk.Proofs.Host.Equality
import Treewalk.Proofs.Host.ErrorValues
import Treewalk.Proofs.Host.HigherOrder
import Treewalk.Proofs.Host.Layout
import Treewalk.Proofs.Host.Lexical
import Treewalk.Proofs.Host.Resolved
import Treewalk.Proofs.Host.Scripts
import Treewalk.Proofs.Host.Transcript
import Treewalk.Proofs.Host.WellFormed
import Treewalk.Proofs.Parser.Chains
import Treewalk.Proofs.Parser.Delimited
import Treewalk.Proofs.Parser.ErrorLines
import Treewalk.Proofs.Parser.Faithful
import Treewalk.Proofs.Parser.Gathered
import Treewalk.Proofs.Parser.Numerals
import Treewalk.Proofs.Parser.Progress
import Treewalk.Proofs.Parser.Recovery
import Treewalk.Proofs.Parser.Rendering
import Treewalk.Proofs.Parser.Reports
import Treewalk.Proofs.Parser.Semicolons
import Treewalk.Proofs.Parser.Spelling
import Treewalk.Proofs.Token.Lossless
import Treewalk.Proofs.Token.Written
