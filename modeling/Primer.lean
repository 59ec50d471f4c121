import Primer.Log
import Primer.Tree.Draft
import Primer.Tree.Header
import Primer.Proofs.Typing.Agreement
import Primer.Proofs.Typing.Sentinel
import Primer.Proofs.Typing.Wording
import Primer.Proofs.Analysis.Items
import Primer.Proofs.Analysis.Labels
import Primer.Proofs.Log.Trace
import Primer.Proofs.Analysis.UseOrder
import Primer.Proofs.Script.Grouping
import Primer.Proofs.Script.Naming
import Primer.Proofs.Machine.Layout
import Primer.Proofs.Machine.Linking
import Primer.Proofs.Machine.StackDiscipline
import Primer.Proofs.Semantics.CallOrder
import Primer.Proofs.Semantics.ControlFlow
import Primer.Proofs.Semantics.Simulation
import Primer.Proofs.Declaration.Rejection
import Primer.Proofs.Scope.Visibility
import Primer.Proofs.Script.Literal
import Primer.Proofs.Script.Repetition
import Primer.Proofs.Analysis.Parentheses
import Primer.Proofs.Tree.Construction
import Primer.Proofs.Rendering.Words
