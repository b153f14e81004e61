import Arksh.Shell.ScriptLaw
import Arksh.Shell.PluginDisable
import Arksh.Shell.Jobs
import Arksh.Exec.OutputLaw
import Arksh.Exec.LoopControl
import Arksh.Exec.ShMode
import Arksh.Exec.Subshell
import Arksh.Exec.ExitStatus
import Arksh.Expand.ArithVariable
import Arksh.Expand.ArithExact
import Arksh.Expand.PatternSubst
import Arksh.Expand.ArithConditional
import Arksh.Expand.ArithSteps
import Arksh.Object.Merge
import Arksh.Object.PathIndex
import Arksh.Shell.FdPrefix
import Arksh.Object.JsonValid
import Arksh.Exec.MethodArgs
import Arksh.Exec.Ternary
import Arksh.Exec.BinaryChain
import Arksh.Parse.Keywords
import Arksh.Exec.Base64Stage
import Arksh.Exec.SplitJoin
import Arksh.Exec.GroupBy
import Arksh.Exec.CaseCommand
import Arksh.Exec.AssignmentSource
import Arksh.Shell.History
import Arksh.Exec.ReadFields
import Arksh.Exec.GetoptsScan
import Arksh.Shell.TestTrees
import Arksh.Shell.DoubleBracketLaw
import Arksh.Exec.MatrixCells
import Arksh.Platform.PathParts
import Arksh.Expand.Nameref
import Arksh.Shell.SourceContext
import Arksh.Exec.BuiltinRedirect
import Arksh.Exec.FilterStage
import Arksh.Shell.Arena
import Arksh.Shell.ArenaFrames
import Arksh.Shell.Highlight
import Arksh.Shell.UndoKey
import Arksh.Shell.DraftLaw
