import Retarget.Main
import Retarget.Proofs.ChangeLog
import Retarget.Proofs.FilesKept
import Retarget.Proofs.Guard
import Retarget.Proofs.Descendants
import Retarget.Proofs.FrameworkSteps
import Retarget.Proofs.PipelineParts
import Retarget.Proofs.Presentation
import Retarget.Proofs.FirstMatch
import Retarget.Proofs.Markup
import Retarget.Proofs.OutputSearch
import Retarget.Proofs.OutputFormat
import Retarget.Proofs.SecondRun
import Retarget.Proofs.MembersByName
import Retarget.Proofs.Json.Snapshot.Alike
import Retarget.Proofs.Json.Snapshot.Defaults
import Retarget.Proofs.Decimals
import Retarget.Proofs.Moniker
import Retarget.Proofs.VisibleChanges
import Retarget.Proofs.Json.Report
import Retarget.Proofs.ConsoleReport
import Retarget.Proofs.Yaml.Report
import Retarget.Proofs.Yaml.Buffered
import Retarget.Proofs.Arguments
import Retarget.Proofs.Yaml.TextNode
