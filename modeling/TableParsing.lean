import TableParsing.Handle
import TableParsing.CommandLine.Folder
import TableParsing.Main
import TableParsing.Proofs.Pyret.HiddenRules
import TableParsing.Proofs.Pyret.Prefixes
import TableParsing.Proofs.Flaws
import TableParsing.Proofs.Options
import TableParsing.Proofs.Progress
import TableParsing.Proofs.Artifact.Canonical
import TableParsing.Proofs.Safety.Parser
import TableParsing.Proofs.Pyret.Blanking
import TableParsing.Proofs.Pyret.Cuts
import TableParsing.Proofs.Pyret.Locations
import TableParsing.Proofs.Pyret.ErrorOrder
import TableParsing.Proofs.Pyret.TokenLeaves
import TableParsing.Proofs.MissingTokens
import TableParsing.Proofs.ByteRanges
import TableParsing.Proofs.Pyret.EndRecovery
import TableParsing.Proofs.Pyret.Sexps
import TableParsing.Proofs.Pyret.Limits
import TableParsing.Proofs.StateRows
import TableParsing.Proofs.StackOperations
import TableParsing.Proofs.ExcludedBytes
import TableParsing.Proofs.Walks
