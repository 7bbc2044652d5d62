import LambdaLayout.Definition
import LambdaLayout.Main
import LambdaLayout.Proofs.CallsReached
import LambdaLayout.Proofs.Changes
import LambdaLayout.Proofs.FixedPoint
import LambdaLayout.Proofs.Frame
import LambdaLayout.Proofs.LambdasFound
import LambdaLayout.Proofs.Rendering
import LambdaLayout.Proofs.TokenPartition
import LambdaLayout.Proofs.TokensKept
import LambdaLayout.Proofs.RegionExtents
import LambdaLayout.Proofs.CandidatesComplete
import LambdaLayout.Proofs.FilesApart
import LambdaLayout.Proofs.JobEffects
import LambdaLayout.Proofs.FirstToken
import LambdaLayout.Proofs.Interleaving
import LambdaLayout.Proofs.DecodedBytes
import LambdaLayout.Proofs.RunFrame
import LambdaLayout.Proofs.Reporting
import LambdaLayout.Proofs.ModesAgree
import LambdaLayout.Proofs.Failures
import LambdaLayout.Proofs.DefinitionFound
import LambdaLayout.Proofs.LayoutsAgree
import LambdaLayout.Proofs.CommentsKept
import LambdaLayout.Proofs.Registering
import LambdaLayout.Proofs.RuleRanks
import LambdaLayout.Proofs.Simultaneous
import LambdaLayout.Proofs.MaximalCalls
import LambdaLayout.Proofs.PathMatches
import LambdaLayout.Proofs.SearchOrder
import LambdaLayout.Proofs.Positions
import LambdaLayout.Proofs.CommonIndent
import LambdaLayout.Proofs.LayoutEnds
import LambdaLayout.Proofs.ChainText
import LambdaLayout.Proofs.GapPieces
import LambdaLayout.Proofs.RepairWalk
import LambdaLayout.Proofs.StatementLines
