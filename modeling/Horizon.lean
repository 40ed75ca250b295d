import Horizon.Main
import Horizon.Engine.Scripted
import Horizon.Proofs.AnswerBlocks
import Horizon.Proofs.OptimalReading
import Horizon.Proofs.OutputReports
import Horizon.Proofs.OutputRewriting
import Horizon.Proofs.OutputTruncation
import Horizon.Proofs.OutputSegments
import Horizon.Proofs.RuleSteps
import Horizon.Proofs.FixedForms
import Horizon.Proofs.CumulativeForms
import Horizon.Proofs.GoalForms
import Horizon.Proofs.ProgramSections
import Horizon.Proofs.SoftStates
import Horizon.Proofs.ReadingAgreement
import Horizon.Proofs.PathNames
import Horizon.Proofs.PathResolution
import Horizon.Proofs.PlanReplay
import Horizon.Proofs.FileOperations
import Horizon.Proofs.StagedFiles
import Horizon.Proofs.StagingChanges
import Horizon.Proofs.CommandVerdict
import Horizon.Proofs.FileWrites
import Horizon.Proofs.EngineRuns
import Horizon.Proofs.RunConfinement
import Horizon.Proofs.ParallelWalks
import Horizon.Proofs.ParallelStaging
import Horizon.Proofs.ParallelWrites
import Horizon.Proofs.MadeDirectories
import Horizon.Proofs.RepeatedStaging
import Horizon.Proofs.RunAgreement
import Horizon.Proofs.QueryReplies
import Horizon.Proofs.PlanProjection
import Horizon.Proofs.TraceLevels
import Horizon.Proofs.LateUnsatisfiability
import Horizon.Proofs.CommandOutput
import Horizon.Proofs.CostLines
import Horizon.Proofs.FluentReading
import Horizon.Proofs.DisplayedCommands
import Horizon.Proofs.LineEnds
import Horizon.Proofs.RunFiles
import Horizon.Proofs.PlanFilters
import Horizon.Proofs.CommandFaults
import Horizon.Proofs.TermBoundaries
import Horizon.Proofs.LevelNames
