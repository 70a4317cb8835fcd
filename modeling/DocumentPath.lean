import DocumentPath.Builder.Decorator
import DocumentPath.Config
import DocumentPath.Copier.Decorator
import DocumentPath.Proofs.Trees
import DocumentPath.Proofs.PathTexts
import DocumentPath.Proofs.Locations
import DocumentPath.Proofs.Matches
import DocumentPath.Proofs.Targets
import DocumentPath.Proofs.CopySteps
import DocumentPath.Proofs.CopyWalks
import DocumentPath.Proofs.PartialCopies
import DocumentPath.Proofs.Pruning
import DocumentPath.Proofs.PrunedCopies
import DocumentPath.Proofs.Landings
import DocumentPath.Proofs.LevelCopies
import DocumentPath.Proofs.ElementsApart
import DocumentPath.Proofs.SharedElements
import DocumentPath.Proofs.Writes
import DocumentPath.Proofs.Appending
import DocumentPath.Proofs.FailedChanges
import DocumentPath.Proofs.FaithfulCaches
import DocumentPath.Proofs.CacheHistories
import DocumentPath.Proofs.Visits
import DocumentPath.Proofs.UniformPruning
import DocumentPath.Proofs.Selections
import DocumentPath.Proofs.SelectorTexts
import DocumentPath.Proofs.Concatenation
import DocumentPath.Proofs.RemovalSteps
import DocumentPath.Proofs.OutermostRemovals
import DocumentPath.Proofs.StepRemovals
import DocumentPath.Proofs.Detaching
import DocumentPath.Proofs.Conservation
import DocumentPath.Proofs.ThinnedTrees
import DocumentPath.Proofs.RepeatedVisits
import DocumentPath.Proofs.Shortcuts
import DocumentPath.Proofs.Multiplicity
import DocumentPath.Proofs.WalkOrder
import DocumentPath.Proofs.DocumentOrder
import DocumentPath.Proofs.UntouchedLocations
import DocumentPath.Proofs.Padding
import DocumentPath.Proofs.SingleCopies
import DocumentPath.Proofs.ChangeRuns
import DocumentPath.Proofs.Confinement
import DocumentPath.Proofs.Replays
import DocumentPath.Proofs.HiddenCaches
import DocumentPath.Proofs.BuildSteps
import DocumentPath.Proofs.ReadBack
import DocumentPath.Proofs.DistinctKeys
import DocumentPath.Proofs.Exclusions
import DocumentPath.Proofs.WildcardRemovals
import DocumentPath.Proofs.Rebuilding
import DocumentPath.Proofs.Transforms
import DocumentPath.Proofs.IndependentWrites
import DocumentPath.Proofs.Declarations
import DocumentPath.Proofs.ErrorKinds
import DocumentPath.Proofs.Verdicts
import DocumentPath.Proofs.Decorators
import DocumentPath.Proofs.Construction
import DocumentPath.Proofs.RepeatedTransforms
import DocumentPath.Proofs.PrefixTrees
import DocumentPath.Proofs.Snapshots
import DocumentPath.Proofs.Questions
import DocumentPath.Proofs.JsonTexts
import DocumentPath.Proofs.SpecTexts
import DocumentPath.Proofs.IntegralParts
import DocumentPath.Proofs.Addresses
import DocumentPath.Proofs.DetachedChildren
