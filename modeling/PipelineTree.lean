import PipelineTree.Authoring.Reading
import PipelineTree.Command.Program
import PipelineTree.Error.Recovery
import PipelineTree.Files.Workspace
import PipelineTree.Main
import PipelineTree.Platform.Registry
import PipelineTree.Proofs.Authoring.Arguments
import PipelineTree.Proofs.Authoring.Cycle
import PipelineTree.Proofs.Authoring.Declared
import PipelineTree.Proofs.Authoring.FirstFault
import PipelineTree.Proofs.Authoring.Inlining
import PipelineTree.Proofs.Authoring.Oversight
import PipelineTree.Proofs.Command.Batch
import PipelineTree.Proofs.Command.Destination
import PipelineTree.Proofs.Command.Documents
import PipelineTree.Proofs.Command.Rehearsal
import PipelineTree.Proofs.Command.Repetition
import PipelineTree.Proofs.Command.Rerun
import PipelineTree.Proofs.Command.Turn
import PipelineTree.Proofs.Error.Advice
import PipelineTree.Proofs.Expansion.Arising
import PipelineTree.Proofs.Expansion.DepthFirst
import PipelineTree.Proofs.Expansion.FixedPoint
import PipelineTree.Proofs.Expansion.Lockstep
import PipelineTree.Proofs.Expansion.Log
import PipelineTree.Proofs.Expansion.Recursion
import PipelineTree.Proofs.Expansion.Sequence
import PipelineTree.Proofs.Files.Answers
import PipelineTree.Proofs.Files.Discovery
import PipelineTree.Proofs.Files.Effects
import PipelineTree.Proofs.Files.Face
import PipelineTree.Proofs.Files.Gathering
import PipelineTree.Proofs.Files.Growth
import PipelineTree.Proofs.Files.Listing
import PipelineTree.Proofs.Files.Lookup
import PipelineTree.Proofs.Files.Rediscovery
import PipelineTree.Proofs.Files.Resolution
import PipelineTree.Proofs.Files.Segments
import PipelineTree.Proofs.Files.Trace
import PipelineTree.Proofs.Platform.Account
import PipelineTree.Proofs.Platform.Causes
import PipelineTree.Proofs.Platform.DepthLimit
import PipelineTree.Proofs.Platform.Disabling
import PipelineTree.Proofs.Platform.Failure
import PipelineTree.Proofs.Platform.Grouping
import PipelineTree.Proofs.Platform.Intake
import PipelineTree.Proofs.Platform.JobKeys
import PipelineTree.Proofs.Platform.Properties
import PipelineTree.Proofs.Platform.Wrapping
import PipelineTree.Proofs.Template.Clash
import PipelineTree.Proofs.Template.Dependence
import PipelineTree.Proofs.Template.Filling
import PipelineTree.Proofs.Template.Interpolation
import PipelineTree.Proofs.Template.Reach
import PipelineTree.Proofs.Template.Refusal
import PipelineTree.Proofs.Template.Whole
import PipelineTree.Proofs.Value.Respelling
import PipelineTree.Proofs.Value.Settling
