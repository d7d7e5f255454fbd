import TileKernel.Analysis.Access
import TileKernel.Analysis.Bank
import TileKernel.Analysis.DefUse
import TileKernel.Analysis.Dependence
import TileKernel.Analysis.Trace
import TileKernel.Assignment.Assign
import TileKernel.Assignment.Constraint
import TileKernel.Assignment.Solver
import TileKernel.Binary64.Arith
import TileKernel.Binary64.Basic
import TileKernel.Binary64.Read
import TileKernel.Binary64.Round
import TileKernel.Binary64.Shortest
import TileKernel.Catalog
import TileKernel.Codegen.Backend
import TileKernel.Codegen.Cpp
import TileKernel.Codegen.Cuda
import TileKernel.Codegen.Select
import TileKernel.CommandLine.Args
import TileKernel.CommandLine.Run
import TileKernel.Error
import TileKernel.Fault
import TileKernel.Kernel.Basic
import TileKernel.Kernel.Buffer
import TileKernel.Kernel.Build
import TileKernel.Kernel.Check
import TileKernel.Kernel.Dump
import TileKernel.Kernel.Edit
import TileKernel.Kernel.Loop
import TileKernel.Kernel.Op
import TileKernel.Layout.Basic
import TileKernel.Layout.Dense
import TileKernel.Layout.Fragment
import TileKernel.Lower
import TileKernel.Lowering.Basic
import TileKernel.Lowering.Pipeline
import TileKernel.Main
import TileKernel.Pass.Manager
import TileKernel.Pass.Simplify
import TileKernel.Pass.StoreGranularity
import TileKernel.Pass.TypeDecoupling
import TileKernel.Proofs.Assignment
import TileKernel.Proofs.Pipelining
import TileKernel.Proofs.Reach
import TileKernel.Proofs.Arena
import TileKernel.Proofs.Construction
import TileKernel.Proofs.Operands
import TileKernel.Proofs.DepthOne
import TileKernel.Proofs.Passes
import TileKernel.Proofs.ConflictFree
import TileKernel.Scalar
import TileKernel.Session.Basic
import TileKernel.Session.Report
import TileKernel.Session.Request
import TileKernel.Session.Step
import TileKernel.Shape
import TileKernel.Swizzle
import TileKernel.Swizzle.Permutation
import TileKernel.Swizzle.Search
import TileKernel.Target
import TileKernel.Proofs.Validity.Basic
import TileKernel.Proofs.Validity.Edits
import TileKernel.Proofs.Validity.Stages
import TileKernel.Proofs.Validity.Lowering
import TileKernel.Proofs.PipelineShape
import TileKernel.Proofs.Layout.Dense
import TileKernel.Proofs.Layout.Fragment
import TileKernel.Proofs.SolveOrder
import TileKernel.Proofs.SwizzleChoice
import TileKernel.Proofs.Casts
import TileKernel.Proofs.Simplification
import TileKernel.Proofs.TopologicalOrder
import TileKernel.Proofs.Failure
import TileKernel.Proofs.PipelineFailure
import TileKernel.Proofs.Materialize
import TileKernel.Proofs.CopyInsertion
import TileKernel.Proofs.AssignmentFailure
import TileKernel.Proofs.AssignmentOrder
import TileKernel.Proofs.Granularity
import TileKernel.Proofs.IntegerFolding
import TileKernel.Proofs.AccessCoverage
import TileKernel.Proofs.ExplicitConversions
import TileKernel.Proofs.LoopDependencies
import TileKernel.Proofs.LiveOrder
import TileKernel.Proofs.PipelineProgress
import TileKernel.Proofs.PassProgress
import TileKernel.Proofs.GemmBuild
import TileKernel.Proofs.SwizzleProgress
import TileKernel.Proofs.GemmLayouts
import TileKernel.Proofs.GemmLowering
