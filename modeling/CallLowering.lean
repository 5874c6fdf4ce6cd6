import CallLowering.Graph.Instruction
import CallLowering.Lowering.CopyTrace
import CallLowering.Lowering.Outgoing
import CallLowering.Lowering.Run
import CallLowering.Proofs.Acyclicity
import CallLowering.Proofs.AddressStores
import CallLowering.Proofs.ArmRules
import CallLowering.Proofs.CalmLateNodes
import CallLowering.Proofs.CappedReports
import CallLowering.Proofs.Duplicates
import CallLowering.Proofs.EightbyteClasses
import CallLowering.Proofs.EvaluationKept
import CallLowering.Proofs.FrozenLists
import CallLowering.Proofs.MaterializedShapes
import CallLowering.Proofs.OptimizationLevels
import CallLowering.Proofs.OutgoingSlots
import CallLowering.Proofs.PinOrder
import CallLowering.Proofs.Placements
import CallLowering.Proofs.RefusedFinalizing
import CallLowering.Proofs.ScopedCopies
import CallLowering.Proofs.ShapedReads
import CallLowering.Proofs.SignatureKept
import CallLowering.Proofs.SpecifiedOrder
import CallLowering.Proofs.TempIntegrity
import CallLowering.Proofs.Tiling
import CallLowering.Proofs.WarrantedRefusals
import CallLowering.Proofs.WatchedLowering
