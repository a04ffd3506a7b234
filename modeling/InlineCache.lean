import InlineCache.AbortReason
import InlineCache.BuildError
import InlineCache.Code.Assembler
import InlineCache.Code.Condition
import InlineCache.Code.Fragment
import InlineCache.Code.Inst
import InlineCache.Draft
import InlineCache.Emit.ExceptionCheck
import InlineCache.Emit.Guard
import InlineCache.Emit.Piece
import InlineCache.Emit.SelfCheck
import InlineCache.Fault
import InlineCache.Key
import InlineCache.Linked
import InlineCache.Machine.Memory
import InlineCache.Machine.Run
import InlineCache.Machine.State
import InlineCache.Named
import InlineCache.Options
import InlineCache.Proofs.Execution
import InlineCache.Proofs.GuardVerdict
import InlineCache.Proofs.LinkRun
import InlineCache.Proofs.LinkTargets
import InlineCache.Proofs.LinkedLayout
import InlineCache.Proofs.MemoryWords
import InlineCache.Proofs.Placement
import InlineCache.Proofs.RegionContents
import InlineCache.Proofs.SiteAccess
import InlineCache.Proofs.SiteLayout
import InlineCache.Proofs.Transparency
import InlineCache.Proofs.ValueBits
import InlineCache.Register
import InlineCache.Resolution
import InlineCache.Session
import InlineCache.Shape
import InlineCache.Site
import InlineCache.SlowCall
import InlineCache.StackMap
import InlineCache.Ty
import InlineCache.Value
import InlineCache.Worker
import InlineCache.Proofs.LinkFrame
import InlineCache.Proofs.LinkOrder
import InlineCache.Proofs.ForwardBranches
import InlineCache.Proofs.RegionRoom
import InlineCache.Proofs.BuildErrors
import InlineCache.Proofs.SelfCheckVerdict
import InlineCache.Proofs.BlindGuards
import InlineCache.Proofs.SlotDecoding
import InlineCache.Proofs.TypeJoin
import InlineCache.Proofs.WorkerHandoff
import InlineCache.Proofs.TagRegisters
import InlineCache.Proofs.LinkedSites
import InlineCache.Proofs.AccessEffects
import InlineCache.Proofs.ExceptionVerdict
import InlineCache.Proofs.JoinOrder
import InlineCache.Proofs.SlotDisplacement
import InlineCache.Proofs.FuzzHook
import InlineCache.Proofs.JoinLaws
import InlineCache.Proofs.HeaderBytes
import InlineCache.Proofs.KeyNumbering
import InlineCache.Proofs.BoxedDoubles
import InlineCache.Proofs.MemoryAccess
import InlineCache.Proofs.StepLimits
import InlineCache.Proofs.StepwiseEmission
import InlineCache.Proofs.Relocation
