import PaideiaAs.Types.UnifyRuns
import PaideiaAs.Runtime.Branches
import PaideiaAs.Elaborator.Labels
import PaideiaAs.Elaborator.Collisions
import PaideiaAs.Elaborator.IntMatch
import PaideiaAs.Elaborator.JumpMatch
import PaideiaAs.Pax.RoundTrip
import PaideiaAs.Linker.Bindings
import PaideiaAs.Linker.Contents
import PaideiaAs.ShellHm.Principal
import PaideiaAs.ShellHm.RowEnds
import PaideiaAs.ShellHm.RowRuns
import PaideiaAs.ShellDatalog.MagicRuns
import PaideiaAs.Elaborator.Incremental
import PaideiaAs.Elaborator.FunctorApply
import PaideiaAs.Elaborator.Unhandled
import PaideiaAs.Elaborator.FixedpointRuns
import PaideiaAs.Types.Productive
import PaideiaAs.Ir.Dse
import PaideiaAs.Elaborator.AggregateReturn
import PaideiaAs.Elaborator.BranchMerge
import PaideiaAs.Ir.TailcallRuns
import PaideiaAs.Ir.ArgSlots
import PaideiaAs.Elaborator.Hygiene
import PaideiaAs.Ir.PeepholeRuns
import PaideiaAs.Unicode.Utf8
import PaideiaAs.Crypto.Sha2
import PaideiaAs.Lexer.LexRuns
import PaideiaAs.Types.RowSubtype
import PaideiaAs.Ir.ScheduleRuns
import PaideiaAs.EmitterPe.RelocRuns
import PaideiaAs.Ir.UnrollRuns
import PaideiaAs.Types.FixedPoint
import PaideiaAs.Effects.Compose
import PaideiaAs.Types.HandlerCompose
import PaideiaAs.ShellHm.ComposeLaw
import PaideiaAs.ShellHm.Renaming
import PaideiaAs.ShellDatalog.Queries
import PaideiaAs.ShellDatalog.Session
import PaideiaAs.ShellDatalog.AggregationOrder
import PaideiaAs.Runtime.Rewriting
import PaideiaAs.Pax.FixedSize
import PaideiaAs.Elaborator.CallInfer
import PaideiaAs.Types.LayoutRuns
import PaideiaAs.CmdBuild.Symbols
import PaideiaAs.Encoder.VectorMoves
import PaideiaAs.Encoder.EnumRuns
import PaideiaAs.Encoder.UpperBound
import PaideiaAs.Crypto.FieldLaws
import PaideiaAs.Crypto.Decoding
import PaideiaAs.Crypto.P256Group
import PaideiaAs.Crypto.KeyAgreement
import PaideiaAs.ShellDatalog.Composition
