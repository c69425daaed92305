import IcyDb.Bytes.Lex
import IcyDb.Bytes.BigEndian
import IcyDb.Bytes.FloatOrder
import IcyDb.Control.Except
import IcyDb.Order.Comparator
import IcyDb.Numeral.Digits
import IcyDb.Types.Atoms
import IcyDb.Types.Account
import IcyDb.Types.Decimal
import IcyDb.Types.DecimalOrder
import IcyDb.Key.PrimaryKey
import IcyDb.Key.PrimaryKeyCodec
import IcyDb.Key.StoreKey
import IcyDb.Key.StoreKeyCodec
import IcyDb.Index.KeyCodec
import IcyDb.Index.KeyOrder
import IcyDb.Index.KeyRoundTrip
import IcyDb.Bytes.LexRange
import IcyDb.Index.KeyBounds
import IcyDb.Index.KeyBoundsOrder
import IcyDb.Value.Value
import IcyDb.Value.Compare
import IcyDb.Value.CanonicalOrder
import IcyDb.Value.CompareLaws
import IcyDb.Bytes.Complement
import IcyDb.Index.OrderedComponent
import IcyDb.Index.OrderedComponentOrder
import IcyDb.Index.DecimalComponentOrder
import IcyDb.Index.BigIntComponentOrder
import IcyDb.Index.ComponentOrder
import IcyDb.Value.Equality
import IcyDb.Predicate.Ast
import IcyDb.Predicate.Semantics
import IcyDb.Planner.Implication
import IcyDb.Planner.ImplicationSoundness
import IcyDb.Planner.Residual
import IcyDb.Planner.ResidualSoundness
import IcyDb.Order.Bound
import IcyDb.Order.SortedMerge
import IcyDb.Order.SortedMap
import IcyDb.Store.OrderedOverlay
import IcyDb.Store.Journaled
import IcyDb.Order.TopK
import IcyDb.Order.MergeDistinct
import IcyDb.Order.BinaryHeap
import IcyDb.Executor.OrderCompare
import IcyDb.Executor.OrderWindow
import IcyDb.Value.EqualityLaws
import IcyDb.Value.Hash
import IcyDb.Grouping.Buckets
import IcyDb.Executor.GroupKey
import IcyDb.Executor.GroupedCount
import IcyDb.Executor.GroupedCountAgreement
import IcyDb.Schema.IdentityState
import IcyDb.Schema.IdentityAllocation
import IcyDb.Key.DecodedKey
import IcyDb.Journal.IdentityRangeProof
import IcyDb.Stream.Pull
import IcyDb.Executor.KeyStream
import IcyDb.Executor.KeyStreamOrder
import IcyDb.Executor.FlatMergeOrder
import IcyDb.Executor.KeyStreamSafety
import IcyDb.Executor.KeyStreamSetOps
import IcyDb.Session.ResumableJob
import IcyDb.Session.ResumableJobProtocol
import IcyDb.Order.SortedRange
import IcyDb.Executor.HeldHeadSeek
import IcyDb.Executor.PhysicalSeek
import IcyDb.Predicate.SortKey
import IcyDb.Predicate.Normalize
import IcyDb.Predicate.Fingerprint
import IcyDb.Numeral.Rounding
import IcyDb.Types.DecimalArithmetic
import IcyDb.Types.DecimalChecked
import IcyDb.Types.DecimalSaturating
import IcyDb.Types.DecimalText
import IcyDb.Order.PartialLex
import IcyDb.Order.PartialCompare
import IcyDb.Value.StrictOrderLaws
import IcyDb.Predicate.CoercionLaws
import IcyDb.Logic.ListAll
import IcyDb.Predicate.NormalizeSound
import IcyDb.Predicate.NormalForm
import IcyDb.Store.PositionedOverlay
import IcyDb.Store.OnlineFold
import IcyDb.Store.EntityCardinality
import IcyDb.Store.DataStore
import IcyDb.Store.OnlineCounters
import IcyDb.Store.StartupRecovery
import IcyDb.Store.StoreOperations
