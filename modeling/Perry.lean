import Perry.Hir.Jumps
import Perry.Codegen.ParamRangesRuns
import Perry.Codegen.IntValuedRuns
import Perry.Transform.FinallySound
import Perry.Transform.HoistYieldsStmts
import Perry.Transform.HoistAwaitsStmts
import Perry.Runtime.BigIntDivision
import Perry.Runtime.BigIntConvert
import Perry.Runtime.MapForEach
import Perry.Transform.IdScan
import Perry.Json.Agreement
import Perry.Json.Acceptance
import Perry.Runtime.Utf8Stream
import Perry.Runtime.AsyncGeneratorReturn
import Perry.Json.TypedAgreement
import Perry.Runtime.BigIntPow
import Perry.Runtime.BigIntShifts
import Perry.Codegen.ReturnsInteger
import Perry.Transform.PropCseSound
import Perry.Transform.SwitchDesugarSound
import Perry.Runtime.ClusterFramesSound
import Perry.Runtime.BigIntTexts
import Perry.Runtime.BigIntCompare
import Perry.Json.Escaping
import Perry.Runtime.SetAlgebra
import Perry.Runtime.SetForEach
import Perry.Unicode.PunycodeRoundTrip
import Perry.Json.LazyReads
import Perry.Transform.ImulSound
import Perry.Codegen.NotBigIntRuns
import Perry.Strings.Compare
import Perry.Strings.Header
import Perry.Strings.RegexSplit
import Perry.Strings.Search
import Perry.Strings.Slicing
import Perry.Strings.Split
import Perry.Strings.SplitParts
import Perry.Runtime.ClusterRotation
import Perry.Sorting.Default
import Perry.Sorting.Merging
import Perry.Sorting.ComparatorSound
import Perry.Compose.StartupOrder
import Perry.Compose.Dotenv
import Perry.Runtime.NumericIndexSound
import Perry.Runtime.TypedarrayHalf
import Perry.Strings.RegexpEscape
import Perry.Transform.AwaitPositions
import Perry.Strings.ReplaceExpandSound
import Perry.Strings.GlobalScan
import Perry.Compose.Rollback
import Perry.Transform.ModuleConstFoldSound
import Perry.Json.DepthBound
import Perry.Runtime.BoxedSetRuns
import Perry.Runtime.KeyedTableRuns
import Perry.Runtime.ContextStoreRuns
import Perry.Runtime.ReactionsRuns
import Perry.Compile.ModuleInit
import Perry.Runtime.DateUtc
import Perry.Runtime.Base64Strict
import Perry.Runtime.BigIntBitwise
import Perry.Runtime.Uri
import Perry.Runtime.TimersRuns
