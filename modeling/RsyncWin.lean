import RsyncWin.Lib.Bytes
import RsyncWin.Lib.Prog
import RsyncWin.Lib.Codec
import RsyncWin.Lib.Chunks
import RsyncWin.Lib.Md4
import RsyncWin.Lib.Utf8
import RsyncWin.Lib.Path
import RsyncWin.Lib.PathBuf
import RsyncWin.Lib.Tree
import RsyncWin.Lib.SortBy
import RsyncWin.Lib.Duplex
import RsyncWin.Protocol.Io
import RsyncWin.Protocol.IoCodec
import RsyncWin.Protocol.Multiplex
import RsyncWin.Protocol.Exchange
import RsyncWin.Protocol.Deflated
import RsyncWin.Transfer.Local
import RsyncWin.Transfer.SumHead
import RsyncWin.Transfer.Checksum
import RsyncWin.Transfer.Delta
import RsyncWin.Transfer.DeltaTokens
import RsyncWin.Transfer.Signatures
import RsyncWin.Transfer.Tokens
import RsyncWin.Transfer.DeltaTransfer
import RsyncWin.Transfer.TokenSafety
import RsyncWin.Protocol.Flist
import RsyncWin.Protocol.FlistFields
import RsyncWin.Protocol.FlistCodec
import RsyncWin.Protocol.FlistDrift
import RsyncWin.Protocol.Flist27
import RsyncWin.Protocol.Flist27Codec
import RsyncWin.Winfs.Path
import RsyncWin.Protocol.FlistSafety
import RsyncWin.Filter.Glob
import RsyncWin.Filter.Rule
import RsyncWin.Remote.SourceEntries
import RsyncWin.Remote.SenderOrder
import RsyncWin.Remote.CanonicalOrder
import RsyncWin.Remote.SenderClaims
import RsyncWin.Remote.Receive
import RsyncWin.Remote.ReceiveSafety
import RsyncWin.Daemon.IndexAgreement
import RsyncWin.Fs.Memory
import RsyncWin.Fs.MemoryLaws
import RsyncWin.Fs.Options
import RsyncWin.Fs.Entries
import RsyncWin.Fs.EntriesLaws
import RsyncWin.Fs.Transfer
import RsyncWin.Fs.Sync
import RsyncWin.Fs.DeletePlan
import RsyncWin.Fs.SyncRules
import RsyncWin.Fs.RunRules
import RsyncWin.Fs.Effects
import RsyncWin.Fs.SourceFrame
import RsyncWin.Fs.MaxDelete
import RsyncWin.Fs.PlainSync
import RsyncWin.Fs.Mirror
import RsyncWin.Fs.Ground
import RsyncWin.Fs.Protect
import RsyncWin.Fs.Reach
import RsyncWin.Fs.Staging
import RsyncWin.Fs.LocalExtras
import RsyncWin.Fs.Sources
import RsyncWin.Fs.DryRun
import RsyncWin.Fs.Turn
import RsyncWin.Fs.Bringing
import RsyncWin.Fs.Basis
import RsyncWin.Fs.HardLinks
import RsyncWin.Fs.Ahead
import RsyncWin.Fs.Delayed
import RsyncWin.Protocol.ShellJoin
import RsyncWin.Delta.Matcher
import RsyncWin.Protocol.MuxDelivery
import RsyncWin.Daemon.Args
import RsyncWin.Batch.Replay
import RsyncWin.Protocol.DeflatedTokens
import RsyncWin.Protocol.DeflatedHistory
import RsyncWin.Protocol.HistoryFlate
import RsyncWin.Transfer.DeltaScript
import RsyncWin.Protocol.IoChecked
import RsyncWin.Lib.FallibleRuns
import RsyncWin.Remote.EntryBatches
import RsyncWin.Fs.Incremental
import RsyncWin.Lib.Memo
import RsyncWin.Filter.Normal
import RsyncWin.Filter.FilterFile
import RsyncWin.Filter.GlobGrammar
import RsyncWin.Filter.GlobLaws
import RsyncWin.Filter.Escapes
import RsyncWin.Filter.TripleStar
import RsyncWin.Lib.Walks
import RsyncWin.Fs.LinkLoops
import RsyncWin.Fs.WalkEnds
import RsyncWin.Fs.MergeLocality
import RsyncWin.Remote.SourceWalk
import RsyncWin.Remote.FilterCopies
import RsyncWin.Transfer.DeltaReference
import RsyncWin.Transfer.DeflatedTransfer
import RsyncWin.Delta.Rollsum
import RsyncWin.Transfer.BlockSpans
import RsyncWin.Transfer.AppendVerify
import RsyncWin.Protocol.IndexSequence
import RsyncWin.Winfs.Preflight
import RsyncWin.Lib.Base64
import RsyncWin.Daemon.Auth
import RsyncWin.Lib.Numeral
import RsyncWin.Lib.Gregorian
import RsyncWin.Plan.StopAt
import RsyncWin.Winfs.Sidecar
import RsyncWin.Lib.Masks
import RsyncWin.Core.Chmod
import RsyncWin.Lib.Excepts
import RsyncWin.Protocol.Stages
import RsyncWin.Remote.Send
import RsyncWin.Remote.Serve
import RsyncWin.Remote.ItemStages
import RsyncWin.Remote.Lockstep
import RsyncWin.Remote.Sessions
import RsyncWin.Lib.Calls
import RsyncWin.Remote.Confinement
import RsyncWin.Remote.Pull
import RsyncWin.Remote.PullSafety
import RsyncWin.Remote.ServeSafety
import RsyncWin.Daemon.Transfer
import RsyncWin.Daemon.Serve
import RsyncWin.Daemon.Gate
import RsyncWin.Daemon.ClientArgs
import RsyncWin.Daemon.Reading
import RsyncWin.Daemon.Agreement
import RsyncWin.Daemon.WholeSessions
