import Everarch.Lib.Run
import Everarch.Lib.Timeline
import Everarch.Basic
import Everarch.Keys
import Everarch.AttrIndex.Table
import Everarch.AttrIndex.Merge
import Everarch.AttrIndex.History
import Everarch.AttrIndex.Runs
import Everarch.AttrIndex.Ties
import Everarch.AttrIndex.Remerge
import Everarch.AttrIndex.Once
import Everarch.Lib.Sql.Syntax
import Everarch.Lib.Sql.Semantics
import Everarch.AttrIndex.Query
import Everarch.AttrIndex.QueryMeaning
import Everarch.AttrIndex.ClaimSet
import Everarch.Glacier.Bucket
import Everarch.Glacier.Append
import Everarch.Glacier.Check
import Everarch.Glacier.Reindex
import Everarch.Glacier.Recovery
import Everarch.Glacier.Rebuild
import Everarch.Glacier.Corruption
import Everarch.Glacier.WrongIndex
import Everarch.Glacier.Intact
import Everarch.Glacier.Faults
import Everarch.Lib.Ring
import Everarch.Server.Queue
import Everarch.Server.Connection
import Everarch.Server.Storage
import Everarch.Server.Framing
import Everarch.Server.Integrity
import Everarch.Server.Watchers
import Everarch.Server.Watch
import Everarch.Server.Delivery
import Everarch.Sync.Specs
import Everarch.Sync.Bootstrap
import Everarch.Sync.Resume
import Everarch.Handover.Ending
import Everarch.Handover.Pipe
import Everarch.Cli.Compare
import Everarch.Cli.Sync
import Everarch.Cli.SyncComplete
import Everarch.Cli.SyncStuck
import Everarch.Client.Get
import Everarch.Client.GetLimit
import Everarch.AttrIndex.Factory
import Everarch.GlacierFs.Inodes
import Everarch.GlacierFs.Requests
import Everarch.Server.Answers
import Everarch.Cli.GetFile
import Everarch.Fs.Handles
import Everarch.Fs.View
import Everarch.Fs.Watch
import Everarch.Client.Exchange
import Everarch.AttrIndex.Gate
import Everarch.Fs.SeedDesc
import Everarch.Client.BufRead
import Everarch.Client.SearchResults
import Everarch.Cli.RoundTrip
import Everarch.AttrIndex.Retry
import Everarch.Glacier.Reading
import Everarch.AttrIndex.Archive
import Everarch.Client.PagedSearch
import Everarch.AttrIndex.Lines
import Everarch.Cli.BlobList
import Everarch.Claims.Refs
import Everarch.Glacier.Rollover
import Everarch.Lib.Sql.Glob
import Everarch.WebsocketServer.ClaimSetFilter
import Everarch.AttrIndex.Contains
import Everarch.Cli.Slices
import Everarch.Cli.BoundedRead
import Everarch.Client.BufStream
import Everarch.Server.QueueRuns
import Everarch.Server.PersisterRuns
import Everarch.Server.WatchSlots
import Everarch.Fs.InodeRemoval
import Everarch.RefTexts
import Everarch.AttrIndex.Placeholders
import Everarch.Fs.Affected
import Everarch.Fs.OpenFileRead
import Everarch.Fs.ReadParts
import Everarch.Configp
import Everarch.AttrIndex.QueryLines
import Everarch.ChunkWalks
import Everarch.Fs.ReadBounds
import Everarch.Times
import Everarch.TinySet
import Everarch.Lib.Heap
import Everarch.Llbuf
import Everarch.Lib.Lexer
import Everarch.Lib.BinarySearch
import Everarch.Lib.Recent
import Everarch.AttrIndex.QueryTokens
import Everarch.AttrIndex.QueryParser
import Everarch.AttrIndex.QueryGrammar
import Everarch.AttrIndex.HttpSearch
import Everarch.Cli.SharedTails
import Everarch.WebsocketServer.Session
import Everarch.WebsocketServer.Authors
import Everarch.WebsocketServer.ClaimCache
import Everarch.WebsocketClient.Channels
import Everarch.Signatures
import Everarch.Parallel.CommandLine
import Everarch.Parallel.Threads
import Everarch.Fs.Listing
import Everarch.Fs.Paths
import Everarch.FileMem
import Everarch.Httpd
import Everarch.UploadHttpd
import Everarch.Client.Credentials
import Everarch.WebsocketClient.VerifyMany
import Everarch.Cli.Rollsum
import Everarch.AttrIndex.SelectedAttrs
import Everarch.Client.WatchLines
import Everarch.Client.SearchReplies
