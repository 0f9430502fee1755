import JewelCase.Queue.Laps
import JewelCase.Queue.RewindReads
import JewelCase.Playlist.Undo
import JewelCase.Playlist.Written
import JewelCase.Playlist.Once
import JewelCase.Page.Paging
import JewelCase.Search.Ranked
import JewelCase.Filters.Plans
import JewelCase.Network.Forgotten
import JewelCase.Tracks.SameOrder
import JewelCase.Network.Replies
import JewelCase.Network.Kept
import JewelCase.Network.Fresh
import JewelCase.Plays.Once
import JewelCase.Plugins.Approved
import JewelCase.Player.State
import JewelCase.Player.Hub
import JewelCase.Player.Server
import JewelCase.Player.OneSpeaks
import JewelCase.Player.Heard
import JewelCase.Player.Ends
import JewelCase.Player.Relayed
import JewelCase.Scanner.Generations
import JewelCase.Scanner.Registered
import JewelCase.Scanner.Writes
import JewelCase.Scanner.Honest
import JewelCase.Scanner.BuiltIn
import JewelCase.Http.Rules
import JewelCase.Queue.Permutation
import JewelCase.Queue.ShuffleUndone
import JewelCase.Queue.PreviousResults
import JewelCase.Queue.HeldAgree
import JewelCase.Library.Timers
import JewelCase.Login.Limits
import JewelCase.Login.Recorded
import JewelCase.Login.Bounded
import JewelCase.Login.Results
import JewelCase.Library.Recency
import JewelCase.Queues.Store
import JewelCase.Queues.Edits
import JewelCase.Queues.Keep
import JewelCase.Queues.Writer
import JewelCase.Queues.Sound
import JewelCase.Queues.Coherent
import JewelCase.Queues.Lossless
import JewelCase.Queues.Commits
import JewelCase.Queues.Failures
import JewelCase.Queues.ListedOnce
import JewelCase.Http.Send
import JewelCase.Http.Reached
import JewelCase.Library.Alignment
import JewelCase.Search.Distance
import JewelCase.Search.Cut
import JewelCase.Library.Picks
import JewelCase.Tracks.RowOrder
import JewelCase.Waveform.Shape
import JewelCase.Library.Lists
import JewelCase.Catalog.Store
import JewelCase.Catalog.Identity
import JewelCase.Queue.Panel
import JewelCase.Queue.PlaysTaken
import JewelCase.Playlist.RowMoves
import JewelCase.Library.Optimistic
import JewelCase.Playlist.Editable
import JewelCase.Playlist.EditableRuns
import JewelCase.Library.Decimal
import JewelCase.Plugins.RateLimit
import JewelCase.Library.Bytes
import JewelCase.Library.Base64Url
import JewelCase.Library.PrefixCode
import JewelCase.Page.CursorText
import JewelCase.Scanner.PartialDate
import JewelCase.Store.Roots
import JewelCase.Store.Problems
import JewelCase.Library.Keyed
import JewelCase.Store.Counts
import JewelCase.Store.ProblemRuns
import JewelCase.Queue.RemoveRows
import JewelCase.Scanner.Paths
import JewelCase.Scanner.Confine
import JewelCase.Realtime.Client
import JewelCase.Realtime.OneWay
import JewelCase.Searches.Recent
import JewelCase.Searches.EachOnce
import JewelCase.Proxies.Trusted
import JewelCase.Proxies.Origin
import JewelCase.Player.Unsaved
import JewelCase.Player.NeverUnsaved
import JewelCase.Scanner.Pool
import JewelCase.Scanner.Turns
import JewelCase.Library.Tally
import JewelCase.Content.Tables
import JewelCase.Content.Triggers
import JewelCase.Content.Derived
import JewelCase.Content.Batch
import JewelCase.Content.Filed
import JewelCase.Content.LinkCounts
import JewelCase.Content.Weights
import JewelCase.Content.TagCounts
import JewelCase.Content.Carried
import JewelCase.Plugins.Hooks
import JewelCase.Searches.TaggedSets
