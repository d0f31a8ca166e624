import FilterProxy.Headers
import FilterProxy.Message
import FilterProxy.Phase
import FilterProxy.Ending
import FilterProxy.Verdict
import FilterProxy.Chain
import FilterProxy.Route
import FilterProxy.Callback
import FilterProxy.Event
import FilterProxy.Board
import FilterProxy.FilterSet
import FilterProxy.Stream
import FilterProxy.Stream.Drive
import FilterProxy.Stream.Work
import FilterProxy.Pool
import FilterProxy.Registry
import FilterProxy.Metrics
import FilterProxy.Proxy
import FilterProxy.Binary64
import FilterProxy.Tree
import FilterProxy.Json.Printer
import FilterProxy.Json.Reader
import FilterProxy.Text.Visible
import FilterProxy.Text.Quoted
import FilterProxy.Text.Blank
import FilterProxy.Toml.Word
import FilterProxy.Toml.Number
import FilterProxy.Toml.Table
import FilterProxy.Toml.Document
import FilterProxy.Tree.Decode
import FilterProxy.Config
import FilterProxy.Config.Reader
import FilterProxy.Builtin
import FilterProxy.Catalog
import FilterProxy.Proxy.Text
import FilterProxy.Proofs.Board.Moves
import FilterProxy.Proofs.Board.Touch
import FilterProxy.Proofs.Pass
import FilterProxy.Proofs.Farewell
import FilterProxy.Proofs.Execute
import FilterProxy.Proofs.Drive
import FilterProxy.Proofs.Life
import FilterProxy.Proofs.Reach
import FilterProxy.Proofs.Deeds
import FilterProxy.Proofs.Pause
import FilterProxy.Proofs.Teardown
import FilterProxy.Proofs.Listing
import FilterProxy.Proofs.Cleanup
import FilterProxy.Proofs.Edges
import FilterProxy.Proofs.Sparing
import FilterProxy.Proofs.Course
import FilterProxy.Proofs.Board.Stir
import FilterProxy.Proofs.Stride
import FilterProxy.Proofs.Sequel
import FilterProxy.Proofs.Lived
import FilterProxy.Proofs.Silence
import FilterProxy.Proofs.Reply
import FilterProxy.Proofs.Rations
import FilterProxy.Proofs.Jumps
import FilterProxy.Proofs.Rest
import FilterProxy.Proofs.Owed
import FilterProxy.Proofs.Board.Frame
import FilterProxy.Proofs.Carry
import FilterProxy.Proofs.Conclusion
import FilterProxy.Proofs.Watchdog
import FilterProxy.Proofs.Precedence
import FilterProxy.Proofs.Dealings
import FilterProxy.Proofs.Vacancy
import FilterProxy.Proofs.Routing
import FilterProxy.Proofs.Shortfall
import FilterProxy.Proofs.Outcome
import FilterProxy.Proofs.Recast
import FilterProxy.Proofs.Unread
import FilterProxy.Proofs.Share
import FilterProxy.Proofs.Commons
import FilterProxy.Proofs.Independence
import FilterProxy.Proofs.Tenancy
import FilterProxy.Proofs.Accounts
import FilterProxy.Proofs.Once
import FilterProxy.Proofs.Plan
import FilterProxy.Proofs.Journey
import FilterProxy.Proofs.Conduct
import FilterProxy.Proofs.Configured
import FilterProxy.Proofs.Overwriting
import FilterProxy.Proofs.Shutdown
import FilterProxy.Proofs.Visits
import FilterProxy.Proofs.Sweep
import FilterProxy.Proofs.Rounds
import FilterProxy.Proofs.Cut
import FilterProxy.Proofs.Lag
import FilterProxy.Proofs.Detour
import FilterProxy.Proofs.Places
import FilterProxy.Proofs.Resumption
import FilterProxy.Proofs.Escape
import FilterProxy.Proofs.Written
import FilterProxy.Proofs.Retold
import FilterProxy.Proofs.Breakdown
import FilterProxy.Proofs.Contained
import FilterProxy.Proofs.Wish
import FilterProxy.Proofs.Delivery
import FilterProxy.Proofs.Prompt
import FilterProxy.Proofs.Heed
import FilterProxy.Proofs.Sight
import FilterProxy.Proofs.Outlook
import FilterProxy.Proofs.Reported
import FilterProxy.Proofs.Again
import FilterProxy.Proofs.Names
