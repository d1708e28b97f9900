import Hittop.Rule
import Hittop.Names
import Hittop.Uri.Grammar
import Hittop.Http.Grammar
import Hittop.Json.Grammar
import Hittop.Environment
import Hittop.Parser
import Hittop.Fuel
import Hittop.Bounds
import Hittop.Shape
import Hittop.Streaming
import Hittop.Library.Recognizer
import Hittop.Library.Reads
import Hittop.Library.Guarded
import Hittop.Library.Accepted
import Hittop.Library.Brackets
import Hittop.Library.Journal
import Hittop.Library.Overload
import Hittop.Library.Rank
import Hittop.Limit
import Hittop.Meaning
import Hittop.Backtracking
import Hittop.SingleChar
import Hittop.Simulation
import Hittop.Transparency
import Hittop.Repetition
import Hittop.Trait
import Hittop.Denotation
import Hittop.Grammars
import Hittop.Characters
import Hittop.Recording
import Hittop.Effects
import Hittop.Retrying
import Hittop.Uri.Reading
import Hittop.Uri.Visitor
import Hittop.Uri.Recording
import Hittop.Http.Reading
import Hittop.Http.Visitor
import Hittop.Http.Integers
import Hittop.Http.Recording
import Hittop.Http.Framing
import Hittop.Uri.Port
import Hittop.Uri.Stale
import Hittop.Uri.Texts
import Hittop.Uri.Taking
import Hittop.Uri.Segments
import Hittop.Uri.Authority
import Hittop.Uri.Hostname
import Hittop.Uri.Roundtrip
import Hittop.Uri.Retries
import Hittop.Http.Taking
import Hittop.Http.Methods
import Hittop.Http.Roundtrip
import Hittop.Http.AuthorityForm
import Hittop.Http.Headers
import Hittop.Http.Retries
import Hittop.Http.Comments
import Hittop.Library.Run
import Hittop.Library.Ring
import Hittop.Library.BoundedQueue
import Hittop.Library.Pool
import Hittop.Io.CircularBuffer
import Hittop.Io.RingQueue
import Hittop.Io.Stream
import Hittop.Io.Session
import Hittop.Io.Pipe
import Hittop.Io.Handlers
import Hittop.Io.EndOfFile
import Hittop.Concurrent.AsyncQueue
import Hittop.Concurrent.Matching
import Hittop.Concurrent.Fifo
import Hittop.Concurrent.OrderedActions
import Hittop.Json.Stuck
import Hittop.Json.Streaming
import Hittop.Json.Stability
import Hittop.Json.LeadingSpace
import Hittop.Json.Unescaping
import Hittop.Json.Composition
import Hittop.Json.Unclosed
import Hittop.Json.Range
import Hittop.Json.Numbers
import Hittop.Container.Trie
import Hittop.Kwargs.Get
import Hittop.Termination
import Hittop.ShortAlloc.Arena
import Hittop.ShortAlloc.Blocks
import Hittop.Io.Waiting
import Hittop.Concurrent.Quiescence
import Hittop.Concurrent.WaitFree
import Hittop.Http.Message
import Hittop.Library.RefCount
import Hittop.Concurrent.CallbackTarget
import Hittop.Concurrent.CallbackLifetime
import Hittop.Concurrent.CallbackTasks
import Hittop.Visiting
import Hittop.Tracing
import Hittop.Json.Evaluation
import Hittop.Concurrent.OrderedPair
import Hittop.Concurrent.PairRuns
import Hittop.Kwargs.Consume
import Hittop.Http.Targets
