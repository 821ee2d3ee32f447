import Shutter.StringMatcher
import Shutter.RuleTrie.Rules
import Shutter.Acch.Correct
import Shutter.Rules.Monitor
import Shutter.Rules.Undo
import Shutter.Rules.Interleave
import Shutter.Stream.Cursor
import Shutter.Stream.Bucket
import Shutter.Stream.Poll
import Shutter.Stream.Store
import Shutter.Gunzip.Tokens
import Shutter.Stream.Recycle
import Shutter.RuleTrie.Counts
import Shutter.Rules.Blacklist
import Shutter.Stream.Handler
import Shutter.Stream.Decided
import Shutter.Acch.Memory
import Shutter.Rules.Structures
import Shutter.Rules.Alphabet
import Shutter.Http.Field
import Shutter.Rules.Restart
import Shutter.Acsm.Exact
import Shutter.Rules.Keywords
import Shutter.Rules.Escape
import Shutter.Stream.Append
import Shutter.Rules.Capacity
import Shutter.Rules.Messages
import Shutter.Rules.Log
import Shutter.Http.Writes
import Shutter.Acch.Expansion
import Shutter.Gunzip.Lines
import Shutter.Gunzip.GzipHeader
import Shutter.MemoryManager
import Shutter.Gunzip.Waiting
import Shutter.Acch.Inside
import Shutter.Gunzip.DelHeader
import Shutter.Gunzip.Verdict
import Shutter.Rules.Extracted
