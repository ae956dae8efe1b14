import Aesd.SequentialRead
import Aesd.Interleaving
import Aesd.Uninitialised
import Aesd.Leaks
import Aesd.Server.AcceptLoop
import Aesd.Lib.CString
import Aesd.Server.Receive
import Aesd.Lib.Tokens
import Aesd.Server.SeekCommand
import Aesd.Seek
import Aesd.Server.Session
import Aesd.Server.Endings
import Aesd.SeekPosition
import Aesd.FailedWrite
import Aesd.WideLookup
import Aesd.Llseek
import Aesd.FileOps
import Aesd.Lib.Locked
import Aesd.Locking
import Aesd.Server.Bounds
import Aesd.Server.Echo
import Aesd.Server.Grammar
import Aesd.Server.FileBuild
import Aesd.Lib.BoundedQueue
import Aesd.Eviction
import Aesd.Server.Concurrent
import Aesd.Server.ClientReads
import Aesd.Lib.SList
import Aesd.Server.NodeList
import Aesd.Module
import Aesd.Server.FileProcess
import Aesd.Server.Additions
import Aesd.Server.Stopping
import Aesd.Server.SeekReads
import Aesd.Server.Delivery
import Aesd.Server.Restart
import Aesd.Server.Statements
import Aesd.Server.Lives
