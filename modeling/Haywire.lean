import Haywire.Py.Str
import Haywire.Py.Builtins
import Haywire.Py.Bytes
import Haywire.Py.Float
import Haywire.Transport.Peer
import Haywire.Monitor.Tokenizer
import Haywire.Monitor.Reply
import Haywire.Monitor.Reader
import Haywire.Monitor.Display
import Haywire.Monitor.ScanForVideo
import Haywire.Remote.Gdb
import Haywire.Remote.GdbReply
import Haywire.Remote.Qmp
import Haywire.Termination
import Haywire.Py.Struct
import Haywire.Elf.Header
import Haywire.Elf.Segments
import Haywire.Elf.Scan
import Haywire.ActiveFramebuffer
import Haywire.MemoryStructures
import Haywire.Remote.GdbStub
import Haywire.Remote.ScanRegions
import Haywire.GuestFile
