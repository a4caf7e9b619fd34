import TaterTOS.Lib.RingBuffer
import TaterTOS.Sched.Model

/-!
# File descriptors

A model of the descriptor tables of processes and of the global objects behind them
(`kernel/proc/syscall.c`, the end of a process in `kernel/proc/process.c`, `vfs_open` and
`vfs_close` in `kernel/fs/vfs.c`).

Answers of the file systems, of `kmalloc` and of the checks of user addresses are arguments. What
`tcp_close` and a file system do on their side is recorded as the list of their calls; a wakeup of
poll waiters is only counted.
-/

namespace TaterTOS.Fd

open Function Lib Sched

/-! ### Constants -/

abbrev fdMax : ℕ := 64

abbrev pipeMax : ℕ := 128

def pipeBufsz : ℕ := 4096

abbrev sockMax : ℕ := 16

abbrev filePoolSize : ℕ := 256

def pathMax : ℕ := 128

def EBADF : ℤ := 9
def ENOENT : ℤ := 2
def ENOMEM : ℤ := 12
def EFAULT : ℤ := 14
def ENOTDIR : ℤ := 20
def EISDIR : ℤ := 21
def EINVAL : ℤ := 22
def ENFILE : ℤ := 23
def EMFILE : ℤ := 24
def EPIPE : ℤ := 32
def ENAMETOOLONG : ℤ := 36
def EPROTOTYPE : ℤ := 91
def EAFNOSUPPORT : ℤ := 97

def oCreat : ℕ := 0x40
def oNonblock : ℕ := 0x800
def oCloexec : ℕ := 0x80000
def oAccmode : ℕ := 0x3
def oDirectory : ℕ := 0x10000

def afUnix : ℕ := 1
def afInet : ℕ := 2
def sockStream : ℕ := 1
def sockDgram : ℕ := 2

/-! ### Objects -/

abbrev FdIndex := Fin fdMax
abbrev PipeId := Fin pipeMax
abbrev SockId := Fin sockMax
abbrev FileId := Fin filePoolSize

structure Pipe where
  ring : RingBuffer UInt8
  readers : ℕ
  writers : ℕ
  used : Bool

inductive SockState
  | closed
  | created
  | bound
  | listening
  | connecting
  | connected
  | shutdown
  deriving DecidableEq, Repr

structure Socket where
  used : Bool
  domain : ℕ
  type : ℕ
  state : SockState
  tcpHandle : ℤ
  listenHandle : ℤ
  deriving DecidableEq, Repr

/-- A control block or another allocation on the kernel heap. An epoll block has a list of items, a
memfd an array of frames; both are allocations of their own. -/
inductive Block
  | epoll (items : List ℕ)
  | epollItem
  | eventfd
  | timerfd
  | signalfd
  | inotify
  | memfd (array : ℕ) (frames : List ℕ)
  | memfdArray
  deriving DecidableEq, Repr

inductive Target
  | none
  | file (i : FileId)
  | pipeRead (i : PipeId)
  | pipeWrite (i : PipeId)
  | socket (i : SockId)
  | epoll (a : ℕ)
  | eventfd (a : ℕ)
  | dir
  | timerfd (a : ℕ)
  | signalfd (a : ℕ)
  | inotify (a : ℕ)
  | memfd (a : ℕ)
  | stdio (fd : Fin 3)
  deriving DecidableEq, Repr

structure Desc where
  target : Target
  table : ℤ
  flags : ℕ
  path : List Char
  path_lt : path.length < pathMax
  deriving DecidableEq, Repr

structure Files where
  fds : FdIndex → Desc
  openFds : ℕ

/-- The global objects. `files` gives the mount of an open file; `heap` is what `kmalloc` gave out;
`freed` are the frames given back, `tcpClosed` and `fsClosed` the calls of `tcp_close` and of the
`close` of file systems. -/
structure World where
  pipes : PipeId → Pipe
  sockets : SockId → Socket
  files : FileId → Option ℕ
  mountRefs : ℕ → ℕ
  heap : ℕ → Option Block
  freed : List ℕ
  tcpClosed : List ℤ
  fsClosed : List FileId
  wakes : ℕ

structure View where
  files : Files
  world : World

def World.setPipe (w : World) (i : PipeId) (p : Pipe) : World :=
  { w with pipes := update w.pipes i p }

def World.setSocket (w : World) (i : SockId) (sk : Socket) : World :=
  { w with sockets := update w.sockets i sk }

def World.setFile (w : World) (i : FileId) (mount : Option ℕ) : World :=
  { w with files := update w.files i mount }

def World.wake (w : World) : World := { w with wakes := w.wakes + 1 }

def View.setWorld (v : View) (w : World) : View := { v with world := w }

/-! ### Heap -/

def kmalloc (w : World) (answer : ℕ) (b : Block) : Option (ℕ × World) :=
  if answer = 0 ∨ w.heap answer ≠ none then none
  else some (answer, { w with heap := update w.heap answer (some b) })

def kfree (w : World) (a : ℕ) : World := { w with heap := update w.heap a none }

def memfdFreePages (w : World) (array : ℕ) (frames : List ℕ) : World :=
  if array = 0 then w
  else kfree { w with freed := w.freed ++ frames.filter (· != 0) } array

def closeBlock (w : World) (a : ℕ) : World := kfree w a

def closeMemfd (w : World) (a : ℕ) : World :=
  match w.heap a with
  | some (.memfd array frames) => kfree (memfdFreePages w array frames) a
  | _ => w

def closeEpoll (w : World) (a : ℕ) : World :=
  match w.heap a with
  | some (.epoll items) => kfree (items.foldl kfree w) a
  | _ => w

/-! ### Open files -/

def vfsOpen (w : World) (mount : Option ℕ) (opened : Bool) : Option FileId × World :=
  match mount with
  | none => (none, w)
  | some m =>
    if w.mountRefs m = 0xFFFFFFFF then (none, w)
    else
      match (List.finRange filePoolSize).find? fun i => (w.files i).isNone with
      | none => (none, w)
      | some i =>
        if opened then
          (some i, { w.setFile i (some m) with
            mountRefs := update w.mountRefs m (w.mountRefs m + 1) })
        else (none, w)

def vfsClose (w : World) (i : FileId) : World :=
  match w.files i with
  | none => w
  | some m =>
    { w.setFile i none with
      mountRefs := update w.mountRefs m (w.mountRefs m - 1)
      fsClosed := w.fsClosed ++ [i] }

/-! ### Pipes -/

def Pipe.settle (p : Pipe) : Pipe :=
  if p.readers = 0 ∧ p.writers = 0 then
    { p with used := false, ring := { p.ring with head := 0, tail := 0 } }
  else p

def Pipe.dropReader (p : Pipe) : Pipe := Pipe.settle { p with readers := p.readers - 1 }

def Pipe.dropWriter (p : Pipe) : Pipe := Pipe.settle { p with writers := p.writers - 1 }

def closePipeRead (w : World) (i : PipeId) : World := w.setPipe i (w.pipes i).dropReader

def closePipeWrite (w : World) (i : PipeId) : World := w.setPipe i (w.pipes i).dropWriter

def pipeAlloc (w : World) : Option (PipeId × World) :=
  ((List.finRange pipeMax).find? fun i => !(w.pipes i).used).map fun i =>
    (i, w.setPipe i { (w.pipes i) with
      used := true, readers := 0, writers := 0
      ring := { (w.pipes i).ring with head := 0, tail := 0 } })

def pipeRead (w : World) (i : PipeId) (len : ℕ) : ℤ × List UInt8 × World :=
  let p := w.pipes i
  if len = 0 then (-EINVAL, [], w)
  else if p.ring.head = p.ring.tail then
    if p.writers = 0 then (0, [], w) else (-EAGAIN, [], w)
  else
    let r := p.ring.read pipeBufsz len
    (r.1.length, r.1, (w.setPipe i { p with ring := r.2 }).wake)

def pipeWrite (w : World) (i : PipeId) (bytes : List UInt8) : ℤ × World :=
  let p := w.pipes i
  if bytes.length = 0 then (-EINVAL, w)
  else if p.readers = 0 then (-EPIPE, w)
  else if pipeBufsz - 1 - p.ring.size pipeBufsz = 0 then (-EAGAIN, w)
  else
    let r := p.ring.write pipeBufsz bytes
    (r.1, (w.setPipe i { p with ring := r.2 }).wake)

/-! ### Sockets -/

def pipeAt (h : ℤ) : Option PipeId :=
  if hlt : h.toNat < pipeMax then if 0 ≤ h then some ⟨h.toNat, hlt⟩ else none else none

def tcpClose (w : World) (h : ℤ) : World := { w with tcpClosed := w.tcpClosed ++ [h] }

def tcpCloseHandle (w : World) (h : ℤ) : World := if 0 ≤ h then tcpClose w h else w

def tcpCloseBoth (w : World) (sk : Socket) : World :=
  tcpCloseHandle (tcpCloseHandle w sk.tcpHandle) sk.listenHandle

def Socket.reset (sk : Socket) : Socket :=
  { sk with used := false, state := .closed, tcpHandle := -1, listenHandle := -1 }

def closeStream (w : World) (sk : Socket) : World :=
  if sk.domain = afUnix then
    match pipeAt sk.tcpHandle with
    | some out =>
      let w := closePipeWrite w out
      match pipeAt sk.listenHandle with
      | some inp => closePipeRead w inp
      | none => w
    | none => tcpCloseBoth w sk
  else tcpCloseBoth w sk

def closeSocket (w : World) (i : SockId) : World :=
  let sk := w.sockets i
  if sk.used then
    let w := if sk.type = sockStream then closeStream w sk else w
    w.setSocket i sk.reset
  else w

/-- The socket branch of `shared_release`, which does not know socketpairs. -/
def exitSocket (w : World) (i : SockId) : World :=
  let sk := w.sockets i
  if sk.used then
    let w := if sk.type = sockStream then tcpCloseBoth w sk else w
    w.setSocket i sk.reset
  else w

def sockAlloc (w : World) : Option (SockId × World) :=
  ((List.finRange sockMax).find? fun i => !(w.sockets i).used).map fun i =>
    (i, w.setSocket i ⟨true, 0, 0, .closed, -1, -1⟩)

/-! ### Letting go of a descriptor -/

def closeTarget (w : World) : Target → World
  | .file i => vfsClose w i
  | .pipeRead i => (closePipeRead w i).wake
  | .pipeWrite i => (closePipeWrite w i).wake
  | .socket i => (closeSocket w i).wake
  | .timerfd a => closeBlock w a
  | .signalfd a => closeBlock w a
  | .inotify a => closeBlock w a
  | .memfd a => closeMemfd w a
  | _ => w

def dup2Target (w : World) : Target → World
  | .file i => vfsClose w i
  | .pipeRead i => closePipeRead w i
  | .pipeWrite i => closePipeWrite w i
  | .socket i => closeSocket w i
  | .timerfd a => closeBlock w a
  | .signalfd a => closeBlock w a
  | .inotify a => closeBlock w a
  | .memfd a => closeMemfd w a
  | _ => w

def lxCloseTarget (w : World) : Target → World
  | .file i => vfsClose w i
  | .epoll a => closeEpoll w a
  | .eventfd a => kfree w a
  | .timerfd a => closeBlock w a
  | .signalfd a => closeBlock w a
  | .inotify a => closeBlock w a
  | _ => w

def exitTarget (w : World) : Target → World
  | .pipeRead i => (closePipeRead w i).wake
  | .pipeWrite i => (closePipeWrite w i).wake
  | .socket i => (exitSocket w i).wake
  | .file i => vfsClose w i
  | _ => w

/-! ### Descriptor tables -/

def Desc.closed : Desc := ⟨.none, -1, 0, [], by decide⟩

def Desc.isOpen (d : Desc) : Bool := d.target != .none

def fdIndex (lo fd : ℤ) : Option FdIndex :=
  if h : fd.toNat < fdMax then if lo ≤ fd ∧ 0 ≤ fd then some ⟨fd.toNat, h⟩ else none else none

def freeFrom (f : Files) (lo : ℕ) : Option FdIndex :=
  (List.finRange fdMax).find? fun fd => lo ≤ fd.val && !(f.fds fd).isOpen

def fdAlloc (f : Files) : Option FdIndex := freeFrom f 3

def Files.set (f : Files) (fd : FdIndex) (d : Desc) : Files :=
  { f with fds := update f.fds fd d }

def fdInstall (f : Files) (fd : FdIndex) (t : Target) (flags : ℕ) : Files :=
  if fd.val < 3 then f
  else { f.set fd { f.fds fd with target := t, table := 1, flags := flags } with
    openFds := (f.openFds + 1) % 2 ^ 16 }

def fdRelease (f : Files) (fd : FdIndex) : Files :=
  if fd.val < 3 then f
  else { f.set fd .closed with openFds := f.openFds - 1 }

def fdPathSet (f : Files) (fd : FdIndex) (path : List Char) : Option ℤ × Files :=
  if fd.val < 3 then (some (-EINVAL), f)
  else if path.length = 0 then (some (-ENAMETOOLONG), f)
  else if h : path.length < pathMax then
    (none, f.set fd { f.fds fd with path := path, path_lt := h })
  else (some (-ENAMETOOLONG), f)

def installFdPath (f : Files) (fd : FdIndex) (path : List Char) : Option ℤ × Files :=
  match fdPathSet f fd path with
  | (some e, f) => (some e, fdRelease f fd)
  | (none, f) => (none, f)

def retainTarget (w : World) : Target → World
  | .pipeRead i => w.setPipe i { w.pipes i with readers := (w.pipes i).readers + 1 }
  | .pipeWrite i => w.setPipe i { w.pipes i with writers := (w.pipes i).writers + 1 }
  | _ => w

/-- The common end of the duplications: `newfd` becomes a copy of `oldfd` with the given flags. -/
def copyFd (v : View) (oldfd newfd : FdIndex) (flags : ℕ) : ℤ × View :=
  let d := v.files.fds oldfd
  let f := fdInstall v.files newfd d.target flags
  let f := f.set newfd { f.fds newfd with table := d.table }
  match (if d.path = [] then (none, f) else installFdPath f newfd d.path) with
  | (some e, f) => (e, { v with files := f })
  | (none, f) => (newfd.val, ⟨f, retainTarget v.world d.target⟩)

/-! ### Calls -/

def sysClose (v : View) (fd : ℤ) : ℤ × View :=
  match fdIndex 3 fd with
  | none => (-EBADF, v)
  | some fd =>
    let t := (v.files.fds fd).target
    if t = .none then (-EBADF, v)
    else (0, ⟨fdRelease v.files fd, closeTarget v.world t⟩)

/-- `writable` is the check of the user's array. -/
def sysPipe (v : View) (writable : Bool) : ℤ × View :=
  if !writable then (-EFAULT, v)
  else
    match pipeAlloc v.world with
    | none => (-ENFILE, v)
    | some (i, w) =>
      let unused := w.setPipe i { w.pipes i with used := false }
      match fdAlloc v.files with
      | none => (-EMFILE, v.setWorld unused)
      | some rfd =>
        let f := fdInstall v.files rfd (.pipeRead i) 0
        match fdAlloc f with
        | none => (-EMFILE, ⟨fdRelease f rfd, unused⟩)
        | some wfd =>
          (0, ⟨fdInstall f wfd (.pipeWrite i) 0,
            retainTarget (retainTarget w (.pipeRead i)) (.pipeWrite i)⟩)

def sysDup (v : View) (oldfd : ℤ) : ℤ × View :=
  match fdIndex 3 oldfd with
  | none => (-EBADF, v)
  | some oldfd =>
    if (v.files.fds oldfd).target = .none then (-EBADF, v)
    else
      match fdAlloc v.files with
      | none => (-EMFILE, v)
      | some newfd => copyFd v oldfd newfd (v.files.fds oldfd).flags

def sysDup2 (v : View) (oldfd newfd : ℤ) : ℤ × View :=
  match fdIndex 0 oldfd, fdIndex 3 newfd with
  | some oldfd, some newfd =>
    if (v.files.fds oldfd).target = .none then (-EBADF, v)
    else if oldfd = newfd then (newfd.val, v)
    else
      let t := (v.files.fds newfd).target
      let v := if t = .none then v else ⟨fdRelease v.files newfd, dup2Target v.world t⟩
      copyFd v oldfd newfd (v.files.fds oldfd).flags
  | _, _ => (-EBADF, v)

def fdIsOpen (f : Files) (fd : FdIndex) : Bool := fd.val < 3 || (f.fds fd).isOpen

def lxDupFdAt (v : View) (oldfd minfd : ℤ) (extraFlags : ℕ) : ℤ × View :=
  match fdIndex 0 oldfd with
  | none => (-EBADF, v)
  | some oldfd =>
    if !fdIsOpen v.files oldfd then (-EBADF, v)
    else
      match fdIndex 0 minfd with
      | none => (-EINVAL, v)
      | some minfd =>
        match freeFrom v.files (max 3 minfd.val) with
        | none => (-EMFILE, v)
        | some newfd =>
          if h : oldfd.val < 3 then
            (newfd.val, { v with
              files := fdInstall v.files newfd (.stdio ⟨oldfd.val, h⟩) extraFlags })
          else copyFd v oldfd newfd ((v.files.fds oldfd).flags ||| extraFlags)

def lxCloseFd (v : View) (fd : ℤ) : ℤ × View :=
  match fdIndex 0 fd with
  | none => (-EBADF, v)
  | some fd =>
    if fd.val < 3 then (0, v)
    else
      let t := (v.files.fds fd).target
      if t = .none then (-EBADF, v)
      else (0, ⟨fdRelease v.files fd, lxCloseTarget v.world t⟩)

/-- What the file systems say about a path: whether it is a directory, and its mount and whether its
file system opens it, at the first try and after `vfs_create`. -/
structure PathAnswer where
  isDir : Bool
  mount : Option ℕ
  opened : Bool
  created : Bool

def sysOpen (v : View) (path : List Char) (flags : ℕ) (a : PathAnswer) : ℤ × View :=
  if a.isDir then
    if flags &&& oAccmode ≠ 0 then (-EISDIR, v)
    else
      match fdAlloc v.files with
      | none => (-EMFILE, v)
      | some fd =>
        let f := fdInstall v.files fd .dir (flags &&& oNonblock)
        let f := f.set fd { f.fds fd with table := 0 }
        match installFdPath f fd path with
        | (some e, f) => (e, { v with files := f })
        | (none, f) => (fd.val, { v with files := f })
  else if flags &&& oDirectory ≠ 0 then (-ENOTDIR, v)
  else
    match fdAlloc v.files with
    | none => (-EMFILE, v)
    | some fd =>
      let first := vfsOpen v.world a.mount a.opened
      let r := if first.1 = none ∧ flags &&& oCreat ≠ 0 then vfsOpen first.2 a.mount a.created
        else first
      match r with
      | (none, w) => (-ENOENT, v.setWorld w)
      | (some i, w) =>
        match installFdPath (fdInstall v.files fd (.file i) (flags &&& oNonblock)) fd path with
        | (some e, f) => (e, ⟨f, vfsClose w i⟩)
        | (none, f) => (fd.val, ⟨f, w⟩)

def sysSocket (v : View) (domain type : ℕ) : ℤ × View :=
  if domain ≠ afInet then (-EAFNOSUPPORT, v)
  else if type ≠ sockStream ∧ type ≠ sockDgram then (-EPROTOTYPE, v)
  else
    match sockAlloc v.world with
    | none => (-ENFILE, v)
    | some (i, w) =>
      match fdAlloc v.files with
      | none => (-EMFILE, v.setWorld (w.setSocket i { w.sockets i with used := false }))
      | some fd =>
        (fd.val, ⟨fdInstall v.files fd (.socket i) 0,
          w.setSocket i { w.sockets i with domain := domain, type := type, state := .created }⟩)

def createBlock (v : View) (answer : ℕ) (b : Block) (t : ℕ → Target) (flags : ℕ) : ℤ × View :=
  match kmalloc v.world answer b with
  | none => (-ENOMEM, v)
  | some (a, w) =>
    match fdAlloc v.files with
    | none => (-EMFILE, v.setWorld (kfree w a))
    | some fd => (fd.val, ⟨fdInstall v.files fd (t a) flags, w⟩)

def sysTimerfdCreate (v : View) (clockid flags answer : ℕ) : ℤ × View :=
  if clockid ≠ 0 ∧ clockid ≠ 1 then (-EINVAL, v)
  else if flags &&& not32 (oNonblock ||| oCloexec) ≠ 0 then (-EINVAL, v)
  else createBlock v answer Block.timerfd .timerfd
    ((flags &&& oNonblock) ||| (flags &&& oCloexec))

def sysMemfdCreate (v : View) (name : Bool) (flags answer : ℕ) : ℤ × View :=
  if flags &&& not32 oCloexec ≠ 0 then (-EINVAL, v)
  else if !name then (-EFAULT, v)
  else createBlock v answer (.memfd 0 []) .memfd (flags &&& oCloexec)

def exitFd (v : View) (fd : FdIndex) : View :=
  let t := (v.files.fds fd).target
  if t = .none then v else ⟨v.files.set fd .closed, exitTarget v.world t⟩

def sharedReleaseFds (v : View) : View :=
  let r := (List.finRange fdMax).foldl exitFd v
  { r with files := { r.files with openFds := 0 } }

/-! ### Start -/

def Files.fresh : Files := ⟨fun _ => .closed, 0⟩

def World.boot : World where
  pipes _ := ⟨⟨fun _ => 0, 0, 0⟩, 0, 0, false⟩
  sockets _ := ⟨false, 0, 0, .closed, 0, 0⟩
  files _ := none
  mountRefs _ := 0
  heap _ := none
  freed := []
  tcpClosed := []
  fsClosed := []
  wakes := 0

def View.boot : View := ⟨Files.fresh, World.boot⟩

end TaterTOS.Fd
