import SystemsLabs.Proxylab.Accept
import SystemsLabs.Proxylab.FailingRelay
import SystemsLabs.Proxylab.Uri

/-!
# The thread of a request (`doit`)

`doit` with the outcomes of all its system calls as parameters (`Env`), also the failing ones, and
with what its variables hold before they are set (`Stack`). It ends with what it has done, or it
stops: an error wrapper has called `exit`, or it has accessed memory out of bounds, or it runs on
and on.

**Scope.** The outcomes of the calls are what this thread sees of the others. A signal `SIGPIPE` is
ignored, as `main` asks for, and a `read` that a signal interrupts is repeated. What is printed to
the terminal is left out.
-/

namespace SystemsLabs.Proxylab

open Lib

/-! ## Errors -/

/-- Why `doit` does not return. -/
inductive Stop
  /-- `unix_error` and `posix_error` print a message and exit. -/
  | exit (msg : String)
  /-- An access out of bounds or through a null pointer. -/
  | undefined
  /-- The loop has not ended yet. -/
  | fuel
  deriving DecidableEq

/-- A wrapper that exits when the call fails. -/
def check (ok : Bool) (msg : String) : Except Stop Unit :=
  if ok then .ok () else .error (.exit msg)

/-- The value of an expression that may be undefined. -/
def defined {α : Type*} : Option α → Except Stop α
  | some a => .ok a
  | none => .error .undefined

/-! ## What `doit` depends on -/

/-- `MAXBUF`. -/
abbrev maxbuf : ℕ := 8192

/-- What the variables of `doit` hold before they are set. -/
structure Stack where
  buf : CBuf maxline
  requestLine : RequestLine
  pathname : CBuf maxline
  port : ℤ
  clientMessage : CBuf maxbuf
  clientBuf : CBuf maxline
  logstring : CBuf maxline

/-- The arguments of the thread, and the outcomes of its calls. Where there is a choice of errors,
`false` stands for any of them. -/
structure Env where
  args : ThreadArg
  stack : Stack
  /-- `Pthread_detach`. -/
  detach : Bool
  /-- Reading from the client, writing to it, and closing the connection. -/
  conn : Fd
  connWrites : ℕ → Option ℕ
  closeConn : Bool
  /-- The calls of `open_clientfd_ts`; the first two concern `ts_lock`. -/
  lockTs : Bool
  unlockTs : Bool
  socket : ℤ
  gethostbyname : Bool
  connect : Bool
  /-- Reading from the origin server, writing to it, and closing the connection. -/
  origin : Fd
  originWrites : ℕ → Option ℕ
  closeClient : Bool
  /-- The calls that concern `log_lock`, the time, and those that concern the log file. -/
  lockLog : Bool
  unlockLog : Bool
  timeStr : List UInt8
  fopen : Bool
  fwrite : Bool
  fclose : Bool

/-- What `doit` has done when it returns. -/
structure Done where
  /-- The bytes that the client has got. -/
  toClient : List UInt8
  /-- The host and the port that it has asked for. -/
  target : Option (List UInt8 × ℤ)
  /-- The bytes that the origin server has got. -/
  toOrigin : List UInt8
  /-- The descriptors that it has closed. -/
  closed : List ℤ
  /-- The entry that it has written to the log. -/
  logged : Option (List UInt8)
  deriving DecidableEq

/-! ## `doit` -/

/-- `Rio_readlineb`. -/
def rioReadlinebExit (rp : Rio) (buf : CBuf maxline) : Except Stop (Rio × CBuf maxline) :=
  match rioReadlineb rp maxline with
  | none => .error (.exit "Rio_readlineb error")
  | some (_, bytes, rp) => .ok (rp, buf.put bytes)

/-- `"\r\n"`. -/
abbrev crlf : List UInt8 := [13, 10]

/-- `while(strcmp(buf, "\r\n"))`: read a line and append it to the message. -/
def headerLoop : ℕ → Rio → CBuf maxline → CBuf maxbuf → Except Stop (CBuf maxbuf)
  | 0, _, _, _ => .error .fuel
  | fuel + 1, rio, buf, clientMessage =>
    if buf.isString crlf then .ok clientMessage
    else do
      let (rio, buf) ← rioReadlinebExit rio buf
      let message ← defined clientMessage.string
      let line ← defined buf.string
      let clientMessage ← defined (clientMessage.puts (message ++ line))
      headerLoop fuel rio buf clientMessage

/-- `sprintf(client_message, "%s %s %s\r\n", method, pathname, version)`. -/
def firstMessage (clientMessage : CBuf maxbuf) (method pathname version : CBuf maxline) :
    Option (CBuf maxbuf) := do
  clientMessage.puts
    ((← method.string) ++ [32] ++ (← pathname.string) ++ [32] ++ (← version.string) ++ crlf)

/-- A request for an origin server. -/
structure Request where
  hostname : List UInt8
  port : ℤ
  uri : CBuf maxline
  pathname : CBuf maxline
  clientMessage : CBuf maxbuf

/-- Read the request line and the headers. Other methods than GET are turned down: `none`. -/
def readRequest (fuel : ℕ) (e : Env) : Except Stop (Option Request) := do
  let (rio, buf) ← rioReadlinebExit (rioReadinitb e.conn) e.stack.buf
  let r ← defined (sscanfRequest buf e.stack.requestLine)
  if r.method.isStringNoCase (cbytes "get") = false then .ok none
  else do
    let p ← defined (parseUri r.uri e.stack.pathname e.stack.port)
    let clientMessage ← defined (firstMessage e.stack.clientMessage r.method p.pathname r.version)
    let clientMessage ← headerLoop fuel rio buf clientMessage
    .ok (some ⟨p.hostname, p.port, r.uri, p.pathname, clientMessage⟩)

/-- The answer to another method than GET. The connection is not closed. -/
def notImplemented (e : Env) : Done where
  toClient :=
    (rioWritenW
      (rioWritenW (rioWritenW ⟨[], e.connWrites⟩ (cbytes "HTTP/1.1 501 Not Implemented\r\n"))
        (cbytes "That method has not been implemented yet, sorry!\r\n"))
      (cbytes "\r\n")).out
  target := none
  toOrigin := []
  closed := []
  logged := none

/-- `Open_clientfd_ts`, with the calls of `open_clientfd_ts`: a descriptor, -1 or -2. -/
def openClientfd (e : Env) : Except Stop ℤ :=
  if e.socket < 0 then .ok (-1)
  else do
    check e.lockTs "Pthread_mutex_lock error"
    if e.gethostbyname = false then .ok (-2)
    else do
      check e.unlockTs "Pthread_mutex_unlock error"
      .ok (if e.connect then e.socket else -1)

/-- `Close`. A negative descriptor cannot be closed. -/
def closeExit (fd : ℤ) (ok : Bool) : Except Stop Unit := check (0 ≤ fd && ok) "Close error"

/-- The decimal digits of a number. -/
def decimal (n : ℤ) : List UInt8 :=
  (if n < 0 then [45] else []) ++ ofChars (Nat.toDigits 10 n.natAbs)

/-- `ntohl` on a machine that is little-endian. -/
def ntohl (w : BitVec 32) : BitVec 32 :=
  w.setWidth 8 ++ (w >>> 8).setWidth 8 ++ (w >>> 16).setWidth 8 ++ (w >>> 24).setWidth 8

/-- `format_log_entry`. -/
def formatLogEntry (logstring : CBuf maxline) (timeStr : List UInt8) (sockaddr : SockaddrIn)
    (uri : CBuf maxline) (size : ℤ) : Option (CBuf maxline) := do
  let host := ntohl sockaddr.sinAddr
  let byte := fun k : ℕ => decimal ((host >>> k).setWidth 8).toNat
  logstring.puts (timeStr ++ cbytes ": " ++ byte 24 ++ cbytes "." ++ byte 16 ++ cbytes "." ++
    byte 8 ++ cbytes "." ++ byte 0 ++ cbytes " " ++ (← uri.string) ++ cbytes " " ++ decimal size ++
    cbytes "\n")

/-- Write the entry to the log, under `log_lock`. -/
def writeLog (e : Env) (uri : CBuf maxline) (size : ℕ) : Except Stop (CBuf maxline) := do
  check e.lockLog "Pthread_mutex_lock error"
  let logstring ← defined
    (formatLogEntry e.stack.logstring e.timeStr e.args.clientaddr uri (loggedSize size))
  check e.fopen "Fopen error"
  check e.fwrite "Fwrite error"
  check e.fclose "Fclose error"
  check e.unlockLog "Pthread_mutex_unlock error"
  .ok logstring

/-- Relay the response. Every round reads a byte, so this fuel is enough. -/
def relayResponse (e : Env) (clientfd : ℤ) (pathname : List Char) : Except Stop (ℕ × Sock) :=
  let origin := if clientfd < 0 then Fd.bad else e.origin
  match relayWith rioWritenW (origin.pending.length + 1) pathname origin e.stack.clientBuf.bytes
    ⟨[], e.connWrites⟩ with
  | none => .error .fuel
  | some r => .ok r

/-- Send the request to the origin server, relay the response, and log it. -/
def forward (e : Env) (r : Request) : Except Stop Done := do
  let clientfd ← openClientfd e
  let message ← defined r.clientMessage.string
  let origin := rioWritenW (if clientfd < 0 then Sock.bad else ⟨[], e.originWrites⟩) message
  let pathname ← defined r.pathname.string
  let (size, conn) ← relayResponse e clientfd (chars pathname)
  closeExit clientfd e.closeClient
  closeExit e.args.connfd e.closeConn
  let logstring ← writeLog e r.uri size
  .ok {
    toClient := conn.out
    target := some (r.hostname, r.port)
    toOrigin := origin.out
    closed := [clientfd, e.args.connfd]
    logged := logstring.string }

/-- `doit`. -/
def doit (fuel : ℕ) (e : Env) : Except Stop Done := do
  check e.detach "Pthread_detach error"
  match ← readRequest fuel e with
  | none => .ok (notImplemented e)
  | some r => forward e r

end SystemsLabs.Proxylab
