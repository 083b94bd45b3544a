import SpaceSec.SecurityReport
import SpaceSec.Library.Http
import SpaceSec.Library.OutputStream

namespace SpaceSec

namespace DashboardClient

/-- The cap, in microseconds, on the wait for a connection, for a send and for each `recv`. -/
def timeoutUs : ℕ := 300000

def hexSession (id : UInt32) : List Char :=
  (((({} : OutputStream).uppercase.hex.setw 4).setfill '0').putNat (id &&& 0xFFFF).toNat).text

def eventBody (event : SecurityEvent) : List Char :=
  (({} : OutputStream)
    |>.putString "\x7b"
    |>.putString "\"type\":\"" |>.putString event.type |>.putString "\","
    |>.putString "\"reason\":\"" |>.putString event.reason |>.putString "\","
    |>.putString "\"session_id\":\"" |>.put (hexSession event.sessionId) |>.putString "\","
    |>.putString "\"latency_ms\":" |>.putInt64 event.latencyMs |>.putString ","
    |>.putString "\"severity\":\"" |>.putString event.severity |>.putString "\""
    |>.putString "\x7d").text

def eventRequest (host : String) (port : Int32) (event : SecurityEvent) : List Char :=
  let json := eventBody event
  (({} : OutputStream)
    |>.putString "POST /api/event HTTP/1.1\r\n"
    |>.putString "Host: " |>.putString host |>.putString ":" |>.putInt64 port.toInt64
    |>.putString "\r\n"
    |>.putString "Content-Type: application/json\r\n"
    |>.putString "Content-Length: " |>.putNat json.length |>.putString "\r\n"
    |>.putString "Connection: close\r\n"
    |>.putString "\r\n"
    |>.put json).text

inductive SelectOutcome
  | timeout
  | ready (soError : ℤ) (delayUs : ℕ) (hdelay : delayUs ≤ timeoutUs)

/-- A `connect` on a non-blocking socket: at once, under way, or not at all. -/
inductive ConnectOutcome
  | connected
  | inProgress (select : SelectOutcome)
  | failed

/-- What `send` may answer: how many bytes it took, an error, or `EPIPE`, as on a connection that
the peer has closed and reset. -/
inductive SendOutcome
  | taken (bytes : ℕ) (delayUs : ℕ) (hdelay : delayUs ≤ timeoutUs)
  | error (delayUs : ℕ) (hdelay : delayUs ≤ timeoutUs)
  | brokenPipe (delayUs : ℕ) (hdelay : delayUs ≤ timeoutUs)

namespace SendOutcome

def bytes : SendOutcome → ℕ
  | taken bytes _ _ => bytes
  | error _ _ | brokenPipe _ _ => 0

def delayUs : SendOutcome → ℕ
  | taken _ delayUs _ | error delayUs _ | brokenPipe delayUs _ => delayUs

def raisesSigpipe : SendOutcome → Bool
  | brokenPipe _ _ => true
  | taken _ _ _ | error _ _ => false

theorem delayUs_le (send : SendOutcome) : send.delayUs ≤ timeoutUs := by
  cases send with
  | taken _ _ hdelay | error _ hdelay | brokenPipe _ hdelay => exact hdelay

end SendOutcome

/-- What one `recv` into the buffer of 256 bytes may answer: an error, which includes its timeout,
the end of the stream, or data. -/
inductive RecvOutcome
  | error
  | endOfStream (delayUs : ℕ) (hdelay : delayUs < timeoutUs)
  | data (bytes : Bytes) (hbytes : 0 < bytes.length ∧ bytes.length ≤ 256) (delayUs : ℕ)
    (hdelay : delayUs < timeoutUs)

namespace RecvOutcome

def result : RecvOutcome → ℤ
  | error => -1
  | endOfStream _ _ => 0
  | data bytes _ _ _ => bytes.length

def delayUs : RecvOutcome → ℕ
  | error => timeoutUs
  | endOfStream delayUs _ => delayUs
  | data _ _ delayUs _ => delayUs

end RecvOutcome

/-- Everything that the system and the peer may answer to one report. -/
structure Peer where
  socketOpens : Bool
  hostParses : Bool
  connect : ConnectOutcome
  send : SendOutcome
  recv : ℕ → RecvOutcome

def ConnectOutcome.wait : ConnectOutcome → Bool × ℕ
  | connected => (true, 0)
  | inProgress .timeout => (false, timeoutUs)
  | inProgress (.ready soError delayUs _) => (soError = 0, delayUs)
  | failed => (false, 0)

/-- The drain loop from its `i`-th `recv` on: how many of them are made, and how long they take. -/
def drain (recv : ℕ → RecvOutcome) : ℕ → ℕ → ℕ → Option (ℕ × ℕ)
  | 0, _, _ => none
  | fuel + 1, i, waitedUs =>
    let waitedUs := waitedUs + (recv i).delayUs
    if 0 < (recv i).result then drain recv fuel (i + 1) waitedUs else some (i + 1, waitedUs)

/-- What a report that returns has sent, and what it has cost. -/
structure Posted where
  sent : Bytes := []
  recvCalls : ℕ := 0
  waitedUs : ℕ := 0

/-- A report returns, or a `SIGPIPE` ends the process in it. -/
inductive PostOutcome
  | returned (posted : Posted)
  | killed

/-- `post_security_event`; the `fuel` bounds the turns of its drain loop. -/
def postSecurityEvent (host : String) (port : Int32) (event : SecurityEvent) (peer : Peer)
    (fuel : ℕ) : Option PostOutcome :=
  let request := Http.encodeUtf8 (eventRequest host port event)
  if !peer.socketOpens then some (.returned {}) else
  if !peer.hostParses then some (.returned {}) else
  let (connected, connectUs) := peer.connect.wait
  if !connected then some (.returned { waitedUs := connectUs }) else
  -- the flags are 0, not `MSG_NOSIGNAL`, and nothing handles the signal
  if peer.send.raisesSigpipe then some .killed else
  (drain peer.recv fuel 0 (connectUs + peer.send.delayUs)).map fun (recvCalls, waitedUs) ↦
    .returned { sent := request.take peer.send.bytes, recvCalls, waitedUs }

end DashboardClient

end SpaceSec
