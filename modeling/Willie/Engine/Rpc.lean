import Willie.Common.Json
import Willie.Common.Runs
import Willie.Sessions.Model

/-!
# The engine — its JSON-RPC client

One caller and one reader share the table of calls waiting for a response.
A call takes an id, registers a channel under it, writes its request and
waits on the channel, with three ways out: a response, a timeout, or the
last sender of the channel gone. The reader takes the entry of a response's
id out of the table, then sends; when the peer's stream ends it closes the
table and drops every entry. A step is what happens under one lock, or
between two of them, and the two threads make theirs in any order.
-/

namespace Willie
namespace Engine

open Json (Value)
open Sessions (trim)

/-! ## Envelopes -/

/-- Error payload of a failed response. -/
structure RpcError where
  code : String
  message : String
  remediation : Option String

structure Response where
  jsonrpc : String
  id : ℕ
  result : Option Value
  error : Option RpcError

/-- The envelope as a plain result: an error wins, no result is null. -/
def Response.intoResult (r : Response) : Except RpcError Value :=
  match r.result, r.error with
  | _, some e => .error e
  | some v, none => .ok v
  | none, none => .ok .null

structure Notification where
  jsonrpc : String
  method : String
  params : Value

/-- What a line parses as. The JSON parser is the one the client is built
with; a line is read as a response first, then as a notification. -/
structure Wire where
  response : String → Option Response
  notification : String → Option Notification

/-- The notification a line is, if it is no response. -/
def Wire.notice? (wire : Wire) (line : String) : Option Notification :=
  match wire.response line with
  | some _ => none
  | none => wire.notification line

inductive EngineError where
  | rpc (e : RpcError)
  | timeout (method : String)
  | protocol (message : String)

/-- The one message for a peer whose stream is at its end. -/
def closedStdout : String := "daemon closed its stdout"

/-! ## Calls -/

/-- What a caller asks for: a method, the line its request is serialised to,
and the reading of the result. -/
structure Request where
  method : String
  line : Except String String
  decode : Value → Except String Value

/-- Channels are numbered as they are made. -/
abbrev Chan := ℕ

/-- Where a call is; from its registration on, with what its channel holds. -/
inductive Stage where
  | entered
  /-- Serialised, with a channel of its own. -/
  | opened (chan : Chan)
  | registered (chan : Chan) (queue : List Response)
  | waiting (chan : Chan) (queue : List Response)
  /-- The deadline passed; the entry is not removed yet. -/
  | timedOut

structure Call where
  id : ℕ
  request : Request
  stage : Stage

/-- How a call comes back. -/
inductive Exit where
  | unserialisable (e : String)
  /-- The client's own half is closed. -/
  | inputClosed
  /-- The table was closed when the call came to register. -/
  | closed
  | replied (r : Response)
  | timedOut
  | disconnected

/-- A call that has returned. -/
structure Returned where
  id : ℕ
  request : Request
  exit : Exit

/-- What the caller gets. -/
def Returned.result (d : Returned) : Except EngineError Value :=
  match d.exit with
  | .unserialisable e => .error (.protocol e)
  | .inputClosed | .closed | .disconnected => .error (.protocol closedStdout)
  | .timedOut => .error (.timeout d.request.method)
  | .replied r =>
    match r.intoResult with
    | .error e => .error (.rpc e)
    | .ok v => (d.request.decode v).mapError fun e =>
        .protocol ("bad `" ++ d.request.method ++ "` result: " ++ e)

/-! ## The two threads -/

/-- The calls waiting for a response, and whether the stream has ended. -/
structure Inbox where
  waiters : List (ℕ × Chan)
  closed : Bool

def Inbox.insert (inbox : Inbox) (id : ℕ) (chan : Chan) : Inbox :=
  { inbox with waiters := (id, chan) :: inbox.waiters.filter (·.1 ≠ id) }

def Inbox.remove (inbox : Inbox) (id : ℕ) : Inbox :=
  { inbox with waiters := inbox.waiters.filter (·.1 ≠ id) }

/-- The reader thread. -/
inductive Reader where
  /-- Its spawn failed: there is no router. -/
  | absent
  | reading
  /-- Between taking a waiter out and sending to it. -/
  | holding (chan : Chan) (r : Response)
  | ended

/-- The receiving end of a subscription, while it is kept, with what was sent
to it and how many notifications the reader had seen before it. -/
structure Receiver where
  kept : Bool
  since : ℕ
  received : List Notification

/-- Sends a notification; a receiver that is gone takes nothing. -/
def Receiver.offer (n : Notification) (rc : Receiver) : Receiver :=
  if rc.kept then { rc with received := rc.received ++ [n] } else rc

/-- How many lines that are no envelope are kept. -/
def strayLines : ℕ := 8

structure RpcClient where
  /-- The write half is open. -/
  input : Bool
  nextId : ℕ
  inbox : Inbox
  stray : List String
  /-- The subscriptions the reader still sends to, by number. -/
  subscribers : List ℕ

/-- The client, the call it is in, the reader and the receivers. What has
been returned and the notifications seen are kept in order. -/
structure World extends RpcClient where
  calling : Option Call
  reader : Reader
  nextChan : Chan
  receivers : List Receiver
  returned : List Returned
  noted : List Notification

/-- `RpcClient::new`; the thread's spawn may fail. -/
def World.new (spawned : Bool) : World where
  input := true
  nextId := 1
  inbox := ⟨[], false⟩
  stray := []
  subscribers := []
  calling := none
  reader := if spawned then .reading else .absent
  nextChan := 0
  receivers := []
  returned := []
  noted := []

/-- The channel has a sender, in the table or in the reader's hand. -/
def World.connected (w : World) (chan : Chan) : Bool :=
  w.inbox.waiters.any (·.2 = chan) ||
    match w.reader with
    | .holding chan' _ => chan' = chan
    | _ => false

/-- The call goes on to a stage. -/
def World.moveTo (w : World) (c : Call) (stage : Stage) : World :=
  { w with calling := some { c with stage } }

/-- The call returns. -/
def World.finish (w : World) (c : Call) (exit : Exit) : World :=
  { w with calling := none, returned := w.returned ++ [⟨c.id, c.request, exit⟩] }

/-- What the calling thread does next. -/
inductive Turn where
  /-- Serialises the request and looks at the write half. -/
  | prepare
  | register
  | send
  | receive
  | timeout
  | disconnect
  | giveUp

/-- **One step of the call.** Whether the write of the request succeeds is
ignored: the verdict is the reader's. -/
def World.turn (w : World) (c : Call) (t : Turn) : Option World :=
  match c.stage, t with
  | .entered, .prepare =>
    some (match c.request.line with
      | .error e => w.finish c (.unserialisable e)
      | .ok _ =>
        if w.input then { w with nextChan := w.nextChan + 1 }.moveTo c (.opened w.nextChan)
        else w.finish c .inputClosed)
  | .opened chan, .register =>
    -- the check and the insertion are under one lock
    some (if w.inbox.closed then w.finish c .closed
      else { w with inbox := w.inbox.insert c.id chan }.moveTo c (.registered chan []))
  | .registered chan queue, .send => some (w.moveTo c (.waiting chan queue))
  | .waiting _ (r :: _), .receive => some (w.finish c (.replied r))
  | .waiting _ _, .timeout => some (w.moveTo c .timedOut)
  | .waiting chan [], .disconnect =>
    if w.connected chan then none else some (w.finish c .disconnected)
  | .timedOut, .giveUp => some ({ w with inbox := w.inbox.remove c.id }.finish c .timedOut)
  | _, _ => none

/-- The response arrives in a channel; a sender whose receiver is gone sends
to nobody. -/
def Stage.push (chan : Chan) (r : Response) : Stage → Stage
  | .registered chan' queue => .registered chan' (if chan' = chan then queue ++ [r] else queue)
  | .waiting chan' queue => .waiting chan' (if chan' = chan then queue ++ [r] else queue)
  | s => s

def World.deliver (w : World) (chan : Chan) (r : Response) : World :=
  { w with
    calling := w.calling.map fun c => { c with stage := c.stage.push chan r }
    reader := .reading }

/-- Sends a notification to every subscriber and forgets those that are gone. -/
def World.fanOut (w : World) (n : Notification) : World :=
  { w with
    receivers := w.subscribers.foldl (fun rcs i => rcs.modify i (·.offer n)) w.receivers
    subscribers := w.subscribers.filter fun i => w.receivers[i]?.any Receiver.kept
    noted := w.noted ++ [n] }

/-- Keeps a line that is no envelope, among the last eight. -/
def rememberStray (stray : List String) (line : String) : List String :=
  let text := trim line.toList
  if text.isEmpty then stray
  else (if stray.length = strayLines then stray.tail else stray) ++ [String.ofList text]

/-- The reader routes a line. -/
def World.route (w : World) (wire : Wire) (line : String) : World :=
  match wire.response line with
  | some r =>
    match w.inbox.waiters.lookup r.id with
    | some chan => { w with inbox := w.inbox.remove r.id, reader := .holding chan r }
    -- a call already gave up on it
    | none => w
  | none =>
    match wire.notification line with
    | some n => w.fanOut n
    | none => { w with stray := rememberStray w.stray line }

inductive Action where
  | call (request : Request)
  | turn (t : Turn)
  | line (text : String)
  | deliver
  /-- The peer's stream is at its end. -/
  | eof
  | subscribe
  /-- The subscription's receiver is dropped. -/
  | unsubscribe (i : ℕ)
  | close

/-- **A step of the client.** A call has the client to itself, so one starts,
and the write half is closed, only between two calls. -/
def World.step (wire : Wire) (w : World) : Action → Option World
  | .call request =>
    match w.calling with
    | some _ => none
    | none => some { w with nextId := w.nextId + 1, calling := some ⟨w.nextId, request, .entered⟩ }
  | .turn t => w.calling.bind fun c => w.turn c t
  | .line text =>
    match w.reader with
    | .reading => some (w.route wire text)
    | _ => none
  | .deliver =>
    match w.reader with
    | .holding chan r => some (w.deliver chan r)
    | _ => none
  | .eof =>
    match w.reader with
    | .reading => some { w with inbox := ⟨[], true⟩, reader := .ended }
    | _ => none
  | .subscribe =>
    some { w with
      subscribers := w.subscribers ++ [w.receivers.length]
      receivers := w.receivers ++ [⟨true, w.noted.length, []⟩] }
  | .unsubscribe i =>
    some { w with receivers := w.receivers.modify i fun rc => { rc with kept := false } }
  | .close =>
    match w.calling with
    | some _ => none
    | none => some { w with input := false }

end Engine
end Willie
