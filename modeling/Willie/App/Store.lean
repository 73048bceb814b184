import Willie.Daemon.Stream

/-!
# The app — its store of the daemon's truth

The one place the app holds projects, jobs and sessions. While somebody holds
the store it has fetched a snapshot and listens to the daemon's events; an
event that extends the snapshot is folded into it, any other starts another
fetch. A fetch and the subscription are promises: each callback is one step,
and they come in any order, with the daemon's own changes in between.
-/

namespace Willie
namespace App

open Daemon (Snapshot Event Mutation)
open Projects (ProjectId)

/-- What is wrong, as the screens render it. -/
structure Problem where
  code : String
  message : String
  remediation : String
  deriving DecidableEq, Repr

inductive Status where
  | idle
  | loading
  | ready
  | failed
  deriving DecidableEq, Repr

structure StoreState where
  status : Status
  /-- The last snapshot that arrived, with the events folded into it. -/
  snapshot : Option Snapshot
  problem : Option Problem
  deriving DecidableEq, Repr

structure Store where
  state : StoreState
  holders : ℤ
  /-- Bumped on every first acquire and last release. -/
  generation : ℕ
  /-- The subscription `unlisten` ends, by its generation. -/
  unlisten : Option ℕ
  /-- Why the subscription of this generation failed. -/
  subscriptionProblem : Option Problem

def Store.set (s : Store) (state : StoreState) : Store := { s with state }

/-- A rejection keeps the snapshot that is held. -/
def Store.fail (s : Store) (problem : Problem) : Store :=
  s.set ⟨.failed, s.state.snapshot, some problem⟩

/-- `load`, when the fetch resolves. A dead subscription outlives it. -/
def Store.resolved (s : Store) (gen : ℕ) (snapshot : Snapshot) : Store :=
  if gen ≠ s.generation then s
  else match s.subscriptionProblem with
    | some problem => s.set ⟨.failed, some snapshot, some problem⟩
    | none => s.set ⟨.ready, some snapshot, none⟩

/-- `load`, when the fetch rejects. -/
def Store.rejected (s : Store) (gen : ℕ) (problem : Problem) : Store :=
  if gen = s.generation then s.fail problem else s

/-- A fetch in flight: still to be served, or on its way with its reply. -/
structure Fetch where
  gen : ℕ
  reply : Option Snapshot
  deriving DecidableEq, Repr

/-- A call of `onEvent`, with the events on their way to its callback. -/
structure Subscription where
  gen : ℕ
  /-- The daemon's events are forwarded to it. -/
  live : Bool
  /-- Its promise has resolved or rejected. -/
  settled : Bool
  /-- It is unlistened, or was never to be. -/
  ended : Bool
  queue : List Event
  deriving DecidableEq, Repr

def Subscription.listens (sub : Subscription) : Bool := sub.live && !sub.ended

/-- An event of the daemon's is on its way to whoever listens. -/
def Subscription.hear (ev : Event) (sub : Subscription) : Subscription :=
  if sub.listens then { sub with queue := sub.queue ++ [ev] } else sub

/-- The store, what it has asked for, and the daemon. -/
structure World where
  store : Store
  /-- The releases `acquire` has returned: was it called? -/
  handles : List Bool
  fetches : List Fetch
  subs : List Subscription
  daemon : Daemon.World

/-- A store nobody holds yet, beside a daemon. -/
def World.new (daemon : Daemon.World) : World where
  store := ⟨⟨.idle, none, none⟩, 0, 0, none, none⟩
  handles := []
  fetches := []
  subs := []
  daemon := daemon

/-- The subscription made in a generation. -/
def World.sub? (w : World) (gen : ℕ) : Option Subscription := w.subs.find? (·.gen = gen)

def World.onSub (w : World) (gen : ℕ) (f : Subscription → Subscription) : World :=
  { w with subs := w.subs.map fun sub => if sub.gen = gen then f sub else sub }

/-- Calls an `unlisten`. -/
def World.end_ (w : World) (gen : ℕ) : World := w.onSub gen fun sub => { sub with ended := true }

/-- `load`: another fetch is in flight. -/
def World.load (w : World) (gen : ℕ) : World := { w with fetches := w.fetches ++ [⟨gen, none⟩] }

/-- `handle`: an event that extends the snapshot is folded into it. -/
def World.handle (w : World) (ev : Event) (gen : ℕ) : World :=
  if gen ≠ w.store.generation then w
  else match w.store.state.status, w.store.state.snapshot with
    | .ready, some current =>
      if current.needsResnapshot ev then w.load gen
      else { w with store := w.store.set ⟨.ready, some (current.applyEvent ev), none⟩ }
    | _, _ => w.load gen

/-- `acquire`: the first holder fetches and subscribes. -/
def World.acquire (w : World) : World :=
  let w := { w with
    store := { w.store with holders := w.store.holders + 1 }
    handles := w.handles ++ [false] }
  if w.store.holders = 1 then
    let gen := w.store.generation + 1
    let w := { w with
      store := { w.store with
        generation := gen
        subscriptionProblem := none
        state := { w.store.state with status := .loading } } }.load gen
    { w with subs := w.subs ++ [⟨gen, false, false, false, []⟩] }
  else w

/-- The last release tears everything down. -/
def World.teardown (w : World) : World :=
  let w := match w.store.unlisten with
    | some gen => w.end_ gen
    | none => w
  { w with
    store := { w.store with
      generation := w.store.generation + 1
      subscriptionProblem := none
      unlisten := none
      state := ⟨.idle, none, none⟩ } }

/-- What `acquire` returned is called. -/
def World.release (w : World) (i : ℕ) : World :=
  match w.handles[i]? with
  | some false =>
    let w := { w with
      handles := w.handles.set i true
      store := { w.store with holders := w.store.holders - 1 } }
    if w.store.holders = 0 then w.teardown else w
  | _ => w

/-- `onEvent` resolves: its `unlisten` is kept, or called at once where the
generation is over. -/
def World.listening (w : World) (gen : ℕ) : World :=
  let w := w.onSub gen fun sub => { sub with settled := true }
  if gen = w.store.generation then { w with store := { w.store with unlisten := some gen } }
  else w.end_ gen

/-- `onEvent` rejects. -/
def World.refused (w : World) (gen : ℕ) (problem : Problem) : World :=
  let w := w.onSub gen fun sub => { sub with settled := true, ended := true }
  if gen ≠ w.store.generation then w
  else { w with store := { w.store with subscriptionProblem := some problem }.fail problem }

inductive Action where
  | acquire
  | release (i : ℕ)
  /-- The daemon answers a fetch, with the flags it works out for it. -/
  | serve (k : ℕ) (flags : List (ProjectId × String × Bool))
  | resolve (k : ℕ)
  | reject (k : ℕ) (problem : Problem)
  /-- From here on a subscription is sent the daemon's events. -/
  | goLive (gen : ℕ)
  | listening (gen : ℕ)
  | refused (gen : ℕ) (problem : Problem)
  /-- The next event on its way to a subscription arrives. -/
  | deliver (gen : ℕ)
  /-- The daemon changes something, and tells. -/
  | emit (m : Mutation)

/-- **One step of the app and its daemon.** -/
def World.step (w : World) : Action → Option World
  | .acquire => some w.acquire
  | .release i => some (w.release i)
  | .serve k flags => do
    let fetch ← w.fetches[k]?
    let daemon ← w.daemon.step (.applyPresence flags)
    match fetch.reply with
    | some _ => none
    | none => return { w with
        daemon, fetches := w.fetches.set k { fetch with reply := some daemon.snapshot } }
  | .resolve k => do
    let fetch ← w.fetches[k]?
    let snapshot ← fetch.reply
    return { w with store := w.store.resolved fetch.gen snapshot, fetches := w.fetches.eraseIdx k }
  | .reject k problem => do
    let fetch ← w.fetches[k]?
    return { w with store := w.store.rejected fetch.gen problem, fetches := w.fetches.eraseIdx k }
  | .goLive gen => do
    let sub ← w.sub? gen
    if sub.live || sub.ended then none else return w.onSub gen fun sub => { sub with live := true }
  | .listening gen => do
    let sub ← w.sub? gen
    if sub.settled then none else return w.listening gen
  | .refused gen problem => do
    let sub ← w.sub? gen
    if sub.settled || sub.live then none else return w.refused gen problem
  | .deliver gen => do
    let sub ← w.sub? gen
    match sub.queue with
    | [] => none
    | ev :: queue => return (w.onSub gen fun sub => { sub with queue }).handle ev gen
  | .emit m => do
    let daemon ← w.daemon.step (.emit m)
    return { w with daemon, subs := w.subs.map (Subscription.hear (m.apply w.daemon.state).2) }

end App
end Willie
