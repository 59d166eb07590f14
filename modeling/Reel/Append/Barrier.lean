import Reel.Library.Runs

/-!
The barrier that makes a batch's index moves land together for reads over several keys, with its
clients cut where each takes a lock, reads a count or runs moves.
-/

set_option autoImplicit false

namespace Reel

inductive Want where
  | shared
  | exclusive
  deriving DecidableEq, Repr

/-- One caller waiting its turn, by the place it took in arrival order. -/
structure Waiter where
  place : Nat
  want : Want
  deriving DecidableEq, Repr

def optimisticFills : Nat := 1

inductive BarrierOp where
  | reading
  | readingAll
  | publishing
  | publishGrouped
  deriving DecidableEq, Repr

inductive Task where
  | reading
  | readingAll
  | publishing
  | lead (group : Nat)
  deriving DecidableEq, Repr

def Task.want : Task → Want
  | .reading | .readingAll => .shared
  | .publishing | .lead _ => .exclusive

/-- Whose hold of the barrier a batch's moves run under: its own, its own as a group's leader, or its
group's leader's. -/
inductive Role where
  | alone
  | leader (group : Nat)
  | joiner (group : Nat)
  deriving DecidableEq, Repr

def Role.group : Role → Option Nat
  | .alone => none
  | .leader group | .joiner group => some group

/-- Where a client stands. A fill carries whether no batch's moves have run beside it, which no step
reads, and a whole-set read ends with what its last fill carried. -/
inductive ClientStage where
  | call
  | enter (task : Task)
  | waiting (place : Nat) (task : Task)
  | reading
  | fillingHeld (clean : Bool)
  | filled (clean : Bool)
  | entered (group : Option Nat)
  | holding (group : Option Nat)
  | opened (group : Nat)
  | moving (role : Role)
  | moved (role : Role)
  | closing (group : Nat)
  | finishing
  | leaving
  | found (group : Nat)
  | joined (group : Nat)
  | probe (fills : Nat)
  | probed (fills started : Nat)
  | filling (fills quiet : Nat) (clean : Bool)
  | checking (fills quiet : Nat) (clean : Bool)
  | done (clean : Option Bool)
  deriving DecidableEq, Repr

/-- A client, and how often its moves have been run, which no step reads. -/
structure Client where
  op : BarrierOp
  stage : ClientStage
  ran : Nat
  deriving DecidableEq, Repr

namespace Client

def isMoving (client : Client) : Bool :=
  match client.stage with
  | .moving _ => true
  | _ => false

def isReading (client : Client) : Bool :=
  match client.stage with
  | .reading | .fillingHeld _ | .filled _ => true
  | _ => false

def disturb (client : Client) : Client :=
  match client.stage with
  | .fillingHeld _ => { client with stage := .fillingHeld false }
  | .filling fills quiet _ => { client with stage := .filling fills quiet false }
  | _ => client

end Client

/-- The barrier and its clients. The gate is the lock of the gathering group, which a batch that joins
keeps while it counts itself in, and a group is its flag and its count of joiners. -/
structure Barrier where
  readers : Nat
  isPublishing : Bool
  waiting : List Waiter
  nextPlace : Nat
  started : Nat
  finished : Nat
  gathering : Option Nat
  gate : Bool
  opened : Nat → Bool
  joined : Nat → Nat
  nextGroup : Nat
  clients : List Client

namespace Barrier

def new : Barrier := ⟨0, false, [], 0, 0, 0, none, false, fun _ => false, fun _ => 0, 0, []⟩

variable (s : Barrier)

def mayEnter (place : Nat) : Bool :=
  match s.waiting.head? with
  | some front => front.place = place && match front.want with
    | .shared => !s.isPublishing
    | .exclusive => !s.isPublishing && s.readers = 0
  | none => false

def setClient (i : Nat) (client : Client) : Barrier :=
  { s with clients := s.clients.set i client }

def go (i : Nat) (client : Client) (stage : ClientStage) : Barrier :=
  s.setClient i { client with stage }

def isQuiet : Bool := !s.clients.any Client.isMoving

def beginMoves (i : Nat) (client : Client) (role : Role) : Barrier :=
  let begun : Client := { client with stage := .moving role, ran := client.ran + 1 }
  { s with clients := (s.clients.set i begun).map Client.disturb }

/-- A batch asks for the gathering group: it joins the one there is, or leads a new one. -/
def ask (i : Nat) (client : Client) : Option Barrier :=
  if s.gate then none
  else match s.gathering with
    | some group => some ({ s with gate := true }.go i client (.found group))
    | none =>
      some ({ s with gathering := some s.nextGroup, nextGroup := s.nextGroup + 1 }.go i client
        (.enter (.lead s.nextGroup)))

def goIn (i : Nat) (client : Client) (task : Task) : Barrier :=
  let s := { s with waiting := s.waiting.tail }
  match task with
  | .reading => { s with readers := s.readers + 1 }.go i client .reading
  | .readingAll => { s with readers := s.readers + 1 }.go i client (.fillingHeld s.isQuiet)
  | .publishing => { s with isPublishing := true }.go i client (.entered none)
  | .lead group => { s with isPublishing := true }.go i client (.entered (some group))

def endMoves (i : Nat) (client : Client) : Role → Option Barrier
  | .alone => some (s.go i client .finishing)
  | .leader group =>
    if s.gate then none else some ({ s with gathering := none }.go i client (.closing group))
  | .joiner group =>
    some ({ s with joined := Function.update s.joined group (s.joined group - 1) }.go i client (.done none))

def advance (i : Nat) (client : Client) : Option Barrier :=
  match client.stage with
  | .call =>
    match client.op with
    | .reading => some (s.go i client (.enter .reading))
    | .readingAll => some (s.go i client (.probe optimisticFills))
    | .publishing => some (s.go i client (.enter .publishing))
    | .publishGrouped => s.ask i client
  | .enter task =>
    let waiter : Waiter := ⟨s.nextPlace, task.want⟩
    some ({ s with waiting := s.waiting ++ [waiter], nextPlace := s.nextPlace + 1 }.go i client
      (.waiting s.nextPlace task))
  | .waiting place task => if s.mayEnter place then some (s.goIn i client task) else none
  | .reading => some ({ s with readers := s.readers - 1 }.go i client (.done none))
  | .fillingHeld clean => some (s.go i client (.filled clean))
  | .filled clean => some ({ s with readers := s.readers - 1 }.go i client (.done (some clean)))
  | .entered group => some ({ s with started := s.started + 1 }.go i client (.holding group))
  | .holding none => some (s.beginMoves i client .alone)
  | .holding (some group) =>
    some ({ s with opened := Function.update s.opened group true }.go i client (.opened group))
  | .opened group => some (s.beginMoves i client (.leader group))
  | .moving role => some (s.go i client (.moved role))
  | .moved role => s.endMoves i client role
  | .closing group => if 0 < s.joined group then none else some (s.go i client .finishing)
  -- count the batch finished before the barrier goes back
  | .finishing => some ({ s with finished := s.finished + 1 }.go i client .leaving)
  | .leaving => some ({ s with isPublishing := false }.go i client (.done none))
  | .found group =>
    some ({ s with gate := false, joined := Function.update s.joined group (s.joined group + 1) }.go i client
      (.joined group))
  | .joined group => if s.opened group then some (s.beginMoves i client (.joiner group)) else none
  | .probe 0 => some (s.go i client (.enter .readingAll))
  | .probe (fills + 1) => some (s.go i client (.probed fills s.started))
  | .probed fills started =>
    if started = s.finished then some (s.go i client (.filling fills started s.isQuiet))
    else some (s.go i client (.enter .readingAll))
  | .filling fills quiet clean => some (s.go i client (.checking fills quiet clean))
  | .checking fills quiet clean =>
    if s.started = quiet then some (s.go i client (.done (some clean)))
    else some (s.go i client (.probe fills))
  | .done _ => none

end Barrier

inductive BarrierStep where
  | call (op : BarrierOp)
  | client (i : Nat)
  deriving DecidableEq, Repr

def Barrier.step (s : Barrier) : BarrierStep → Option Barrier
  | .call op => some { s with clients := s.clients ++ [⟨op, .call, 0⟩] }
  | .client i => s.clients[i]?.bind (s.advance i)

end Reel
