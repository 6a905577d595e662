import Beirdobot.Library.System
import Mathlib.Algebra.BigOperators.Group.List.Basic
import Mathlib.Algebra.Order.Ring.Int
import Mathlib.Data.String.Basic

/-!
# Flood control of a transmit thread

A transcription of the loop of `transmit_thread` and of the flood list it keeps.
A message is its length; the clock readings of one turn of the loop are part of
the event, in the order in which the code takes them, and a sleep lasts at least
as long as it was asked to.  The settings of the server are read anew for each
message, since a reload may change them in between.
-/

namespace Beirdobot.Transmit

open Library

/-- `FloodListItem_t` -/
structure FloodListItem where
  timeWake : ℤ
  bytes : ℕ
deriving DecidableEq, Repr

/-- The settings of the server that the loop reads. -/
structure Settings where
  floodInterval : ℤ
  floodMaxTime : ℤ
  floodBuffer : ℤ

/-- `floodSize` -/
def floodSize (floodList : List FloodListItem) : ℕ :=
  floodList.foldl (fun total flood ↦ total + flood.bytes) 0

/-- The loop of `floodReady`. -/
def floodReadyLoop (time bytes : ℤ) : List FloodListItem → ℤ
  | [] => time
  | flood :: rest =>
      if bytes ≤ flood.bytes then flood.timeWake
      else floodReadyLoop flood.timeWake (bytes - flood.bytes) rest

/-- `floodReady`, called at time `now`. -/
def floodReady (now bytes : ℤ) (floodList : List FloodListItem) : ℤ :=
  floodReadyLoop now bytes floodList

/-- The loop of `floodCleanup`, with the items before `item` in reverse order, of
which the first is its `prev`. -/
def floodCleanupLoop (time : ℤ) (kept : List FloodListItem) :
    List FloodListItem → List FloodListItem
  | [] => kept.reverse
  | flood :: rest =>
      if flood.timeWake ≤ time then floodCleanupLoop time kept rest
      else floodCleanupLoop time (flood :: kept) rest

/-- `floodCleanup`, called at time `now`. -/
def floodCleanup (now : ℤ) (floodList : List FloodListItem) : List FloodListItem :=
  floodCleanupLoop now [] floodList

/-! ## The thread -/

/-- A message as it is given to `BN_SendMessage`: its length, the `floodBuffer`
then in force, and the lengths of the earlier messages that had not expired. -/
structure Handover where
  len : ℕ
  floodBuffer : ℤ
  unexpired : ℕ
deriving DecidableEq, Repr

/-- The thread between two turns of its loop.  `clock` is its last clock reading;
`sent` and `handed` record the flood items and the handovers of all messages. -/
structure State where
  running : Bool
  floodList : List FloodListItem
  sendTime : ℤ
  clock : ℤ
  sent : List FloodListItem
  handed : List Handover

/-- The lengths of the messages of a list whose flood item has not expired. -/
def unexpired (now : ℤ) (l : List FloodListItem) : ℕ :=
  ((l.filter fun flood ↦ now < flood.timeWake).map FloodListItem.bytes).sum

/-- The clock readings of one turn: after the dequeueing, in the first
`floodCleanup`, in `floodReady`, before the wait, in the second `floodCleanup`,
at the handover and after it. -/
structure Readings where
  dequeued : ℤ
  cleaned : ℤ
  ready : ℤ
  checked : ℤ
  slept : ℤ
  handed : ℤ
  stamped : ℤ

/-- `sendTime` once the message is dequeued. -/
def nextSendTime (s : State) (now : ℤ) : ℤ := if s.sendTime < now then now else s.sendTime

/-- The seconds of the first `nanosleep`. -/
def sendDelay (settings : Settings) (sendTime now : ℤ) : ℤ :=
  if settings.floodMaxTime < sendTime - now then sendTime - now - settings.floodMaxTime else 0

/-- The flood check of a message: the flood list it leaves and the time at which
it is through. -/
def floodWait (settings : Settings) (len : ℕ) (r : Readings) (floodList : List FloodListItem) :
    Option (List FloodListItem × ℤ) :=
  let floodList := floodCleanup r.cleaned floodList
  let size := floodSize floodList
  if settings.floodBuffer ≤ size + len then
    let time := floodReady r.ready (size + len + 1 - settings.floodBuffer) floodList
    if ¬ (r.cleaned ≤ r.ready ∧ r.ready ≤ r.checked) then none
    else if r.checked < time then
      if r.checked + (time - r.checked) ≤ r.slept
      then some (floodCleanup r.slept floodList, r.slept)
      else none
    else some (floodList, r.checked)
  else some (floodList, r.cleaned)

/-- `BN_SendMessage` is called at time `now`. -/
def State.hand (s : State) (settings : Settings) (len : ℕ) (now : ℤ) : State :=
  { s with
    clock := now
    handed := s.handed ++ [⟨len, settings.floodBuffer, unexpired now s.sent⟩] }

/-- One turn of the loop of `transmit_thread` with a message of length `len`;
`aborting` says that the thread has been told to stop meanwhile.  There is no
turn for clock readings that go back or cut a sleep short. -/
def transmitMessage (settings : Settings) (len : ℕ) (aborting : Bool) (r : Readings) (s : State) :
    Option State :=
  let sendTime := nextSendTime s r.dequeued
  if ¬ (s.running ∧ s.clock ≤ r.dequeued ∧
    r.dequeued + sendDelay settings sendTime r.dequeued ≤ r.cleaned ∧ r.dequeued ≤ r.cleaned)
  then none
  else
    match floodWait settings len r s.floodList with
    | none => none
    | some (floodList, through) =>
        if ¬ (through ≤ r.handed ∧ r.handed ≤ r.stamped) then none
        else if aborting then some { s with floodList, sendTime, clock := r.handed }
        else
          let s := s.hand settings len r.handed
          let floodItem :=
            { timeWake := r.stamped + settings.floodInterval + (len / 120 : ℕ), bytes := len }
          some { s with
            floodList := floodList ++ [floodItem]
            sendTime := sendTime + (settings.floodInterval + (len / 120 : ℕ))
            clock := r.stamped
            sent := s.sent ++ [floodItem] }

/-- The length of the message that `BN_MakeMessage` builds from the command
`QUIT` and the parameter of the dying gasp. -/
def quitLength : ℕ := ("QUIT" ++ " " ++ ":Received SIGINT, shutting down" ++ "\r\n").length

/-- "Sending dying gasp": the end of `transmit_thread`. -/
def dyingGasp (settings : Settings) (now : ℤ) (s : State) : Option State :=
  if ¬ (s.running ∧ s.clock ≤ now) then none
  else some { s.hand settings quitLength now with running := false }

/-- A turn of the loop, or its end. -/
inductive Event
  | message (settings : Settings) (len : ℕ) (aborting : Bool) (r : Readings)
  | quit (settings : Settings) (now : ℤ)

/-- The runs of `transmit_thread`. -/
def system : System State Event where
  init s := ∃ clock, s = ⟨true, [], 0, clock, [], []⟩
  step s
    | .message settings len aborting r => transmitMessage settings len aborting r s
    | .quit settings now => dyingGasp settings now s

end Beirdobot.Transmit
