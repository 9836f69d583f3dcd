import ServalMesh.Lib.LinkedList
import ServalMesh.Overlay.Buffer

/-!
# Alarms

An alarm waits in `run_soon` until its `run_after`, then in `run_now` until `fd_poll` calls its
function. Both lists use the link `_next_run`. The doubly linked `wake_list` tells `fd_poll` how
long it may sleep.
-/

namespace ServalMesh.Util

open Lib
open Overlay (Abort)

/-- `INT64_MAX`. -/
def timeMsNeverWill : ℤ := 0x7fffffffffffffff

/-- What happened to an alarm. -/
inductive AlarmNote where
  | scheduled (alarm : ℕ) (runAfter : ℤ)
  | unscheduled (alarm : ℕ)
  | called (alarm : ℕ) (now : ℤ)
deriving DecidableEq

def AlarmNote.alarm : AlarmNote → ℕ
  | scheduled a _ => a
  | unscheduled a => a
  | called a _ => a

/-- The fields of every `struct sched_ent`, the heads of the lists, and the time. The notes are kept
by the model only. -/
structure Alarms where
  nextWake : ℕ → Option ℕ
  prevWake : ℕ → Option ℕ
  nextRun : ℕ → Option ℕ
  scheduled : ℕ → Bool
  runAfter : ℕ → ℤ
  wakeAt : ℕ → ℤ
  runBefore : ℕ → ℤ
  wakeList : Option ℕ
  runSoon : Option ℕ
  runNow : Option ℕ
  clock : ℤ
  notes : List AlarmNote

/-- No alarm is scheduled yet. -/
def unusedAlarms (runAfter : ℕ → ℤ) (clock : ℤ) : Alarms where
  nextWake _ := none
  prevWake _ := none
  nextRun _ := none
  scheduled _ := false
  runAfter := runAfter
  wakeAt _ := 0
  runBefore _ := 0
  wakeList := none
  runSoon := none
  runNow := none
  clock := clock
  notes := []

def Alarms.elapse (s : Alarms) (ms : ℕ) : Alarms := { s with clock := s.clock + ms }

def Alarms.note (s : Alarms) (n : AlarmNote) : Alarms := { s with notes := s.notes ++ [n] }

section Lists

/-- The new links and head of a run list that is kept sorted by `key`. -/
def insertRun (fuel : ℕ) (nextRun : ℕ → Option ℕ) (head : Option ℕ) (key : ℕ → ℤ) (a : ℕ) :
    Except Abort ((ℕ → Option ℕ) × Option ℕ) :=
  match walk nextRun (fun b => key a < key b) fuel none head with
  | none => .error .endless
  | some (owner, cell) =>
    .ok (setAt (Function.update nextRun a cell) owner (some a), setHead head owner (some a))

def insertRunNow (fuel : ℕ) (s : Alarms) (a : ℕ) : Except Abort Alarms :=
  match insertRun fuel s.nextRun s.runNow s.runBefore a with
  | .error e => .error e
  | .ok (nextRun, runNow) => .ok { s with nextRun := nextRun, runNow := runNow }

def insertRunSoon (fuel : ℕ) (s : Alarms) (a : ℕ) : Except Abort Alarms :=
  match insertRun fuel s.nextRun s.runSoon s.runAfter a with
  | .error e => .error e
  | .ok (nextRun, runSoon) => .ok { s with nextRun := nextRun, runSoon := runSoon }

/-- The new links and head of a list from which an alarm is removed, if it is there. -/
def removeRunList (fuel : ℕ) (nextRun : ℕ → Option ℕ) (head : Option ℕ) (a : ℕ) :
    Except Abort ((ℕ → Option ℕ) × Option ℕ) :=
  match walk nextRun (· == a) fuel none head with
  | none => .error .endless
  | some (_, none) => .ok (nextRun, head)
  | some (owner, some _) =>
    .ok (Function.update (setAt nextRun owner (nextRun a)) a none,
      setHead head owner (nextRun a))

def insertWakeList (fuel : ℕ) (s : Alarms) (a : ℕ) : Except Abort Alarms :=
  if s.wakeAt a = timeMsNeverWill then .ok s
  else
    match walk s.nextWake (fun b => s.wakeAt a < s.wakeAt b) fuel none s.wakeList with
    | none => .error .endless
    | some (last, cell) =>
      .ok { s with nextWake := setAt (Function.update s.nextWake a cell) last (some a)
                   prevWake := Function.update (setAt s.prevWake cell (some a)) a last
                   wakeList := setHead s.wakeList last (some a) }

def removeWakeList (s : Alarms) (a : ℕ) : Alarms :=
  let prev := s.prevWake a
  let next := s.nextWake a
  { s with nextWake := Function.update (setAt s.nextWake prev next) a none
           prevWake := Function.update (setAt s.prevWake next prev) a none
           wakeList := if prev = none ∧ s.wakeList = some a then next else s.wakeList }

/-- The loop of `move_run_list`, with a bound on its rounds. -/
def moveRunList (fuel : ℕ) : ℕ → Alarms → Except Abort Alarms
  | rounds, s =>
    match s.runSoon with
    | none => .ok s
    | some a =>
      if s.runAfter a ≤ s.clock then
        match rounds with
        | 0 => .error .endless
        | rounds + 1 =>
          match insertRunNow fuel (removeWakeList { s with runSoon := s.nextRun a } a) a with
          | .error e => .error e
          | .ok s => moveRunList fuel rounds s
      else .ok s

end Lists

section Calls

/-- A call of `schedule` or `unschedule`. Before it schedules an alarm the caller has set its fields
`alarm` and `deadline`, and perhaps `run_after`, and its function unless that is missing. -/
inductive AlarmCall where
  | schedule (a : ℕ) (alarm deadline : ℤ) (runAfter : Option ℤ) (function : Bool)
  | unschedule (a : ℕ)
deriving DecidableEq

/-- `_schedule` up to its assertions. -/
def setTimes (s : Alarms) (a : ℕ) (alarm deadline : ℤ) (runAfter : Option ℤ) : Alarms :=
  let after := runAfter.getD (s.runAfter a)
  { s with wakeAt := Function.update s.wakeAt a alarm
           runBefore := Function.update s.runBefore a deadline
           runAfter := Function.update s.runAfter a
             (if after = timeMsNeverWill ∨ after = 0 then alarm else after) }

def schedule (fuel : ℕ) (s : Alarms) (a : ℕ) (alarm deadline : ℤ) (runAfter : Option ℤ)
    (function : Bool) : Except Abort Alarms :=
  let s := setTimes s a alarm deadline runAfter
  if s.runAfter a ≤ s.wakeAt a ∧ s.runAfter a ≤ s.runBefore a ∧ s.scheduled a = false ∧
      function = true then
    let s := s.note (.scheduled a (s.runAfter a))
    if s.runAfter a ≠ timeMsNeverWill then
      match insertWakeList fuel s a with
      | .error e => .error e
      | .ok s =>
        match insertRunSoon fuel s a with
        | .error e => .error e
        | .ok s => .ok { s with scheduled := Function.update s.scheduled a true }
    else .ok s
  else .error .assertion

def unschedule (fuel : ℕ) (s : Alarms) (a : ℕ) : Except Abort Alarms :=
  let s := s.note (.unscheduled a)
  if s.scheduled a = false then .ok s
  else
    match removeRunList fuel s.nextRun s.runNow a with
    | .error e => .error e
    | .ok (nextRun, runNow) =>
      match removeRunList fuel nextRun s.runSoon a with
      | .error e => .error e
      | .ok (nextRun, runSoon) =>
        let s := { s with nextRun := nextRun, runNow := runNow, runSoon := runSoon }
        let s := removeWakeList s a
        .ok { s with scheduled := Function.update s.scheduled a false
                     runAfter := Function.update s.runAfter a timeMsNeverWill }

def alarmCall (fuel : ℕ) (s : Alarms) : AlarmCall → Except Abort Alarms
  | .schedule a alarm deadline runAfter function =>
    schedule fuel s a alarm deadline runAfter function
  | .unschedule a => unschedule fuel s a

/-- The calls that are made one after the other, as by a function of an alarm. -/
def alarmCalls (fuel : ℕ) (s : Alarms) : List AlarmCall → Except Abort Alarms
  | [] => .ok s
  | c :: cs =>
    match alarmCall fuel s c with
    | .error e => .error e
    | .ok s => alarmCalls fuel s cs

end Calls

section Poll

/-- What a round of `fd_poll` meets: the number of watched handles, the result of `poll`, the
calls made for each ready handle and those made by the function of an alarm. Time passes before
`fd_poll`, until `poll` returns, before overdue alarms are looked for again, and while the handles
are processed. -/
structure PollRound where
  fdcount : ℕ
  ready : ℤ
  handles : List (List AlarmCall)
  function : List AlarmCall
  before : ℕ
  waiting : ℕ
  moving : ℕ
  handling : ℕ
deriving DecidableEq

/-- Take the first alarm off `run_now` and call its function. -/
def callFirst (fuel : ℕ) (s : Alarms) (a : ℕ) (cs : List AlarmCall) : Except Abort Alarms :=
  let s := { s with runNow := s.nextRun a
                    scheduled := Function.update s.scheduled a false
                    runAfter := Function.update s.runAfter a timeMsNeverWill }
  alarmCalls fuel (s.note (.called a s.clock)) cs

/-- The first alarm of `run_now`, if it is overdue. -/
def overdue (s : Alarms) : Option ℕ :=
  s.runNow.filter (fun a => s.runBefore a ≤ s.clock)

/-- How long to wait. Without anything to wait for there is no answer. -/
def pollTimeout (s : Alarms) (fdcount : ℕ) : Option ℤ :=
  match s.runNow, s.wakeList with
  | some _, _ => some 0
  | none, some a => some (max 0 (s.wakeAt a - s.clock))
  | none, none => if fdcount = 0 then none else some (-1)

/-- `fd_poll` after `poll` has returned `r`. -/
def afterPoll (fuel : ℕ) (s : Alarms) (ms r : ℤ) (p : PollRound) : Except Abort Alarms :=
  match moveRunList fuel fuel s with
  | .error e => .error e
  | .ok s =>
    let s := s.elapse p.moving
    if ms ≠ 0 ∧ (overdue s).isSome then .ok s
    else if r > 0 then
      match alarmCalls fuel s p.handles.flatten with
      | .error e => .error e
      | .ok s => moveRunList fuel fuel (s.elapse p.handling)
    else
      match s.runNow with
      | none => .ok s
      | some a => callFirst fuel s a p.function

def fdPoll (fuel : ℕ) (s : Alarms) (p : PollRound) : Except Abort Alarms :=
  let s := s.elapse p.before
  match overdue s with
  | some a => callFirst fuel s a p.function
  | none =>
    match pollTimeout s p.fdcount with
    | none => .ok s
    | some ms => afterPoll fuel (s.elapse p.waiting) ms (if p.fdcount = 0 then 0 else p.ready) p

end Poll

section Runs

inductive AlarmStep where
  | call (c : AlarmCall)
  | poll (p : PollRound)
deriving DecidableEq

def alarmStep (fuel : ℕ) (s : Alarms) : AlarmStep → Except Abort Alarms
  | .call c => alarmCall fuel s c
  | .poll p => fdPoll fuel s p

def runAlarms (fuel : ℕ) (s : Alarms) : List AlarmStep → Except Abort Alarms
  | [] => .ok s
  | e :: es =>
    match alarmStep fuel s e with
    | .error e => .error e
    | .ok s => runAlarms fuel s es

/-- The calls a step can make. -/
def AlarmStep.calls : AlarmStep → List AlarmCall
  | .call c => [c]
  | .poll p => p.handles.flatten ++ p.function

end Runs

end ServalMesh.Util
