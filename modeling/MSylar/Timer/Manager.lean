import Mathlib.Logic.Function.Basic
import MSylar.Timer.Block

/-!
# The timer store (timer.cc)

`TimeManager` keeps its blocks in a multimap from start time to block pointer.
Blocks are shared objects, so the map holds addresses and `blocks` is the heap
they point into: a block erased from the map can still be written through a
pointer taken before. Each locked region of the source is one function here;
`insertTimeTask` and `onTimerTriggered` are their sequential composition. Every
reading of the clock and every result of `timerfd_settime` is an argument.
-/

namespace MSylar.Timer
open MSylar.Word

/-- The `it_value` of the last successful `timerfd_settime`. -/
structure TimerSpec where
  tvSec : ℕ
  tvNsec : ℕ
  deriving DecidableEq, Repr

structure TimeManager where
  nextTimerTime : ℕ
  timeBlocks : Multimap ℕ ℕ
  blocks : ℕ → TimerBlock
  fresh : ℕ
  blockSizeMs : ℕ
  baseTime : ℕ
  timerCount : ℕ
  timerFd : Option TimerSpec
  scheduled : List TimeTask

namespace TimeManager

/-- The store after the constructor and `init` at the clock value `baseTime`. -/
def init (blockSizeMs baseTime : ℕ) : TimeManager :=
  { nextTimerTime := uint64Max, timeBlocks := .empty, blocks := fun _ => .new 0 0, fresh := 0
    blockSizeMs := blockSizeMs, baseTime := baseTime, timerCount := 0, timerFd := none
    scheduled := [] }

def schedule (m : TimeManager) (task : TimeTask) : TimeManager :=
  { m with scheduled := m.scheduled ++ [task] }

def setBlock (m : TimeManager) (p : ℕ) (b : TimerBlock) : TimeManager :=
  { m with blocks := Function.update m.blocks p b }

/-! ### getOrCreateTimerBlock and insertTimeTask (timer.cc:445-527) -/

/-- Start of the block for an execute time (timer.cc:454). -/
def blockBegin (m : TimeManager) (executeTime : ℕ) : ℕ :=
  add64 m.baseTime (sub64 executeTime m.baseTime / m.blockSizeMs * m.blockSizeMs)

/-- The assertion on the range of the new block (timer.cc:468). -/
def blockRangeOk (m : TimeManager) (executeTime start : ℕ) : Bool :=
  start ≤ executeTime && executeTime < add64 start m.blockSizeMs

/-- The region under the exclusive lock (timer.cc:471-477): looks again, then adds
the new block. -/
def createBlock (m : TimeManager) (start : ℕ) : ℕ × TimeManager :=
  match m.timeBlocks.find start with
  | some p => (p, m)
  | none => (m.fresh,
      { m with timeBlocks := m.timeBlocks.insert start m.fresh
               blocks := Function.update m.blocks m.fresh
                 (.new start (add64 start m.blockSizeMs))
               fresh := m.fresh + 1 })

/-- `none` stands for the process going down: a division by a zero block size or a
failed range assertion. -/
def getOrCreateTimerBlock (m : TimeManager) (executeTime now : ℕ) :
    Option (Option ℕ × TimeManager) :=
  if executeTime < now then some (none, m)
  else if m.blockSizeMs = 0 then none
  else
    let start := m.blockBegin executeTime
    match m.timeBlocks.find start with
    | some p => some (some p, m)
    | none =>
      if m.blockRangeOk executeTime start then
        let r := m.createBlock start
        some (some r.1, r.2)
      else none

def inRange (m : TimeManager) (p executeTime : ℕ) : Bool :=
  (m.blocks p).startTime ≤ executeTime && executeTime < (m.blocks p).endTime

def insertInBlock (m : TimeManager) (p : ℕ) (task : TimeTask) : TimeManager :=
  m.setBlock p ((m.blocks p).insert task)

/-- Relative expiry for an absolute execute time (timer.cc:533-540). -/
def timerSpec (executeTime now : ℕ) : TimerSpec :=
  if executeTime ≤ now then ⟨0, 1000000⟩
  else ⟨(executeTime - now) / 1000, (executeTime - now) % 1000 * 1000000⟩

/-- `updateTimerFd` (timer.cc:529-556); `ok` is whether `timerfd_settime` succeeds. -/
def updateTimerFd (m : TimeManager) (executeTime now : ℕ) (ok : Bool) : ℤ × TimeManager :=
  if m.nextTimerTime ≤ executeTime then (0, m)
  else if ok then
    (0, { m with nextTimerTime := executeTime, timerFd := some (timerSpec executeTime now) })
  else (-1, m)

def countTimer (m : TimeManager) : TimeManager := { m with timerCount := add64 m.timerCount 1 }

/-- The rest of `insertTimeTask` once it holds a block (timer.cc:503-526). -/
def place (m : TimeManager) (task : TimeTask) (p now : ℕ) (ok : Bool) : ℤ × TimeManager :=
  if m.inRange p task.executeMs then
    let stored := m.insertInBlock p task
    if task.executeMs < stored.nextTimerTime then
      let r := stored.updateTimerFd task.executeMs now ok
      if r.1 = -1 then (-1, r.2) else (0, r.2.countTimer)
    else (0, stored.countTimer)
  else (-1, m)

/-- `insertTimeTask` (timer.cc:481-527): the clock is read on entry, in
`getOrCreateTimerBlock` and in `updateTimerFd`. -/
def insertTimeTask (m : TimeManager) (task : Option TimeTask) (now nowBlock nowFd : ℕ)
    (ok : Bool) : Option (ℤ × TimeManager) :=
  match task with
  | none => some (-1, m)
  | some t =>
    if t.executeMs ≤ now then some (0, m.schedule t)
    else (m.getOrCreateTimerBlock t.executeMs nowBlock).map fun r =>
      match r.1 with
      | none => (-1, r.2)
      | some p => r.2.place t p nowFd ok

/-! ### onTimerTriggered (timer.cc:76-162) -/

/-- The blocks that may hold expired tasks (timer.cc:84-92). -/
def collect (m : TimeManager) (now : ℕ) : List ℕ := (m.timeBlocks.upTo now).map Prod.snd

def drainBlock (m : TimeManager) (p now : ℕ) : List TimeTask × TimeManager :=
  let r := (m.blocks p).getAndRemove now
  (r.1, m.setBlock p r.2)

/-- The loop over the collected blocks (timer.cc:95-102). -/
def drain (now : ℕ) : List ℕ → TimeManager → List TimeTask × TimeManager
  | [], m => ([], m)
  | p :: ps, m =>
    let r := m.drainBlock p now
    let q := drain now ps r.2
    (r.1 ++ q.1, q.2)

/-- The condition of the erase loop (timer.cc:117). -/
def erasable (m : TimeManager) (now : ℕ) (e : ℕ × ℕ) : Bool :=
  (m.blocks e.2).endTime ≤ now || (m.blocks e.2).isEmpty

def eraseBlocks (m : TimeManager) (now : ℕ) : TimeManager :=
  { m with timeBlocks := m.timeBlocks.filter fun e => !m.erasable now e }

/-- The loop that looks for the first block with a task (timer.cc:132-140). -/
def nextTimeFrom (blocks : ℕ → TimerBlock) : List (ℕ × ℕ) → ℕ
  | [] => uint64Max
  | e :: es =>
    let t := (blocks e.2).getNextExecuteTime
    if t ≠ uint64Max then t else nextTimeFrom blocks es

/-- The region under the exclusive lock (timer.cc:112-150): erases the blocks that are
empty or over, resets `nextTimerTime` and gives the time to re-arm for, if any. -/
def eraseAndReset (m : TimeManager) (now : ℕ) : Option ℕ × TimeManager :=
  let kept := { m.eraseBlocks now with nextTimerTime := uint64Max }
  let next := nextTimeFrom kept.blocks kept.timeBlocks.entries
  (if next ≠ uint64Max then some next else none, kept)

def rearm (m : TimeManager) (next : Option ℕ) (now : ℕ) (ok : Bool) : TimeManager :=
  match next with
  | none => m
  | some t => (m.updateTimerFd t now ok).2

/-- One turn of the final loop (timer.cc:156-161). -/
def fire (m : TimeManager) (task : TimeTask) : TimeManager :=
  { m with timerCount := sub64 m.timerCount 1 }.schedule task

def scheduleExpired (ts : List TimeTask) (m : TimeManager) : TimeManager := ts.foldl fire m

/-- `onTimerTriggered`, with the clock read on entry and in `updateTimerFd`. -/
def onTimerTriggered (m : TimeManager) (now nowFd : ℕ) (ok : Bool) : TimeManager :=
  let d := drain now (m.collect now) m
  let e := d.2.eraseAndReset now
  scheduleExpired d.1 (e.2.rearm e.1 nowFd ok)

end TimeManager
end MSylar.Timer
