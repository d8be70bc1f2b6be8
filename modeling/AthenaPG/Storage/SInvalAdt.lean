import AthenaPG.Nodes.BitmapsetOps

/-!
Shared invalidation messages (`src/backend/storage/ipc/sinvaladt.c`).

Messages stand in a circular buffer that all backends read at their own pace.  Readers
hold `SInvalReadLock` in shared mode, one writer at a time holds `SInvalWriteLock`, and
the two run in parallel; `SICleanupQueue` holds both.  A step of the model is what a
process does between two points where others may run: the unlocked test of
`hasMessages`, the read of `maxMsgNum` under its spinlock, the copy of one message by
the reader, the store of one message by the writer, the setting of one flag.

`log`, `base`, `completed`, `joined` and `returns` are history variables: they are
written and never read.
-/

namespace AthenaPG

open Function (update)
namespace SInval

/-! ## The shared segment -/

def maxNumMessages : Nat := 4096

def msgNumWraparound : Nat := maxNumMessages * 262144

def cleanupMin : Nat := maxNumMessages / 2

def cleanupQuantum : Nat := maxNumMessages / 16

def sigThreshold : Nat := maxNumMessages / 2

def writeQuantum : Nat := 64

structure ProcState where
  procPid : Nat
  nextMsgNum : Int
  resetState : Bool
  signaled : Bool
  hasMessages : Bool
  sendOnly : Bool

structure SISeg (Msg : Type) where
  minMsgNum : Int
  maxMsgNum : Int
  nextThreshold : Int
  lastBackend : Nat
  buffer : Nat → Msg
  procState : Nat → ProcState

def slotOf (msgNum : Int) : Nat := (msgNum.tmod maxNumMessages).toNat

section Segment

variable {Msg : Type}

variable (seg : SISeg Msg)

def SISeg.setProc (b : Nat) (stateP : ProcState) : SISeg Msg :=
  { seg with procState := update seg.procState b stateP }

/-- The entry that `SharedInvalBackendInit` takes; without one it fails with "sorry, too many
clients already" and changes nothing. -/
def freeSlot (maxBackends : Nat) (seg : SISeg Msg) : Option Nat :=
  match (List.range seg.lastBackend).find? fun i => (seg.procState i).procPid == 0 with
  | some i => some i
  | none => if seg.lastBackend < maxBackends then some seg.lastBackend else none

/-- `SharedInvalBackendInit`, in the entry it takes. -/
def sharedInvalBackendInit (pid : Nat) (sendOnly : Bool) (b : Nat) (seg : SISeg Msg) : SISeg Msg :=
  { seg.setProc b ⟨pid, seg.maxMsgNum, false, false, false, sendOnly⟩ with
    lastBackend := if b < seg.lastBackend then seg.lastBackend else seg.lastBackend + 1 }

/-- The recomputation of `lastBackend`. -/
def lastActive (procState : Nat → ProcState) : Nat → Nat
  | 0 => 0
  | i + 1 => if (procState i).procPid ≠ 0 then i + 1 else lastActive procState i

def cleanupInvalidationState (b : Nat) (seg : SISeg Msg) : SISeg Msg :=
  let seg := seg.setProc b { seg.procState b with
    procPid := 0, nextMsgNum := 0, resetState := false, signaled := false }
  { seg with lastBackend := lastActive seg.procState seg.lastBackend }

/-- What the first loop of `SICleanupQueue` keeps. -/
structure CleanupScan where
  min : Int
  minsig : Int
  needSig : Option Nat
  procState : Nat → ProcState

def cleanupVisit (lowbound : Int) (scan : CleanupScan) (i : Nat) : CleanupScan :=
  let stateP := scan.procState i
  let n := stateP.nextMsgNum
  if stateP.procPid = 0 ∨ stateP.resetState = true ∨ stateP.sendOnly = true then scan
  else if n < lowbound then
    { scan with procState := update scan.procState i { stateP with resetState := true } }
  else
    { scan with
      min := if n < scan.min then n else scan.min
      minsig := if n < scan.minsig ∧ stateP.signaled = false then n else scan.minsig
      needSig := if n < scan.minsig ∧ stateP.signaled = false then some i else scan.needSig }

def cleanupScan (lowbound : Int) (seg : SISeg Msg) : Nat → CleanupScan
  | 0 => ⟨seg.maxMsgNum, seg.maxMsgNum - sigThreshold, none, seg.procState⟩
  | n + 1 => cleanupVisit lowbound (cleanupScan lowbound seg n) n

def rebase : SISeg Msg :=
  { seg with
    minMsgNum := seg.minMsgNum - msgNumWraparound
    maxMsgNum := seg.maxMsgNum - msgNumWraparound
    procState := fun i =>
      if i < seg.lastBackend then
        -- counters of inactive entries may pass the range of an int
        { seg.procState i with
          nextMsgNum := wrapInt ((seg.procState i).nextMsgNum - msgNumWraparound) }
      else seg.procState i }

def thresholdFor (numMsgs : Int) : Int :=
  if numMsgs < cleanupMin then cleanupMin
  else (numMsgs.tdiv cleanupQuantum + 1) * cleanupQuantum

def markSignaled : Option Nat → SISeg Msg
  | none => seg
  | some i => seg.setProc i { seg.procState i with signaled := true }

/-- `SICleanupQueue` between its locks: the segment, and the backend to be signalled. -/
def siCleanupQueue (minFree : Int) (seg : SISeg Msg) : SISeg Msg × Option Nat :=
  let lowbound := wrapInt (seg.maxMsgNum - maxNumMessages + minFree)
  let scan := cleanupScan lowbound seg seg.lastBackend
  let seg := { seg with minMsgNum := scan.min, procState := scan.procState }
  let seg := if scan.min ≥ msgNumWraparound then rebase seg else seg
  let seg := { seg with nextThreshold := thresholdFor (seg.maxMsgNum - seg.minMsgNum) }
  (markSignaled seg scan.needSig, scan.needSig)

/-- The test that sends `SIInsertDataEntries` to `SICleanupQueue`. -/
def mustClean (nthistime : Nat) : Prop :=
  seg.maxMsgNum - seg.minMsgNum + nthistime > maxNumMessages ∨
    seg.maxMsgNum - seg.minMsgNum ≥ seg.nextThreshold

end Segment

/-! ## Processes -/

inductive Pc (Msg : Type)
  | idle
  /-- In `SIGetDataEntries`, before the lock. -/
  | getLock (datasize : Nat)
  /-- The lock is held and `hasMessages` is cleared. -/
  | getMax (datasize : Nat)
  /-- `maxMsgNum` is read; `seen` messages had been inserted then. -/
  | getTest (datasize : Nat) (max : Int) (seen : Nat)
  | getCopy (datasize : Nat) (max : Int) (seen : Nat) (data : List Msg)
  /-- At the head of the outer loop of `SIInsertDataEntries`. -/
  | insert (data : List Msg)
  /-- At the head of the inner loop, with the write lock. -/
  | insertCheck (batch rest : List Msg)
  /-- In `SICleanupQueue`, before the read lock. -/
  | insertCleanup (batch rest : List Msg)
  /-- In `SICleanupQueue`, without locks, sending a signal. -/
  | insertSignal (batch rest : List Msg)
  | insertWrite (max : Int) (written todo rest : List Msg)
  | insertKick (i : Nat) (rest : List Msg)
  /-- In `SICleanupQueue`, before the write lock. -/
  | cleanupLock (minFree : Int)
  /-- In `SICleanupQueue`, before the read lock. -/
  | cleanupBody (minFree : Int)

/-- The process holds `SInvalWriteLock`. -/
def Pc.holdsWrite {Msg : Type} : Pc Msg → Bool
  | .insertCheck .. | .insertCleanup .. | .insertWrite .. | .insertKick .. | .cleanupBody _ => true
  | _ => false

inductive ReadPhase (Msg : Type)
  | outside
  | marking
  | testing (max : Int) (seen : Nat)
  | copying (datasize : Nat) (max : Int) (seen : Nat) (data : List Msg)

def Pc.phase {Msg : Type} : Pc Msg → ReadPhase Msg
  | .getMax _ => .marking
  | .getTest _ max seen => .testing max seen
  | .getCopy datasize max seen data => .copying datasize max seen data
  | _ => .outside

/-- What a call of `SIGetDataEntries` returned: messages, with the number of messages
that had been inserted before it looked, or -1. -/
inductive Return (Msg : Type)
  | messages (datasize : Nat) (data : List Msg) (settled : Nat)
  | reset (upTo : Nat)

/-- A process; `returns` has the last call first. -/
structure Process (Msg : Type) where
  backend : Option Nat
  pc : Pc Msg
  joined : Nat
  returns : List (Return Msg)

/-- The whole system; `log` is the sequence of all inserted messages, `base` what the
message numbers have been reduced by, and `completed` counts the messages whose flags
have all been set. -/
structure World (Msg : Type) where
  seg : SISeg Msg
  procs : Nat → Process Msg
  log : List Msg
  base : Nat
  completed : Nat

variable {Msg : Type}

namespace World

variable (w : World Msg)

def setPc (p : Nat) (pc : Pc Msg) : World Msg :=
  { w with procs := update w.procs p { w.procs p with pc := pc } }

/-- A call of `SIGetDataEntries` returns. -/
def finish (p : Nat) (ret : Return Msg) : World Msg :=
  { w with
    procs := update w.procs p
      { w.procs p with pc := .idle, returns := ret :: (w.procs p).returns } }

def setProc (w : World Msg) (b : Nat) (stateP : ProcState) : World Msg :=
  { w with seg := w.seg.setProc b stateP }

/-- `SInvalWriteLock` can be acquired. -/
def WriteFree : Prop := ∀ q, (w.procs q).pc.holdsWrite = false

/-- `SInvalReadLock` can be acquired in exclusive mode. -/
def ReadFree : Prop := ∀ q, (w.procs q).pc.phase = .outside

def join (p : Nat) (sendOnly : Bool) (b : Nat) : World Msg :=
  { w with
    seg := sharedInvalBackendInit p sendOnly b w.seg
    procs := update w.procs p ⟨some b, .idle, w.log.length, []⟩ }

def leave (p b : Nat) : World Msg :=
  { w with
    seg := cleanupInvalidationState b w.seg
    procs := update w.procs p { w.procs p with backend := none } }

def clean (minFree : Int) : World Msg :=
  let seg := (siCleanupQueue minFree w.seg).1
  { w with seg := seg, base := w.base + (w.seg.maxMsgNum - seg.maxMsgNum).toNat }

def store (slot : Nat) (m : Msg) : World Msg :=
  { w with seg := { w.seg with buffer := update w.seg.buffer slot m } }

/-- `maxMsgNum` is advanced over the stored messages. -/
def publish (max : Int) (written : List Msg) : World Msg :=
  { w with seg := { w.seg with maxMsgNum := max }, log := w.log ++ written }

end World

inductive Step (maxBackends : Nat) : World Msg → World Msg → Prop
  | backendInit {w : World Msg} {p b : Nat} (sendOnly : Bool) : (w.procs p).pc = .idle →
      (w.procs p).backend = none → p ≠ 0 → w.WriteFree → freeSlot maxBackends w.seg = some b →
      Step maxBackends w (w.join p sendOnly b)
  | backendExit {w : World Msg} {p b : Nat} : (w.procs p).pc = .idle →
      (w.procs p).backend = some b → w.WriteFree → Step maxBackends w (w.leave p b)
  | getQuick {w : World Msg} {p b : Nat} (datasize : Nat) : (w.procs p).pc = .idle →
      (w.procs p).backend = some b → (w.seg.procState b).hasMessages = false →
      Step maxBackends w (w.finish p (.messages datasize [] w.completed))
  | getEnter {w : World Msg} {p b : Nat} (datasize : Nat) : (w.procs p).pc = .idle →
      (w.procs p).backend = some b → (w.seg.procState b).hasMessages = true →
      Step maxBackends w (w.setPc p (.getLock datasize))
  | getLock {w : World Msg} {p b datasize : Nat} : (w.procs p).pc = .getLock datasize →
      (w.procs p).backend = some b →
      Step maxBackends w
        ((w.setProc b { w.seg.procState b with hasMessages := false }).setPc p (.getMax datasize))
  | getMax {w : World Msg} {p datasize : Nat} : (w.procs p).pc = .getMax datasize →
      Step maxBackends w (w.setPc p (.getTest datasize w.seg.maxMsgNum w.log.length))
  | getReset {w : World Msg} {p b datasize : Nat} {max : Int} {seen : Nat} :
      (w.procs p).pc = .getTest datasize max seen → (w.procs p).backend = some b →
      (w.seg.procState b).resetState = true →
      Step maxBackends w ((w.setProc b { w.seg.procState b with
        nextMsgNum := max, resetState := false, signaled := false }).finish p (.reset seen))
  | getNoReset {w : World Msg} {p b datasize : Nat} {max : Int} {seen : Nat} :
      (w.procs p).pc = .getTest datasize max seen → (w.procs p).backend = some b →
      (w.seg.procState b).resetState = false →
      Step maxBackends w (w.setPc p (.getCopy datasize max seen []))
  | getCopy {w : World Msg} {p b datasize : Nat} {max : Int} {seen : Nat} {data : List Msg} :
      (w.procs p).pc = .getCopy datasize max seen data → (w.procs p).backend = some b →
      data.length < datasize → (w.seg.procState b).nextMsgNum < max →
      Step maxBackends w ((w.setProc b { w.seg.procState b with
        nextMsgNum := (w.seg.procState b).nextMsgNum + 1 }).setPc p (.getCopy datasize max seen
          (data ++ [w.seg.buffer (slotOf (w.seg.procState b).nextMsgNum)])))
  | getDone {w : World Msg} {p b datasize : Nat} {max : Int} {seen : Nat} {data : List Msg} :
      (w.procs p).pc = .getCopy datasize max seen data → (w.procs p).backend = some b →
      ¬ (data.length < datasize ∧ (w.seg.procState b).nextMsgNum < max) →
      Step maxBackends w ((w.setProc b
        (if (w.seg.procState b).nextMsgNum ≥ max then
          { w.seg.procState b with signaled := false }
        else { w.seg.procState b with hasMessages := true })).finish p
          (.messages datasize data seen))
  | insertCall {w : World Msg} {p : Nat} (data : List Msg) : (w.procs p).pc = .idle →
      Step maxBackends w (w.setPc p (.insert data))
  | insertEnd {w : World Msg} {p : Nat} : (w.procs p).pc = .insert [] →
      Step maxBackends w (w.setPc p .idle)
  | insertLock {w : World Msg} {p : Nat} {data : List Msg} : (w.procs p).pc = .insert data →
      data ≠ [] → w.WriteFree →
      Step maxBackends w
        (w.setPc p (.insertCheck (data.take writeQuantum) (data.drop writeQuantum)))
  | insertClean {w : World Msg} {p : Nat} {batch rest : List Msg} :
      (w.procs p).pc = .insertCheck batch rest → mustClean w.seg batch.length →
      Step maxBackends w (w.setPc p (.insertCleanup batch rest))
  | insertCleanup {w : World Msg} {p : Nat} {batch rest : List Msg} :
      (w.procs p).pc = .insertCleanup batch rest → w.ReadFree →
      Step maxBackends w ((w.clean batch.length).setPc p
        (if (siCleanupQueue batch.length w.seg).2.isSome then .insertSignal batch rest
        else .insertCheck batch rest))
  | insertRelock {w : World Msg} {p : Nat} {batch rest : List Msg} :
      (w.procs p).pc = .insertSignal batch rest → w.WriteFree →
      Step maxBackends w (w.setPc p (.insertCheck batch rest))
  | insertStart {w : World Msg} {p : Nat} {batch rest : List Msg} :
      (w.procs p).pc = .insertCheck batch rest → ¬ mustClean w.seg batch.length →
      Step maxBackends w (w.setPc p (.insertWrite w.seg.maxMsgNum [] batch rest))
  | insertWrite {w : World Msg} {p : Nat} {max : Int} {m : Msg} {written todo rest : List Msg} :
      (w.procs p).pc = .insertWrite max written (m :: todo) rest →
      Step maxBackends w ((w.store (slotOf max) m).setPc p
        (.insertWrite (max + 1) (written ++ [m]) todo rest))
  | insertPublish {w : World Msg} {p : Nat} {max : Int} {written rest : List Msg} :
      (w.procs p).pc = .insertWrite max written [] rest →
      Step maxBackends w ((w.publish max written).setPc p (.insertKick 0 rest))
  | insertKick {w : World Msg} {p i : Nat} {rest : List Msg} :
      (w.procs p).pc = .insertKick i rest → i < w.seg.lastBackend →
      Step maxBackends w ((w.setProc i { w.seg.procState i with hasMessages := true }).setPc p
        (.insertKick (i + 1) rest))
  | insertRelease {w : World Msg} {p i : Nat} {rest : List Msg} :
      (w.procs p).pc = .insertKick i rest → ¬ i < w.seg.lastBackend →
      Step maxBackends w ({ w with completed := w.log.length }.setPc p (.insert rest))
  | cleanupCall {w : World Msg} {p : Nat} (minFree : Int) : (w.procs p).pc = .idle →
      Step maxBackends w (w.setPc p (.cleanupLock minFree))
  | cleanupLock {w : World Msg} {p : Nat} {minFree : Int} :
      (w.procs p).pc = .cleanupLock minFree → w.WriteFree →
      Step maxBackends w (w.setPc p (.cleanupBody minFree))
  | cleanupBody {w : World Msg} {p : Nat} {minFree : Int} :
      (w.procs p).pc = .cleanupBody minFree → w.ReadFree →
      Step maxBackends w ((w.clean minFree).setPc p .idle)

/-- The state that `CreateSharedInvalidationState` leaves, over any buffer contents. -/
def initialWorld (buffer : Nat → Msg) : World Msg where
  seg := ⟨0, 0, cleanupMin, 0, buffer, fun _ => ⟨0, 0, false, false, false, false⟩⟩
  procs := fun _ => ⟨none, .idle, 0, []⟩
  log := []
  base := 0
  completed := 0

inductive Reachable (maxBackends : Nat) : World Msg → Prop
  | initial (buffer : Nat → Msg) : Reachable maxBackends (initialWorld buffer)
  | step {w w' : World Msg} : Reachable maxBackends w → Step maxBackends w w' →
      Reachable maxBackends w'

end SInval
end AthenaPG
