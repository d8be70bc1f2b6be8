import Mathlib.Tactic

/-!
Shared memory queues (`src/backend/storage/ipc/shm_mq.c`): one sender and one receiver on a
ring of bytes.

Each of the two takes steps of its own, and a step makes at most one access to what the
other one may change: the two counters, the flag, the pointers to the processes, or one byte
of the ring.  A wait for a latch is a step that is not taken.  The byte counters are 64 bits
wide in the source and taken as numbers here.

* `nextChunk`: the bytes that `shm_mq_sendv` writes next, pieces recombined;
* `SendStep`: `shm_mq_sendv`, `shm_mq_send_bytes` and the end of a sender;
* `RecvStep`: `shm_mq_receive`, `shm_mq_receive_bytes` and the end of a receiver;
* `Step`, `Reachable`: every interleaving of both.
-/

namespace AthenaPG.ShmMq

/-! ## Sizes and words -/

/-- `MAXALIGN`, for `MAXIMUM_ALIGNOF` 8. -/
def maxAlign (n : Nat) : Nat := (n + 7) / 8 * 8

def maxAlignDown (n : Nat) : Nat := n / 8 * 8

def maxAllocSize : Nat := 0x3fffffff

/-- The buffer that `shm_mq_receive` allocates for a message: the next power of two, limited to
`MaxAllocSize`. -/
def bufferSize (nbytes : Nat) : Nat := min (2 ^ Nat.clog 2 nbytes) maxAllocSize

def wordBytes : Nat → Nat → List UInt8
  | 0, _ => []
  | k + 1, n => UInt8.ofNat n :: wordBytes k (n / 256)

def wordValue : List UInt8 → Nat
  | [] => 0
  | b :: bs => b.toNat + 256 * wordValue bs

/-- The length word, a `Size`. -/
def lengthWord (nbytes : Nat) : List UInt8 := wordBytes 8 nbytes

/-! ## The queue -/

/-- `shm_mq`; of the two processes it only matters whether they are there. -/
structure Queue where
  bytesRead : Nat
  bytesWritten : Nat
  ring : Nat → UInt8
  detached : Bool
  senderSet : Bool
  receiverSet : Bool

def Queue.bytes (mq : Queue) (offset nbytes : Nat) : List UInt8 :=
  (List.range nbytes).map fun i => mq.ring (offset + i)

/-- A message, as the pieces that `shm_mq_sendv` gathers. -/
structure Message where
  iov : List (List UInt8)
  nonempty : iov ≠ []
  bounded : iov.flatten.length ≤ maxAllocSize

def Message.payload (m : Message) : List UInt8 := m.iov.flatten

/-! ## The sender -/

/-- The sender's `shm_mq_handle`. -/
structure SendHandle where
  sendPending : Nat
  partialBytes : Nat
  lengthWordComplete : Bool
  counterpartyAttached : Bool

/-- The arguments of a call of `shm_mq_sendv`. -/
structure SendCall where
  message : Message
  nowait : Bool
  forceFlush : Bool

/-- A call of `shm_mq_send_bytes`, with the place of `shm_mq_sendv` in the pieces.  The place
is before the bytes to send if they are sent from the piece itself, and behind them if they
were gathered in `tmpbuf`. -/
structure SendFrame where
  call : SendCall
  data : List UInt8
  sent : Nat
  pieces : List (List UInt8)
  offset : Nat
  gathered : Bool

/-- The first branch of the loop of `shm_mq_sendv`: pieces that end before the offset are
skipped.  There is no piece left if the loop ends. -/
def skipPieces (partialBytes nbytes : Nat) :
    List (List UInt8) → Nat → Option (List (List UInt8) × Nat)
  | [], _ => none
  | piece :: rest, offset =>
    if piece.length ≤ offset then
      if rest.isEmpty then none
      else if partialBytes < nbytes then
        skipPieces partialBytes nbytes rest (offset - piece.length)
      else none
    else some (piece :: rest, offset)

/-- The loop that fills `tmpbuf`, one byte at a time. -/
def gather (pieces : List (List UInt8)) (offset : Nat) (tmpbuf : List UInt8) :
    List UInt8 × List (List UInt8) × Nat :=
  match pieces with
  | [] => (tmpbuf, [], offset)
  | piece :: rest =>
    if h : offset < piece.length then
      if tmpbuf.length + 1 = 8 then (tmpbuf ++ [piece[offset]], piece :: rest, offset + 1)
      else gather (piece :: rest) (offset + 1) (tmpbuf ++ [piece[offset]])
    else gather rest (offset - piece.length) tmpbuf
termination_by (pieces.length, pieces.flatten.length - offset)
decreasing_by
  · right
    simp only [List.flatten_cons, List.length_append]
    omega
  · left
    simp

/-- The bytes that the loop of `shm_mq_sendv` sends next, and the place afterwards. -/
def nextChunk (partialBytes nbytes : Nat) (pieces : List (List UInt8)) (offset : Nat) :
    Option (List UInt8 × List (List UInt8) × Nat × Bool) :=
  match skipPieces partialBytes nbytes pieces offset with
  | some (piece :: rest, offset) =>
    if !rest.isEmpty && offset + 8 > piece.length then
      let tmpbuf := gather (piece :: rest) offset []
      some (tmpbuf.1, tmpbuf.2.1, tmpbuf.2.2, true)
    else
      let chunksize := if rest.isEmpty then piece.length - offset
        else maxAlignDown (piece.length - offset)
      some ((piece.drop offset).take chunksize, piece :: rest, offset, false)
  | _ => none

inductive SendPc
  | unattached
  | idle
  /-- The head of the loop of `shm_mq_send_bytes`. -/
  | loop (f : SendFrame)
  /-- `mq_bytes_read` has been read. -/
  | checkDetached (f : SendFrame) (rb : Nat)
  /-- The ring is full, and the pending bytes are about to be made visible. -/
  | full (f : SendFrame)
  /-- The ring is full and the receiver not known: `shm_mq_counterparty_gone`. -/
  | askGone (f : SendFrame)
  /-- `shm_mq_get_receiver`. -/
  | askReceiver (f : SendFrame)
  /-- The head of the loop of `shm_mq_wait_internal`. -/
  | waitReceiver (f : SendFrame)
  /-- `shm_mq_wait_internal` has read the pointer. -/
  | waitDetached (f : SendFrame) (result : Bool)
  /-- A `memcpy` into the ring, of which `i` bytes are done. -/
  | copying (f : SendFrame) (offset sendnow i : Nat)
  | finish (call : SendCall)
  | finishReceiver (call : SendCall)
  | flush (call : SendCall)
  /-- `shm_mq_detach`, after the pending bytes were made visible. -/
  | detaching
  | gone

/-- The sender, with its history: the messages that it was asked to send, the number of
those written completely, and the one that a retry has to repeat. -/
structure Sender where
  handle : SendHandle
  pc : SendPc
  sent : List Message
  completed : Nat
  current : Option Message
  /-- A message was given up because the queue is detached. -/
  aborted : Bool
  /-- `shm_mq_detach` has run to its end. -/
  detachedQueue : Bool

variable (tx : Sender)

/-- `shm_mq_sendv` returns because the queue is detached, within a message. -/
def Sender.abort : Sender :=
  { tx with
    handle := { tx.handle with partialBytes := 0, lengthWordComplete := false }
    pc := .idle, current := none, aborted := true }

variable (call : SendCall)

/-- The message has been written; the handle is reset for the next message. -/
def Sender.complete : Sender :=
  { tx with
    handle := { tx.handle with partialBytes := 0, lengthWordComplete := false }
    pc := .finish call, completed := tx.completed + 1, current := none }

/-- The body of the loop of `shm_mq_sendv`, up to the next call of `shm_mq_send_bytes`. -/
def Sender.sendData (pieces : List (List UInt8)) (offset : Nat) :
    Sender :=
  match nextChunk tx.handle.partialBytes call.message.payload.length pieces offset with
  | none => tx.complete call
  | some (data, pieces, offset, gathered) =>
    { tx with pc := .loop ⟨call, data, 0, pieces, offset, gathered⟩ }

/-- The beginning of `shm_mq_sendv`, up to the first call of `shm_mq_send_bytes`. -/
def Sender.sendv : Sender :=
  if tx.handle.lengthWordComplete then tx.sendData call call.message.iov tx.handle.partialBytes
  else
    { tx with
      pc := .loop ⟨call, (lengthWord call.message.payload.length).drop tx.handle.partialBytes, 0,
        [], 0, false⟩ }

/-- `shm_mq_send_bytes` has sent all its bytes. -/
def Sender.sentAll (f : SendFrame) : Sender :=
  if tx.handle.lengthWordComplete then
    let tx := { tx with
      handle := { tx.handle with partialBytes := tx.handle.partialBytes + f.sent } }
    if tx.handle.partialBytes < f.call.message.payload.length then
      tx.sendData f.call f.pieces (if f.gathered then f.offset else f.offset + f.sent)
    else tx.complete f.call
  else
    { tx with handle := { tx.handle with partialBytes := 0, lengthWordComplete := true } }.sendData
      f.call f.call.message.iov 0

/-- `shm_mq_send_bytes` would have to wait, and `shm_mq_sendv` returns. -/
def Sender.block (f : SendFrame) : Sender :=
  { tx with
    handle := { tx.handle with partialBytes := tx.handle.partialBytes + f.sent }, pc := .idle }

/-- `shm_mq_inc_bytes_written` for the pending bytes. -/
def Queue.publish (mq : Queue) (tx : Sender) : Queue :=
  { mq with bytesWritten := mq.bytesWritten + tx.handle.sendPending }

def Sender.published : Sender := { tx with handle := { tx.handle with sendPending := 0 } }

def Sender.attachedTo : Sender :=
  { tx with handle := { tx.handle with counterpartyAttached := true } }

/-- A step of the sender; `gone` says whether the receiver's process has ended, which a worker
handle may report. -/
inductive SendStep (ringSize : Nat) (gone : Bool) : Queue → Sender → Queue → Sender → Prop
  /-- `shm_mq_set_sender` and `shm_mq_attach`. -/
  | attach {mq tx} (h : tx.pc = .unattached) :
      SendStep ringSize gone mq tx { mq with senderSet := true } { tx with pc := .idle }
  | send {mq tx} (call : SendCall) (h : tx.pc = .idle) (hcurrent : tx.current = none) :
      SendStep ringSize gone mq tx mq
        ({ tx with sent := tx.sent ++ [call.message], current := some call.message }.sendv call)
  | retry {mq tx} (call : SendCall) (h : tx.pc = .idle) (hcurrent : tx.current = some call.message) :
      SendStep ringSize gone mq tx mq (tx.sendv call)
  | sentAll {mq tx} (f : SendFrame) (h : tx.pc = .loop f) (hsent : f.data.length ≤ f.sent) :
      SendStep ringSize gone mq tx mq (tx.sentAll f)
  /-- `mq_bytes_read` is read.  Only the sender changes `mq_bytes_written`. -/
  | readRead {mq tx} (f : SendFrame) (h : tx.pc = .loop f) (hsent : f.sent < f.data.length) :
      SendStep ringSize gone mq tx mq { tx with pc := .checkDetached f mq.bytesRead }
  | sawDetached {mq tx} (f : SendFrame) (rb : Nat) (h : tx.pc = .checkDetached f rb)
      (hdetached : mq.detached = true) : SendStep ringSize gone mq tx mq tx.abort
  /-- There is no room, and the receiver is not known to be there. -/
  | fullUnknown {mq tx} (f : SendFrame) (rb : Nat) (h : tx.pc = .checkDetached f rb)
      (hdetached : mq.detached = false)
      (hfull : ringSize - (mq.bytesWritten + tx.handle.sendPending - rb) = 0)
      (hattached : tx.handle.counterpartyAttached = false) :
      SendStep ringSize gone mq tx mq
        { tx with pc := if f.call.nowait then .askGone f else .waitReceiver f }
  | fullKnown {mq tx} (f : SendFrame) (rb : Nat) (h : tx.pc = .checkDetached f rb)
      (hdetached : mq.detached = false)
      (hfull : ringSize - (mq.bytesWritten + tx.handle.sendPending - rb) = 0)
      (hattached : tx.handle.counterpartyAttached = true) :
      SendStep ringSize gone mq tx mq { tx with pc := .full f }
  | room {mq tx} (f : SendFrame) (rb wb : Nat) (h : tx.pc = .checkDetached f rb)
      (hwb : wb = mq.bytesWritten + tx.handle.sendPending) (hdetached : mq.detached = false)
      (hroom : ringSize - (wb - rb) ≠ 0) :
      SendStep ringSize gone mq tx mq
        { tx with
          pc := .copying f (wb % ringSize)
            (min (min (ringSize - (wb - rb)) (f.data.length - f.sent)) (ringSize - wb % ringSize))
            0 }
  | publishBlock {mq tx} (f : SendFrame) (h : tx.pc = .full f) (hnowait : f.call.nowait = true) :
      SendStep ringSize gone mq tx (mq.publish tx) (tx.published.block f)
  | publishWait {mq tx} (f : SendFrame) (h : tx.pc = .full f) (hnowait : f.call.nowait = false) :
      SendStep ringSize gone mq tx (mq.publish tx) { tx.published with pc := .loop f }
  | goneDetached {mq tx} (f : SendFrame) (h : tx.pc = .askGone f) (hdetached : mq.detached = true) :
      SendStep ringSize gone mq tx mq tx.abort
  | goneWorker {mq tx} (f : SendFrame) (h : tx.pc = .askGone f) (hgone : gone = true) :
      SendStep ringSize gone mq tx { mq with detached := true } tx.abort
  | notGone {mq tx} (f : SendFrame) (h : tx.pc = .askGone f) (hdetached : mq.detached = false) :
      SendStep ringSize gone mq tx mq { tx with pc := .askReceiver f }
  | noReceiver {mq tx} (f : SendFrame) (h : tx.pc = .askReceiver f)
      (hreceiver : mq.receiverSet = false) : SendStep ringSize gone mq tx mq (tx.block f)
  | receiver {mq tx} (f : SendFrame) (h : tx.pc = .askReceiver f)
      (hreceiver : mq.receiverSet = true) :
      SendStep ringSize gone mq tx mq { tx.attachedTo with pc := .loop f }
  | waitRead {mq tx} (f : SendFrame) (h : tx.pc = .waitReceiver f) :
      SendStep ringSize gone mq tx mq { tx with pc := .waitDetached f mq.receiverSet }
  | waitDetached {mq tx} (f : SendFrame) (result : Bool) (h : tx.pc = .waitDetached f result)
      (hdetached : mq.detached = true) :
      SendStep ringSize gone mq tx { mq with detached := true } tx.abort
  | waitReceiver {mq tx} (f : SendFrame) (h : tx.pc = .waitDetached f true)
      (hdetached : mq.detached = false) :
      SendStep ringSize gone mq tx mq { tx.attachedTo with pc := .loop f }
  | waitWorker {mq tx} (f : SendFrame) (h : tx.pc = .waitDetached f false) (hgone : gone = true) :
      SendStep ringSize gone mq tx { mq with detached := true } tx.abort
  | waitAgain {mq tx} (f : SendFrame) (h : tx.pc = .waitDetached f false)
      (hdetached : mq.detached = false) :
      SendStep ringSize gone mq tx mq { tx with pc := .waitReceiver f }
  /-- One byte of the `memcpy`. -/
  | copy {mq tx} (f : SendFrame) (offset sendnow i : Nat) (h : tx.pc = .copying f offset sendnow i)
      (hi : i < sendnow) :
      SendStep ringSize gone mq tx
        { mq with ring := Function.update mq.ring (offset + i) (f.data.getD (f.sent + i) 0) }
        { tx with pc := .copying f offset sendnow (i + 1) }
  | copied {mq tx} (f : SendFrame) (offset sendnow i : Nat)
      (h : tx.pc = .copying f offset sendnow i) (hi : sendnow ≤ i) :
      SendStep ringSize gone mq tx mq
        { tx with
          handle := { tx.handle with sendPending := tx.handle.sendPending + maxAlign sendnow }
          pc := .loop { f with sent := f.sent + sendnow } }
  | finishDetached {mq tx} (call : SendCall) (h : tx.pc = .finish call)
      (hdetached : mq.detached = true) : SendStep ringSize gone mq tx mq { tx with pc := .idle }
  | finish {mq tx} (call : SendCall) (h : tx.pc = .finish call) (hdetached : mq.detached = false) :
      SendStep ringSize gone mq tx mq { tx with pc := .finishReceiver call }
  /-- The receiver is looked up, and the bytes are made visible or not. -/
  | finishReceiver {mq tx} (call : SendCall) (h : tx.pc = .finishReceiver call) :
      SendStep ringSize gone mq tx mq
        { tx with
          handle :=
            { tx.handle with
              counterpartyAttached := tx.handle.counterpartyAttached || mq.receiverSet }
          pc := if call.forceFlush || decide (tx.handle.sendPending > ringSize / 4) then .flush call
            else .idle }
  | flush {mq tx} (call : SendCall) (h : tx.pc = .flush call) :
      SendStep ringSize gone mq tx (mq.publish tx) { tx.published with pc := .idle }
  /-- `shm_mq_detach`. -/
  | detach {mq tx} (h : tx.pc = .idle) :
      SendStep ringSize gone mq tx (mq.publish tx) { tx.published with pc := .detaching }
  | detached {mq tx} (h : tx.pc = .detaching) :
      SendStep ringSize gone mq tx { mq with detached := true }
        { tx with pc := .gone, detachedQueue := true }
  /-- The process ends, and the callback of its memory segment detaches it. -/
  | exit {mq tx} (h : tx.pc ≠ .gone) :
      SendStep ringSize gone mq tx { mq with detached := true } { tx with pc := .gone }
  | die {mq tx} (h : tx.pc ≠ .gone) : SendStep ringSize gone mq tx mq { tx with pc := .gone }

/-! ## The receiver -/

/-- The receiver's `shm_mq_handle`. -/
structure RecvHandle where
  buffer : Nat → UInt8
  buflen : Nat
  consumePending : Nat
  partialBytes : Nat
  expectedBytes : Nat
  lengthWordComplete : Bool
  counterpartyAttached : Bool

/-- What `shm_mq_receive` asks `shm_mq_receive_bytes` for. -/
inductive RecvPhase
  | lengthWord
  | whole
  | rest

/-- A call of `shm_mq_receive_bytes`. -/
structure RecvFrame where
  nowait : Bool
  phase : RecvPhase

/-- `bytes_needed`. -/
def RecvHandle.needed (h : RecvHandle) : RecvPhase → Nat
  | .lengthWord => 8 - h.partialBytes
  | .whole => h.expectedBytes
  | .rest => h.expectedBytes - h.partialBytes

/-- Where a received message stands: in the ring itself or in the buffer. -/
inductive Place
  | ring (offset nbytes : Nat)
  | buffer (nbytes : Nat)

inductive RecvPc
  | unattached
  | idle
  /-- The sender is not known: `shm_mq_counterparty_gone`. -/
  | askGone
  /-- `shm_mq_get_sender`, with the answer to the question before. -/
  | askSender (gone : Bool)
  /-- The head of the loop of `shm_mq_wait_internal`. -/
  | waitSender
  /-- `shm_mq_wait_internal` has read the pointer. -/
  | waitDetached (result : Bool)
  /-- `shm_mq_get_sender`, after `shm_mq_wait_internal` has failed. -/
  | askSenderLast
  | start (nowait : Bool)
  /-- The head of the loop of `shm_mq_receive_bytes`. -/
  | loop (f : RecvFrame)
  | short (f : RecvFrame) (written : Nat)
  /-- The queue is detached. -/
  | recheck (f : RecvFrame) (written : Nat)
  /-- What was consumed is about to be given back. -/
  | drain (f : RecvFrame)
  | readLength (nowait : Bool) (rb offset : Nat)
  /-- A `memcpy` out of the ring, of which `i` bytes are done. -/
  | copying (nowait : Bool) (offset rb i : Nat)
  /-- An assertion fails, or an error is raised. -/
  | failed
  | gone

/-- The receiver, with its history: the messages received, the place of the one received last
until the next call, and whether a call has found the queue detached. -/
structure Receiver where
  handle : RecvHandle
  pc : RecvPc
  received : List (List UInt8)
  returned : Option Place
  ended : Bool

def Place.payload (mq : Queue) (h : RecvHandle) : Place → List UInt8
  | .ring offset nbytes => mq.bytes offset nbytes
  | .buffer nbytes => (List.range nbytes).map h.buffer

variable (rx : Receiver)

/-- `shm_mq_receive` returns a message. -/
def Receiver.deliver (mq : Queue) (place : Place) : Receiver :=
  { rx with
    pc := .idle, received := rx.received ++ [place.payload mq rx.handle], returned := some place }

/-- `shm_mq_receive` returns `SHM_MQ_DETACHED`. -/
def Receiver.atEnd : Receiver := { rx with pc := .idle, ended := true }

/-- The loop that copies a message, after a `memcpy` of `rb` bytes. -/
def Receiver.copied (mq : Queue) (nowait : Bool) (rb : Nat) : Receiver :=
  let h := { rx.handle with
    partialBytes := rx.handle.partialBytes + rb
    consumePending := rx.handle.consumePending + maxAlign rb }
  if h.expectedBytes ≤ h.partialBytes then
    { rx with handle := { h with lengthWordComplete := false, partialBytes := 0 } }.deliver mq
      (.buffer h.expectedBytes)
  else { rx with handle := h, pc := .loop ⟨nowait, .rest⟩ }

/-- The part of `shm_mq_receive` after the length word. -/
def Receiver.receiveData (mq : Queue) (nowait : Bool) : Receiver :=
  if maxAllocSize < rx.handle.expectedBytes then { rx with pc := .failed }
  else if rx.handle.partialBytes = 0 then { rx with pc := .loop ⟨nowait, .whole⟩ }
  else rx.copied mq nowait 0

/-- The part of `shm_mq_receive` from the length word on. -/
def Receiver.receive (mq : Queue) (nowait : Bool) : Receiver :=
  if rx.handle.lengthWordComplete then rx.receiveData mq nowait
  else { rx with pc := .loop ⟨nowait, .lengthWord⟩ }

def Receiver.gotLength (mq : Queue) (nowait : Bool) (rb offset nbytes : Nat) :
    Receiver :=
  if 8 + maxAlign nbytes ≤ rb then
    { rx with
      handle :=
        { rx.handle with
          consumePending := rx.handle.consumePending + (8 + maxAlign nbytes) } }.deliver mq
      (.ring (offset + 8) nbytes)
  else
    { rx with
      handle :=
        { rx.handle with
          expectedBytes := nbytes, lengthWordComplete := true
          consumePending := rx.handle.consumePending + 8 } }.receiveData mq nowait

def RecvHandle.allocate (h : RecvHandle) : RecvHandle :=
  if h.buflen < h.expectedBytes then
    { h with buffer := fun _ => 0, buflen := bufferSize h.expectedBytes }
  else h

/-- `shm_mq_receive_bytes` has found `rb` bytes.  A length word that is split fails an
assertion. -/
def Receiver.gotBytes (mq : Queue) (f : RecvFrame) (rb offset : Nat) : Receiver :=
  match f.phase with
  | .lengthWord =>
    if rx.handle.partialBytes = 0 ∧ 8 ≤ rb then { rx with pc := .readLength f.nowait rb offset }
    else { rx with pc := .failed }
  | .whole =>
    if rx.handle.expectedBytes ≤ rb then
      { rx with
        handle :=
          { rx.handle with
            lengthWordComplete := false
            consumePending := rx.handle.consumePending + maxAlign rx.handle.expectedBytes }
        }.deliver mq (.ring offset rx.handle.expectedBytes)
    else { rx with handle := rx.handle.allocate, pc := .copying f.nowait offset rb 0 }
  | .rest =>
    { rx with
      pc := .copying f.nowait offset
        (min rb (rx.handle.expectedBytes - rx.handle.partialBytes)) 0 }

/-- `shm_mq_inc_bytes_read` for the bytes consumed. -/
def Queue.giveBack (mq : Queue) (rx : Receiver) : Queue :=
  { mq with bytesRead := mq.bytesRead + rx.handle.consumePending }

def Receiver.gaveBack : Receiver := { rx with handle := { rx.handle with consumePending := 0 } }

def Receiver.known (nowait : Bool) : Receiver :=
  { rx with handle := { rx.handle with counterpartyAttached := true }, pc := .start nowait }

def Receiver.used (mq : Queue) (written : Nat) : Nat :=
  written - (mq.bytesRead + rx.handle.consumePending)

def Receiver.offset (mq : Queue) (ringSize : Nat) : Nat :=
  (mq.bytesRead + rx.handle.consumePending) % ringSize

/-- A step of the receiver; `gone` says whether the sender's process has ended. -/
inductive RecvStep (ringSize : Nat) (gone : Bool) : Queue → Receiver → Queue → Receiver → Prop
  /-- `shm_mq_set_receiver` and `shm_mq_attach`. -/
  | attach {mq rx} (h : rx.pc = .unattached) :
      RecvStep ringSize gone mq rx { mq with receiverSet := true } { rx with pc := .idle }
  /-- `shm_mq_receive`. -/
  | receive {mq rx} (nowait : Bool) (h : rx.pc = .idle) :
      RecvStep ringSize gone mq rx mq
        { rx with
          returned := none
          pc := if rx.handle.counterpartyAttached then .start nowait
            else if nowait then .askGone else .waitSender }
  | goneDetached {mq rx} (h : rx.pc = .askGone) (hdetached : mq.detached = true) :
      RecvStep ringSize gone mq rx mq { rx with pc := .askSender true }
  | goneWorker {mq rx} (h : rx.pc = .askGone) (hgone : gone = true) :
      RecvStep ringSize gone mq rx { mq with detached := true } { rx with pc := .askSender true }
  | notGone {mq rx} (h : rx.pc = .askGone) (hdetached : mq.detached = false) :
      RecvStep ringSize gone mq rx mq { rx with pc := .askSender false }
  | noSender {mq rx} (wasGone : Bool) (h : rx.pc = .askSender wasGone)
      (hsender : mq.senderSet = false) :
      RecvStep ringSize gone mq rx mq (if wasGone then rx.atEnd else { rx with pc := .idle })
  | sender {mq rx} (wasGone : Bool) (h : rx.pc = .askSender wasGone)
      (hsender : mq.senderSet = true) : RecvStep ringSize gone mq rx mq (rx.known true)
  | waitRead {mq rx} (h : rx.pc = .waitSender) :
      RecvStep ringSize gone mq rx mq { rx with pc := .waitDetached mq.senderSet }
  | waitDetached {mq rx} (result : Bool) (h : rx.pc = .waitDetached result)
      (hdetached : mq.detached = true) :
      RecvStep ringSize gone mq rx mq { rx with pc := .askSenderLast }
  | waitSender {mq rx} (h : rx.pc = .waitDetached true) (hdetached : mq.detached = false) :
      RecvStep ringSize gone mq rx mq (rx.known false)
  | waitWorker {mq rx} (h : rx.pc = .waitDetached false) (hgone : gone = true) :
      RecvStep ringSize gone mq rx mq { rx with pc := .askSenderLast }
  | waitAgain {mq rx} (h : rx.pc = .waitDetached false) (hdetached : mq.detached = false) :
      RecvStep ringSize gone mq rx mq { rx with pc := .waitSender }
  | lastNoSender {mq rx} (h : rx.pc = .askSenderLast) (hsender : mq.senderSet = false) :
      RecvStep ringSize gone mq rx { mq with detached := true } rx.atEnd
  | lastSender {mq rx} (h : rx.pc = .askSenderLast) (hsender : mq.senderSet = true) :
      RecvStep ringSize gone mq rx mq (rx.known false)
  /-- Much has been consumed since the bytes were given back last. -/
  | startGiveBack {mq rx} (nowait : Bool) (h : rx.pc = .start nowait)
      (hmuch : rx.handle.consumePending > ringSize / 4) :
      RecvStep ringSize gone mq rx (mq.giveBack rx) (rx.gaveBack.receive (mq.giveBack rx) nowait)
  | start {mq rx} (nowait : Bool) (h : rx.pc = .start nowait)
      (hfew : rx.handle.consumePending ≤ ringSize / 4) :
      RecvStep ringSize gone mq rx mq (rx.receive mq nowait)
  /-- `mq_bytes_written` is read, and there are enough bytes, or they reach the end of the ring.
  Only the receiver changes `mq_bytes_read`. -/
  | enough {mq rx} (f : RecvFrame) (h : rx.pc = .loop f)
      (henough : rx.handle.needed f.phase ≤ rx.used mq mq.bytesWritten ∨
        ringSize ≤ rx.offset mq ringSize + rx.used mq mq.bytesWritten) :
      RecvStep ringSize gone mq rx mq
        (rx.gotBytes mq f
          (min (rx.used mq mq.bytesWritten) (ringSize - rx.offset mq ringSize))
          (rx.offset mq ringSize))
  | short {mq rx} (f : RecvFrame) (h : rx.pc = .loop f)
      (hfew : rx.used mq mq.bytesWritten < rx.handle.needed f.phase)
      (hring : rx.offset mq ringSize + rx.used mq mq.bytesWritten < ringSize) :
      RecvStep ringSize gone mq rx mq { rx with pc := .short f mq.bytesWritten }
  | shortDetached {mq rx} (f : RecvFrame) (written : Nat) (h : rx.pc = .short f written)
      (hdetached : mq.detached = true) :
      RecvStep ringSize gone mq rx mq { rx with pc := .recheck f written }
  | shortDrain {mq rx} (f : RecvFrame) (written : Nat) (h : rx.pc = .short f written)
      (hdetached : mq.detached = false) :
      RecvStep ringSize gone mq rx mq { rx with pc := .drain f }
  | recheckAgain {mq rx} (f : RecvFrame) (written : Nat) (h : rx.pc = .recheck f written)
      (hwritten : written ≠ mq.bytesWritten) :
      RecvStep ringSize gone mq rx mq { rx with pc := .loop f }
  | recheckEnd {mq rx} (f : RecvFrame) (written : Nat) (h : rx.pc = .recheck f written)
      (hwritten : written = mq.bytesWritten) : RecvStep ringSize gone mq rx mq rx.atEnd
  | drain {mq rx} (f : RecvFrame) (h : rx.pc = .drain f) :
      RecvStep ringSize gone mq rx (mq.giveBack rx)
        { rx.gaveBack with pc := if f.nowait then .idle else .loop f }
  | readLength {mq rx} (nowait : Bool) (rb offset : Nat) (h : rx.pc = .readLength nowait rb offset) :
      RecvStep ringSize gone mq rx mq
        (rx.gotLength mq nowait rb offset (wordValue (mq.bytes offset 8)))
  /-- One byte of the `memcpy`. -/
  | copy {mq rx} (nowait : Bool) (offset rb i : Nat) (h : rx.pc = .copying nowait offset rb i)
      (hi : i < rb) :
      RecvStep ringSize gone mq rx mq
        { rx with
          handle :=
            { rx.handle with
              buffer := Function.update rx.handle.buffer (rx.handle.partialBytes + i)
                (mq.ring (offset + i)) }
          pc := .copying nowait offset rb (i + 1) }
  | copied {mq rx} (nowait : Bool) (offset rb i : Nat) (h : rx.pc = .copying nowait offset rb i)
      (hi : rb ≤ i) : RecvStep ringSize gone mq rx mq (rx.copied mq nowait rb)
  /-- `shm_mq_detach`. -/
  | detach {mq rx} (h : rx.pc = .idle) :
      RecvStep ringSize gone mq rx { mq with detached := true } { rx with pc := .gone }
  /-- The process ends, and the callback of its memory segment detaches it. -/
  | exit {mq rx} (h : rx.pc ≠ .gone) :
      RecvStep ringSize gone mq rx { mq with detached := true } { rx with pc := .gone }
  | die {mq rx} (h : rx.pc ≠ .gone) : RecvStep ringSize gone mq rx mq { rx with pc := .gone }

/-! ## Both together -/

structure World where
  mq : Queue
  tx : Sender
  rx : Receiver

def SendPc.isGone : SendPc → Bool
  | .gone => true
  | _ => false

def RecvPc.isGone : RecvPc → Bool
  | .gone => true
  | _ => false

/-- `shm_mq_create`, with whatever stands in the ring. -/
def World.create (ring : Nat → UInt8) : World where
  mq := ⟨0, 0, ring, false, false, false⟩
  tx := ⟨⟨0, 0, false, false⟩, .unattached, [], 0, none, false, false⟩
  rx := ⟨⟨fun _ => 0, 0, 0, 0, 0, false, false⟩, .unattached, [], none, false⟩

inductive Step (ringSize : Nat) : World → World → Prop
  | send {w mq tx} (h : SendStep ringSize w.rx.pc.isGone w.mq w.tx mq tx) :
      Step ringSize w { w with mq := mq, tx := tx }
  | receive {w mq rx} (h : RecvStep ringSize w.tx.pc.isGone w.mq w.rx mq rx) :
      Step ringSize w { w with mq := mq, rx := rx }

inductive Reachable (ringSize : Nat) : World → Prop
  | create (ring : Nat → UInt8) : Reachable ringSize (World.create ring)
  | step {w w'} (h : Reachable ringSize w) (hstep : Step ringSize w w') : Reachable ringSize w'

end AthenaPG.ShmMq
