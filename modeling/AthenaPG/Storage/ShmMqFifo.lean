import AthenaPG.Storage.ShmMqSend

/-!
A shared memory queue is a FIFO of messages, over every interleaving of its two sides.

The receiver is at the beginning of the message that comes after those it has returned, or
inside that message with the first part of it in its buffer.  What it reads lies between the
two counters, where the sender does not write.

* `Before`, `Part`, `RecvInv`: what holds of the receiver;
* `recvStep_inv`: what every step of the receiver keeps;
* **`shmMq_fifo`**: the messages received are the first ones sent, in order and byte for
  byte; the bytes in use never exceed the ring; and once a receiver is told that a sender
  has detached by `shm_mq_detach`, it has received every message that was written;
* `shmMq_exit_loses`: after a sender that ends otherwise it may not have.
-/

namespace AthenaPG.ShmMq
open List Receiver RecvHandle Function

/-! ## What holds of the receiver -/

/-- What the receiver's state means: the position up to which it has read, its place in the
message, and its history. -/
structure RecvView where
  read : Nat
  bytesWritten : Nat
  buffer : Nat → UInt8
  buflen : Nat
  partialBytes : Nat
  expectedBytes : Nat
  lengthWordComplete : Bool
  sent : List Message
  count : Nat

def Receiver.view (rx : Receiver) (mq : Queue) (sent : List Message) : RecvView :=
  ⟨mq.bytesRead + rx.handle.consumePending, mq.bytesWritten, rx.handle.buffer, rx.handle.buflen,
    rx.handle.partialBytes, rx.handle.expectedBytes, rx.handle.lengthWordComplete, sent,
    rx.received.length⟩

/-- The receiver is at the beginning of a message. -/
structure Before (v : RecvView) : Prop where
  word : v.lengthWordComplete = false
  partialBytes : v.partialBytes = 0
  read : v.read = position v.sent v.count

/-- The receiver is inside a message. -/
structure Part (v : RecvView) (m : Message) : Prop where
  word : v.lengthWordComplete = true
  message : v.sent[v.count]? = some m
  expected : v.expectedBytes = m.payload.length
  read : v.read = position v.sent v.count + (8 + v.partialBytes)
  partial8 : 8 ∣ v.partialBytes
  partial_lt : v.partialBytes < m.payload.length
  buffered : ∀ i < v.partialBytes, m.payload[i]? = some (v.buffer i)
  allocated : 0 < v.partialBytes → v.expectedBytes ≤ v.buflen

def AtMessage (v : RecvView) : Prop := Before v ∨ ∃ m, Part v m

def PhaseOk (v : RecvView) : RecvPhase → Prop
  | .lengthWord => Before v
  | .whole => v.partialBytes = 0 ∧ ∃ m, Part v m
  | .rest => 0 < v.partialBytes ∧ ∃ m, Part v m

variable {phase : RecvPhase} {m : Message} {rb offset : Nat} {gone : Bool} {messages : List Message}
  {sp cp n : Nat} {nw : Bool}

theorem PhaseOk.atMessage {v : RecvView} (h : PhaseOk v phase) : AtMessage v := by
  cases phase with
  | lengthWord => exact .inl h
  | whole | rest => exact .inr h.2

def RecvView.needed (v : RecvView) : RecvPhase → Nat
  | .lengthWord => 8 - v.partialBytes
  | .whole => v.expectedBytes
  | .rest => v.expectedBytes - v.partialBytes

/-- Bytes that can be read in one piece. -/
structure GotOk (ringSize : Nat) (v : RecvView) (rb offset : Nat) : Prop where
  offset_eq : offset = v.read % ringSize
  inRing : offset + rb ≤ ringSize
  written : v.read + rb ≤ v.bytesWritten

/-- A `memcpy` of the next part of a message. -/
structure CopyingOk (v : RecvView) (m : Message) (rb i : Nat) : Prop where
  allocated : v.expectedBytes ≤ v.buflen
  pos : 0 < rb
  inside : v.partialBytes + rb ≤ m.payload.length
  whole : 8 ∣ rb ∨ v.partialBytes + rb = m.payload.length
  le : i ≤ rb
  done : ∀ j < i, m.payload[v.partialBytes + j]? = some (v.buffer (v.partialBytes + j))

def RecvPcInv (ringSize : Nat) (v : RecvView) (gone : Bool) : RecvPc → Prop
  | .unattached | .idle | .askGone | .waitSender | .waitDetached _ | .start _ => AtMessage v
  | .askSender wasGone => AtMessage v ∧ (wasGone = true → gone = true)
  | .askSenderLast => AtMessage v ∧ gone = true
  | .loop f | .drain f => PhaseOk v f.phase
  | .short f written =>
    PhaseOk v f.phase ∧ written ≤ v.bytesWritten ∧ written - v.read < v.needed f.phase
  | .recheck f written =>
    PhaseOk v f.phase ∧ written - v.read < v.needed f.phase ∧ gone = true
  | .readLength _ rb offset => Before v ∧ GotOk ringSize v rb offset ∧ 8 ≤ rb
  | .copying _ offset rb i => ∃ m, Part v m ∧ GotOk ringSize v rb offset ∧ CopyingOk v m rb i
  | .failed => False
  | .gone => True

/-- The message returned last stands at the place that was returned. -/
def ReturnedOk (ringSize : Nat) (mq : Queue) (sent : List Message) (rx : Receiver) :
    Place → Prop
  | .ring offset nbytes => ∃ p last, mq.bytesRead ≤ p ∧ p + nbytes ≤ mq.bytesWritten ∧
      (∀ j < nbytes, (p + j) % ringSize = offset + j) ∧ rx.received.getLast? = some last ∧
      last.length = nbytes ∧ ∀ j b, last[j]? = some b → (stream sent)[p + j]? = some (some b)
  | .buffer nbytes => rx.received.getLast? = some ((List.range nbytes).map rx.handle.buffer)

structure RecvInv (ringSize : Nat) (mq : Queue) (tx : Sender) (rx : Receiver) : Prop where
  received : rx.received = (tx.sent.map Message.payload).take rx.received.length
  returned : ∀ place, rx.returned = some place → ReturnedOk ringSize mq tx.sent rx place
  inCall : rx.pc ≠ .idle → rx.pc ≠ .gone → rx.returned = none
  ended : rx.ended = true → tx.pc = .gone ∧
    (tx.detachedQueue = true → tx.completed ≤ rx.received.length)
  pc : RecvPcInv ringSize (rx.view mq tx.sent) tx.pc.isGone rx.pc

open RecvInv

variable {size : Nat} {mq mq' : Queue} {tx tx' : Sender} {rx rx' : Receiver}

theorem RecvInv.count_le (h : RecvInv size mq tx rx) : rx.received.length ≤ tx.sent.length := by
  have hl := congrArg List.length h.received
  rw [length_take, length_map] at hl
  omega

theorem Part.here (h : Part (rx.view mq tx.sent) m) :
    mq.bytesRead + rx.handle.consumePending =
      position tx.sent rx.received.length + (8 + rx.handle.partialBytes) ∧
    8 ∣ rx.handle.partialBytes ∧ rx.handle.partialBytes < m.payload.length ∧
    rx.handle.expectedBytes = m.payload.length := ⟨h.read, h.partial8, h.partial_lt, h.expected⟩

theorem GotOk.within (h : GotOk size (rx.view mq tx.sent) rb offset) :
    mq.bytesRead + rx.handle.consumePending + rb ≤ mq.bytesWritten := h.written

/-! ## What the sender does is harmless -/

structure Extends (v v' : RecvView) : Prop where
  read : v'.read = v.read
  written : v.bytesWritten ≤ v'.bytesWritten
  buffer : v'.buffer = v.buffer
  buflen : v'.buflen = v.buflen
  partialBytes : v'.partialBytes = v.partialBytes
  expectedBytes : v'.expectedBytes = v.expectedBytes
  word : v'.lengthWordComplete = v.lengthWordComplete
  sent : ∃ more, v'.sent = v.sent ++ more
  count : v'.count = v.count
  count_le : v.count ≤ v.sent.length

variable {v v' : RecvView}

theorem Extends.position_eq (h : Extends v v') :
    position v'.sent v'.count = position v.sent v.count := by
  obtain ⟨more, hm⟩ := h.sent
  rw [hm, h.count, position_append h.count_le]

theorem Before.extend (h : Before v) (he : Extends v v') : Before v' :=
  ⟨he.word.trans h.word, he.partialBytes.trans h.partialBytes,
    he.read.trans (h.read.trans he.position_eq.symm)⟩

theorem Part.extend (h : Part v m) (he : Extends v v') : Part v' m := by
  obtain ⟨more, hm⟩ := he.sent
  have hlt := (List.getElem?_eq_some_iff.mp h.message).1
  refine ⟨he.word.trans h.word, ?_, he.expectedBytes.trans h.expected, ?_, ?_, ?_, ?_, ?_⟩
  · rw [hm, he.count, getElem?_append_left hlt]
    exact h.message
  · rw [he.read, he.position_eq, he.partialBytes]
    exact h.read
  · rw [he.partialBytes]
    exact h.partial8
  · rw [he.partialBytes]
    exact h.partial_lt
  · rw [he.partialBytes, he.buffer]
    exact h.buffered
  rw [he.partialBytes, he.expectedBytes, he.buflen]
  exact h.allocated

theorem AtMessage.extend (h : AtMessage v) (he : Extends v v') : AtMessage v' := by
  obtain h | ⟨m, h⟩ := h
  · exact .inl (h.extend he)
  · exact .inr ⟨m, h.extend he⟩

theorem PhaseOk.extend (h : PhaseOk v phase) (he : Extends v v') : PhaseOk v' phase := by
  cases phase with
  | lengthWord => exact Before.extend h he
  | whole => exact ⟨he.partialBytes.trans h.1, h.2.imp fun _ hp => hp.extend he⟩
  | rest => exact ⟨he.partialBytes ▸ h.1, h.2.imp fun _ hp => hp.extend he⟩

theorem Extends.needed_eq (he : Extends v v') (phase : RecvPhase) :
    v'.needed phase = v.needed phase := by
  cases phase <;> simp only [RecvView.needed, he.partialBytes, he.expectedBytes]

theorem GotOk.extend (h : GotOk size v rb offset) (he : Extends v v') :
    GotOk size v' rb offset := by
  have hw := h.written
  have hm := he.written
  refine ⟨?_, h.inRing, ?_⟩
  · rw [he.read]
    exact h.offset_eq
  rw [he.read]
  omega

theorem CopyingOk.extend {i : Nat} (h : CopyingOk v m rb i) (he : Extends v v') :
    CopyingOk v' m rb i := by
  refine ⟨?_, h.pos, ?_, ?_, h.le, ?_⟩
  · rw [he.expectedBytes, he.buflen]
    exact h.allocated
  · rw [he.partialBytes]
    exact h.inside
  · rw [he.partialBytes]
    exact h.whole
  rw [he.partialBytes, he.buffer]
  exact h.done

theorem RecvPcInv.extend {pc : RecvPc} (h : RecvPcInv size v false pc) (he : Extends v v') :
    RecvPcInv size v' gone pc := by
  cases pc with
  | unattached | idle | askGone | waitSender | waitDetached result | start nw =>
    exact AtMessage.extend h he
  | askSender wasGone => exact ⟨h.1.extend he, fun hg => absurd (h.2 hg) (by simp)⟩
  | askSenderLast => exact absurd h.2 (by simp)
  | loop f | drain f => exact PhaseOk.extend h he
  | short f written =>
    refine ⟨h.1.extend he, h.2.1.trans he.written, ?_⟩
    rw [he.read, he.needed_eq]
    exact h.2.2
  | recheck f written => exact absurd h.2.2 (by simp)
  | readLength nw rb offset => exact ⟨h.1.extend he, h.2.1.extend he, h.2.2⟩
  | copying nw offset rb i =>
    obtain ⟨m, hpr, hgt, hc⟩ := h
    exact ⟨m, hpr.extend he, hgt.extend he, hc.extend he⟩
  | failed => exact h.elim
  | gone => trivial

theorem SendStep.frame (hs : SendStep size gone mq tx mq' tx') :
    mq'.bytesRead = mq.bytesRead ∧ mq.bytesWritten ≤ mq'.bytesWritten ∧
      (∃ more, tx'.sent = tx.sent ++ more) ∧ tx.pc ≠ .gone := by
  cases hs with
  | send call h => exact ⟨rfl, le_refl _, ⟨[call.message], (sendv_keeps _ call).1⟩, by simp [h]⟩
  | retry call h | sentAll f h => exact ⟨rfl, le_refl _, ⟨[], by simp⟩, by simp [h]⟩
  | publishBlock _ h | publishWait _ h | flush _ h | detach h =>
    exact ⟨rfl, Nat.le_add_right _ _, ⟨[], (append_nil _).symm⟩, by simp [h]⟩
  | exit h | die h => exact ⟨rfl, le_refl _, ⟨[], (append_nil _).symm⟩, h⟩
  | _ => exact ⟨rfl, le_refl _, ⟨[], (append_nil _).symm⟩, by simp [*]⟩

theorem RecvInv.frame (h : RecvInv size mq tx rx)
    (hst : SendStep size gone mq tx mq' tx') : RecvInv size mq' tx' rx := by
  obtain ⟨hr, hw, ⟨more, hm⟩, ha⟩ := hst.frame
  have hc := h.count_le
  have hg : tx.pc.isGone = false := by cases hpc : tx.pc <;> first | rfl | exact absurd hpc ha
  refine ⟨?_, ?_, h.inCall, fun hended => absurd (h.ended hended).1 ha, ?_⟩
  · rw [hm, map_append, take_append_of_le_length (by simpa using hc)]
    exact h.received
  · intro place hpl
    have ho := h.returned place hpl
    cases place with
    | ring offset nbytes =>
      obtain ⟨p, last, hp, he, hsl, hl, hln, hby⟩ := ho
      refine ⟨p, last, hr ▸ hp, he.trans hw, hsl, hl, hln, ?_⟩
      intro j b hb
      have hs := hby j b hb
      rw [hm, stream_append, getElem?_append_left (List.getElem?_eq_some_iff.mp hs).1]
      exact hs
    | buffer nbytes => exact ho
  have hpc := h.pc
  rw [hg] at hpc
  refine hpc.extend ⟨?_, hw, rfl, rfl, rfl, rfl, rfl, ⟨more, hm⟩, rfl, hc⟩
  dsimp only [view]
  rw [hr]

/-! ## Reading from the ring -/

theorem QueueInv.bytes {p : Nat} {bytes : List UInt8} (h : QueueInv size mq messages sp cp)
    (hr : mq.bytesRead ≤ p) (hw : p + bytes.length ≤ mq.bytesWritten)
    (hs : ∀ j < bytes.length, (p + j) % size = offset + j)
    (hb : ∀ j b, bytes[j]? = some b → (stream messages)[p + j]? = some (some b)) :
    mq.bytes offset bytes.length = bytes := by
  refine ext_getElem (by simp [Queue.bytes]) fun j hj hj' => ?_
  simp only [Queue.bytes, getElem_map, getElem_range]
  rw [← hs j hj']
  exact h.ring (p + j) (by omega) (by omega) _ (hb j _ (getElem?_eq_getElem hj'))

theorem GotOk.slots {d : Nat} (h : GotOk size v rb offset) (hn : d + n ≤ rb) :
    ∀ j < n, (v.read + d + j) % size = offset + d + j := by
  intro j hj
  have hin := h.inRing
  have ho := h.offset_eq
  rw [add_assoc, mod_add_of_lt (by omega), ← ho, add_assoc]

theorem stream_payload {ms : List Message} {k : Nat} (h : ms[k]? = some m) (j : Nat) (b : UInt8)
    (hb : m.payload[j]? = some b) : (stream ms)[position ms k + 8 + j]? = some (some b) := by
  rw [add_assoc]
  refine stream_word h ?_
  rw [Message.words, getElem?_append_right (by rw [length_lengthWord]; omega),
    length_lengthWord, Nat.add_sub_cancel_left]
  exact hb

theorem received_concat {ms : List Message} {received : List (List UInt8)}
    (h : received = (ms.map Message.payload).take received.length)
    (hm : ms[received.length]? = some m) :
    received ++ [m.payload] = (ms.map Message.payload).take (received ++ [m.payload]).length := by
  rw [length_append, length_singleton, take_add_one, getElem?_map, hm, ← h]
  rfl

theorem lengthWord_read (hq : QueueInv size mq tx.sent sp rx.handle.consumePending)
    (hc : rx.received.length ≤ tx.sent.length) (hbf : Before (rx.view mq tx.sent))
    (hg : GotOk size (rx.view mq tx.sent) rb offset) (hrb : 8 ≤ rb) :
    ∃ m, tx.sent[rx.received.length]? = some m ∧
      wordValue (mq.bytes offset 8) = m.payload.length := by
  have hr : mq.bytesRead + rx.handle.consumePending = position tx.sent rx.received.length :=
    hbf.read
  have hwr := hg.within
  have hst := hq.inStream
  obtain ⟨m, hm⟩ := message_of_position_lt hc
    (n := position tx.sent rx.received.length + rb) (by omega) (by omega)
  refine ⟨m, hm, ?_⟩
  have hl := length_lengthWord m.payload.length
  have hs : ∀ j < (lengthWord m.payload.length).length,
      (mq.bytesRead + rx.handle.consumePending + j) % size = offset + j := by
    rw [hl]
    exact hg.slots (d := 0) (n := 8) (by omega)
  have hw : ∀ j b, (lengthWord m.payload.length)[j]? = some b →
      (stream tx.sent)[mq.bytesRead + rx.handle.consumePending + j]? = some (some b) := by
    intro j b hb
    rw [hr]
    refine stream_word hm ?_
    rw [Message.words, getElem?_append_left (List.getElem?_eq_some_iff.mp hb).1]
    exact hb
  have hby := hq.bytes (Nat.le_add_right _ _) (by omega) hs hw
  rw [hl] at hby
  rw [hby, lengthWord, wordValue_wordBytes, Nat.mod_eq_of_lt]
  have hbn := m.bounded
  unfold maxAllocSize at hbn
  unfold Message.payload
  omega

/-! ## Steps within a message -/

section

variable {place : Place}
  (hre : rx.received = (tx.sent.map Message.payload).take rx.received.length)
  (hended : rx.ended = true → tx.pc = .gone ∧
    (tx.detachedQueue = true → tx.completed ≤ rx.received.length))
include hre hended

theorem RecvInv.of_none (hnn : rx.returned = none)
    (hpc : RecvPcInv size (rx.view mq tx.sent) tx.pc.isGone rx.pc) : RecvInv size mq tx rx := by
  refine ⟨hre, ?_, fun _ _ => hnn, hended, hpc⟩
  intro place hp
  rw [hnn] at hp
  cases hp

theorem deliver_inv
    (hm : tx.sent[rx.received.length]? = some m) (hp : place.payload mq rx.handle = m.payload)
    (hr : ReturnedOk size mq tx.sent (rx.deliver mq place) place)
    (hw : rx.handle.lengthWordComplete = false) (hn : rx.handle.partialBytes = 0)
    (hrd : mq.bytesRead + rx.handle.consumePending =
      position tx.sent rx.received.length + (8 + maxAlign m.payload.length)) :
    RecvInv size mq tx (rx.deliver mq place) := by
  have hl : (rx.deliver mq place).received = rx.received ++ [m.payload] := by
    rw [← hp]
    rfl
  have hln : (rx.deliver mq place).received.length = rx.received.length + 1 := by
    rw [hl, length_append]
    rfl
  refine ⟨?_, ?_, fun hne => absurd rfl hne, ?_, .inl ⟨hw, hn, ?_⟩⟩
  · rw [hl]
    exact received_concat hre hm
  · intro place' hpl'
    cases hpl'
    exact hr
  · intro he
    rw [hln]
    exact (hended he).imp_right fun h hd => (h hd).trans (Nat.le_succ _)
  dsimp only [view]
  rw [hln, position_succ hm]
  exact hrd

theorem deliverRing_inv {d base : Nat} {v : RecvView}
    (hm : tx.sent[rx.received.length]? = some m) (hq : QueueInv size mq tx.sent sp cp)
    (hg : GotOk size v rb base) (hv : v.bytesWritten = mq.bytesWritten)
    (hb : mq.bytesRead ≤ v.read) (ho : offset = base + d)
    (hr8 : v.read + d = position tx.sent rx.received.length + 8)
    (hf : d + m.payload.length ≤ rb) (hw : rx.handle.lengthWordComplete = false)
    (hn : rx.handle.partialBytes = 0)
    (hr : mq.bytesRead + rx.handle.consumePending =
      position tx.sent rx.received.length + (8 + maxAlign m.payload.length)) :
    RecvInv size mq tx (rx.deliver mq (.ring offset m.payload.length)) := by
  have hwr := hg.written
  have hsl : ∀ j < m.payload.length, (v.read + d + j) % size = offset + j := by
    rw [ho]
    exact hg.slots hf
  have hs : ∀ j b, m.payload[j]? = some b → (stream tx.sent)[v.read + d + j]? = some (some b) := by
    rw [hr8]
    exact stream_payload hm
  have hp := hq.bytes (by omega) (by omega) hsl hs
  refine deliver_inv hre hended hm hp ?_ hw hn hr
  refine ⟨v.read + d, m.payload, by omega, by omega, hsl, ?_, rfl, hs⟩
  simp only [deliver, Place.payload, hp]
  exact getLast?_concat

end

theorem QueueInv.consume (h : QueueInv size mq messages sp cp) (hn : 8 ∣ n)
    (hr : mq.bytesRead + cp + n ≤ mq.bytesWritten) : QueueInv size mq messages sp (cp + n) :=
  { h with
    consume8 := dvd_add h.consume8 hn
    read_le := by omega }

theorem QueueInv.giveBack (h : QueueInv size mq messages sp rx.handle.consumePending) :
    QueueInv size (mq.giveBack rx) messages sp 0 where
  read8 := dvd_add h.read8 h.consume8
  written8 := h.written8
  send8 := h.send8
  consume8 := dvd_zero 8
  read_le := h.read_le
  room := h.room.trans (Nat.add_le_add_right (Nat.le_add_right _ _) _)
  inStream := h.inStream
  ring := fun n hn hw b hb => h.ring n ((Nat.le_add_right _ _).trans hn) hw b hb

section

variable (hq : QueueInv size mq tx.sent sp rx.handle.consumePending)
  (hre : rx.received = (tx.sent.map Message.payload).take rx.received.length)
  (hnn : rx.returned = none)
  (hended : rx.ended = true → tx.pc = .gone ∧
    (tx.detachedQueue = true → tx.completed ≤ rx.received.length))
  (hpr : Part (rx.view mq tx.sent) m)
include hq hre hnn hended hpr

theorem copied_recv (hps : 0 < rx.handle.partialBytes + rb)
    (hi : rx.handle.partialBytes + rb ≤ m.payload.length)
    (hwh : 8 ∣ rb ∨ rx.handle.partialBytes + rb = m.payload.length)
    (hwr : mq.bytesRead + rx.handle.consumePending + rb ≤ mq.bytesWritten)
    (ha : rx.handle.expectedBytes ≤ rx.handle.buflen)
    (hd : ∀ i < rx.handle.partialBytes + rb, m.payload[i]? = some (rx.handle.buffer i)) :
    QueueInv size mq tx.sent sp (rx.copied mq nw rb).handle.consumePending ∧
      RecvInv size mq tx (rx.copied mq nw rb) := by
  have hm := hpr.message
  obtain ⟨hr, hp8, -, he⟩ := hpr.here
  have hal : mq.bytesRead + rx.handle.consumePending + maxAlign rb ≤ mq.bytesWritten := by
    have h8 := dvd_add hq.read8 hq.consume8
    have hw8 := hq.written8
    have := maxAlign_le (n := rb) (k := mq.bytesWritten - (mq.bytesRead + rx.handle.consumePending))
      (by omega) (by omega)
    omega
  have hq' := hq.consume (dvd_maxAlign rb) hal
  unfold Receiver.copied
  dsimp only
  split
  next hen =>
    have hall : rx.handle.partialBytes + rb = m.payload.length := by omega
    have hs : rx.handle.partialBytes + maxAlign rb = maxAlign m.payload.length := by
      rw [← maxAlign_add hp8, hall]
    have hb : (List.range m.payload.length).map rx.handle.buffer = m.payload := by
      refine ext_getElem (by simp) fun j hj hj' => ?_
      rw [getElem_map, getElem_range]
      exact Option.some.inj ((hd j (by omega)).symm.trans (getElem?_eq_getElem hj'))
    refine ⟨hq', deliver_inv hre hended hm ?_ ?_ rfl rfl ?_⟩
    · change (List.range rx.handle.expectedBytes).map rx.handle.buffer = m.payload
      rw [he, hb]
    · exact getLast?_concat
    dsimp only [view]
    omega
  next hmr =>
    have hlt : rx.handle.partialBytes + rb < m.payload.length := by omega
    have hrb8 : 8 ∣ rb := hwh.resolve_right hlt.ne
    refine ⟨hq', of_none hre hended hnn ⟨hps, m, ?_⟩⟩
    refine ⟨hpr.word, hm, he, ?_, dvd_add hp8 hrb8, hlt, hd, fun _ => ha⟩
    dsimp only [view]
    rw [maxAlign_of_dvd hrb8]
    omega

theorem receiveData_inv :
    QueueInv size mq tx.sent sp (rx.receiveData mq nw).handle.consumePending ∧
      RecvInv size mq tx (rx.receiveData mq nw) := by
  obtain ⟨-, -, hlt, he⟩ := hpr.here
  have hb : m.payload.length ≤ maxAllocSize := m.bounded
  unfold receiveData
  rw [if_neg (by omega)]
  split
  next hz => exact ⟨hq, of_none hre hended hnn ⟨hz, m, hpr⟩⟩
  next hp =>
    have hp := pos_of_ne_zero hp
    exact copied_recv hq hre hnn hended hpr hp hlt.le (.inl (dvd_zero 8)) hq.read_le
      (hpr.allocated hp) hpr.buffered

end

theorem gotLength_inv (hq : QueueInv size mq tx.sent sp rx.handle.consumePending)
    (h : RecvInv size mq tx rx) (hnn : rx.returned = none)
    (hb : Before (rx.view mq tx.sent)) (hg : GotOk size (rx.view mq tx.sent) rb offset)
    (hrb : 8 ≤ rb) :
    QueueInv size mq tx.sent sp
        (rx.gotLength mq nw rb offset (wordValue (mq.bytes offset 8))).handle.consumePending ∧
      RecvInv size mq tx (rx.gotLength mq nw rb offset (wordValue (mq.bytes offset 8))) := by
  obtain ⟨m, hm, hv⟩ := lengthWord_read hq h.count_le hb hg hrb
  have hr : mq.bytesRead + rx.handle.consumePending = position tx.sent rx.received.length := hb.read
  have hw := hg.within
  have ha := le_maxAlign m.payload.length
  have ha8 := dvd_maxAlign m.payload.length
  rw [hv]
  unfold gotLength
  split
  next hf =>
    refine ⟨hq.consume (by omega) (by omega), ?_⟩
    refine deliverRing_inv (d := 8) h.received h.ended hm hq hg rfl (Nat.le_add_right _ _) rfl ?_
      (by omega) hb.word hb.partialBytes ?_
    · exact congrArg (· + 8) hr
    rw [← hr, add_assoc]
  rename_i hs
  have hn : rx.handle.partialBytes = 0 := hb.partialBytes
  have hl : 0 < m.payload.length := by
    obtain h0 | h0 := eq_zero_or_pos m.payload.length
    · rw [h0] at hs
      exact absurd hrb hs
    exact h0
  refine receiveData_inv (hq.consume (dvd_refl 8) (by omega)) h.received hnn h.ended
    ⟨rfl, hm, rfl, ?_, ?_, ?_, ?_, ?_⟩
  · dsimp only [view]
    omega
  · dsimp only [view]
    omega
  · dsimp only [view]
    omega
  · intro i hi
    dsimp only [view] at hi
    omega
  intro hp
  dsimp only [view] at hp
  omega

theorem le_bufferSize (h : n ≤ maxAllocSize) : n ≤ bufferSize n :=
  le_min (Nat.le_pow_clog (by decide) n) h

theorem gotBytes_inv {f : RecvFrame} (hs : 8 ∣ size) (hps : 0 < size)
    (hq : QueueInv size mq tx.sent sp rx.handle.consumePending) (h : RecvInv size mq tx rx)
    (hnn : rx.returned = none) (hp : PhaseOk (rx.view mq tx.sent) f.phase)
    (he : rx.handle.needed f.phase ≤ rx.used mq mq.bytesWritten ∨
      size ≤ rx.offset mq size + rx.used mq mq.bytesWritten) :
    QueueInv size mq tx.sent sp (rx.gotBytes mq f
        (min (rx.used mq mq.bytesWritten) (size - rx.offset mq size))
        (rx.offset mq size)).handle.consumePending ∧
      RecvInv size mq tx (rx.gotBytes mq f
        (min (rx.used mq mq.bytesWritten) (size - rx.offset mq size))
        (rx.offset mq size)) := by
  have hr8 := dvd_add hq.read8 hq.consume8
  have hread_le := hq.read_le
  have hu : rx.used mq mq.bytesWritten =
    mq.bytesWritten - (mq.bytesRead + rx.handle.consumePending) := rfl
  have hu8 : 8 ∣ rx.used mq mq.bytesWritten := by
    have := hq.written8
    omega
  have ho8 : 8 ∣ rx.offset mq size := (Nat.dvd_mod_iff hs).mpr hr8
  have ho : rx.offset mq size < size := Nat.mod_lt _ hps
  generalize hrb : min (rx.used mq mq.bytesWritten) (size - rx.offset mq size) = rb
  have hg : GotOk size (rx.view mq tx.sent) rb (rx.offset mq size) := by
    refine ⟨rfl, by omega, ?_⟩
    dsimp only [view]
    omega
  have hrb8 : 8 ∣ rb := by omega
  unfold gotBytes
  cases hcs : f.phase with
  | lengthWord =>
    rw [hcs] at hp he
    have hn : rx.handle.partialBytes = 0 := hp.partialBytes
    have he8 : 8 ≤ rb := by
      simp only [needed] at he
      omega
    rw [if_pos ⟨hn, he8⟩]
    exact ⟨hq, of_none h.received h.ended hnn ⟨hp, hg, he8⟩⟩
  | whole =>
    rw [hcs] at hp he
    obtain ⟨hz, m, hpr⟩ := hp
    have hz : rx.handle.partialBytes = 0 := hz
    obtain ⟨hr, -, hlt, hex⟩ := hpr.here
    have hw := hg.within
    simp only
    split
    next hft =>
      rw [hex] at hft ⊢
      have ha := maxAlign_le hft hrb8
      refine ⟨hq.consume (dvd_maxAlign _) (by omega), ?_⟩
      refine deliverRing_inv (d := 0) h.received h.ended hpr.message hq hg rfl
        (Nat.le_add_right _ _) rfl ?_ (by omega) rfl hz ?_
      · dsimp only [view]
        omega
      dsimp only [view]
      omega
    rename_i hwr
    have hc : rx.handle.allocate.consumePending = rx.handle.consumePending := by
      unfold allocate
      split <;> rfl
    have hrm : rx.handle.expectedBytes ≤ rx.handle.allocate.buflen := by
      unfold allocate
      split
      · refine le_bufferSize ?_
        rw [hex]
        exact m.bounded
      · omega
    have hf : rx.handle.allocate.lengthWordComplete = rx.handle.lengthWordComplete ∧
        rx.handle.allocate.expectedBytes = rx.handle.expectedBytes ∧
        rx.handle.allocate.partialBytes = rx.handle.partialBytes := by
      unfold allocate
      split <;> exact ⟨rfl, rfl, rfl⟩
    refine ⟨hc.symm ▸ hq, of_none h.received h.ended hnn ⟨m, ?_, ?_, ?_⟩⟩
    · refine ⟨hf.1.trans hpr.word, hpr.message, hf.2.1.trans hex, ?_, ?_, ?_, ?_, ?_⟩
      all_goals simp only [view, hc, hf.2.1, hf.2.2]
      · exact hr
      · exact hpr.partial8
      · exact hlt
      · intro i hi
        omega
      · intro hps'
        omega
    · refine ⟨?_, hg.inRing, ?_⟩
      all_goals simp only [view, hc]
      · exact hg.offset_eq
      · exact hw
    refine ⟨?_, ?_, ?_, .inl hrb8, Nat.zero_le _, fun j hj => absurd hj (Nat.not_lt_zero j)⟩
    · simp only [view, hf.2.1]
      exact hrm
    · simp only [needed] at he
      omega
    simp only [view, hf.2.2]
    omega
  | rest =>
    rw [hcs] at hp he
    obtain ⟨hn, m, hpr⟩ := hp
    obtain ⟨-, -, hlt, hex⟩ := hpr.here
    simp only [needed] at he
    refine ⟨hq, of_none h.received h.ended hnn ⟨m, hpr, ⟨rfl, ?_, ?_⟩,
      hpr.allocated hn, ?_, ?_, ?_, Nat.zero_le _,
      fun j hj => absurd hj (Nat.not_lt_zero j)⟩⟩
    · omega
    · dsimp only [view]
      omega
    · omega
    · dsimp only [view]
      omega
    dsimp only [view]
    omega

section

variable (hq : QueueInv size mq tx.sent sp rx.handle.consumePending)
include hq

theorem receive_inv (hre : rx.received = (tx.sent.map Message.payload).take rx.received.length)
    (hnn : rx.returned = none)
    (hen : rx.ended = true → tx.pc = .gone ∧
      (tx.detachedQueue = true → tx.completed ≤ rx.received.length))
    (hat : AtMessage (rx.view mq tx.sent)) :
    QueueInv size mq tx.sent sp (rx.receive mq nw).handle.consumePending ∧
      RecvInv size mq tx (rx.receive mq nw) := by
  unfold Receiver.receive
  obtain hb | ⟨m, hpr⟩ := hat
  · have hw : rx.handle.lengthWordComplete = false := hb.word
    rw [if_neg (by simp [hw])]
    exact ⟨hq, of_none hre hen hnn hb⟩
  have hw : rx.handle.lengthWordComplete = true := hpr.word
  rw [if_pos hw]
  exact receiveData_inv hq hre hnn hen hpr

theorem copyByte_inv {i : Nat}
    (hpr : Part (rx.view mq tx.sent) m) (hg : GotOk size (rx.view mq tx.sent) rb offset)
    (hc : CopyingOk (rx.view mq tx.sent) m rb i) (hi : i < rb) :
    Part { rx.view mq tx.sent with
        buffer := update rx.handle.buffer (rx.handle.partialBytes + i) (mq.ring (offset + i)) } m ∧
      CopyingOk { rx.view mq tx.sent with
        buffer := update rx.handle.buffer (rx.handle.partialBytes + i)
          (mq.ring (offset + i)) } m rb (i + 1) := by
  have hin : rx.handle.partialBytes + rb ≤ m.payload.length := hc.inside
  obtain ⟨hr, -⟩ := hpr.here
  have hw := hg.within
  have hlt : rx.handle.partialBytes + i < m.payload.length := by omega
  -- the byte of the ring is the byte of the message
  have hb : mq.ring (offset + i) = m.payload[rx.handle.partialBytes + i] := by
    have hsl : (mq.bytesRead + rx.handle.consumePending + i) % size = offset + i :=
      hg.slots (d := 0) (n := rb) (by omega) i hi
    have hs := stream_payload hpr.message (rx.handle.partialBytes + i)
      m.payload[rx.handle.partialBytes + i] (getElem?_eq_getElem hlt)
    rw [← hsl]
    refine hq.ring _ (by omega) (by omega) _ ?_
    rw [← hs]
    congr 1
    dsimp only [view]
    omega
  constructor
  · refine { hpr with buffered := ?_ }
    intro j hj
    dsimp only [view] at hj
    dsimp only [view]
    rw [update_of_ne (by omega)]
    exact hpr.buffered j hj
  · refine { hc with le := hi, done := ?_ }
    intro j hj
    dsimp only [view]
    obtain ho | rfl := Nat.lt_succ_iff_lt_or_eq.mp hj
    · rw [update_of_ne (by omega)]
      exact hc.done j ho
    rw [update_self, hb, getElem?_eq_getElem hlt]

end

theorem completed_of_short (hph : PhaseOk (rx.view mq tx.sent) phase)
    (hs : mq.bytesWritten - (mq.bytesRead + rx.handle.consumePending) <
      (rx.view mq tx.sent).needed phase)
    (hc : position tx.sent tx.completed ≤ mq.bytesWritten)
    (hle : tx.completed ≤ tx.sent.length) : tx.completed ≤ rx.received.length := by
  by_contra hmr
  have hlt : rx.received.length < tx.sent.length := by omega
  have hm := getElem?_eq_getElem hlt
  have hn := position_succ hm
  have hmn : position tx.sent (rx.received.length + 1) ≤ position tx.sent tx.completed :=
    position_mono (by omega)
  have hp {m : Message} (hpr : Part (rx.view mq tx.sent) m)
      (hs : mq.bytesWritten - (mq.bytesRead + rx.handle.consumePending) <
        rx.handle.expectedBytes - rx.handle.partialBytes) : False := by
    obtain rfl : tx.sent[rx.received.length] = m := Option.some.inj (hm.symm.trans hpr.message)
    obtain ⟨hr, -, -, he⟩ := hpr.here
    have := le_maxAlign tx.sent[rx.received.length].payload.length
    omega
  cases phase with
  | lengthWord =>
    have hr : mq.bytesRead + rx.handle.consumePending =
        position tx.sent rx.received.length := hph.read
    change _ < 8 - rx.handle.partialBytes at hs
    omega
  | whole =>
    obtain ⟨hz, m, hpr⟩ := hph
    have hz : rx.handle.partialBytes = 0 := hz
    change _ < rx.handle.expectedBytes at hs
    exact hp hpr (by omega)
  | rest =>
    obtain ⟨-, m, hpr⟩ := hph
    exact hp hpr hs

/-! ## Every step of the receiver -/

theorem RecvStep.frame (hs : RecvStep size gone mq rx mq' rx') :
    mq'.bytesWritten = mq.bytesWritten ∧ mq'.ring = mq.ring ∧ mq.bytesRead ≤ mq'.bytesRead ∧
      (mq.detached = true → mq'.detached = true) ∧ mq'.senderSet = mq.senderSet := by
  cases hs with
  | startGiveBack nw h hm | drain f h => exact ⟨rfl, rfl, Nat.le_add_right _ _, id, rfl⟩
  | _ => exact ⟨rfl, rfl, le_refl _, by simp, rfl⟩

/-- **Every step of the receiver keeps the invariant of the queue and its own.** -/
theorem recvStep_inv (hsz : 8 ∣ size) (hps : 0 < size)
    (hq : QueueInv size mq tx.sent tx.handle.sendPending rx.handle.consumePending)
    (hsn : SendInv size mq tx) (h : RecvInv size mq tx rx)
    (hdt : mq.detached = true → tx.pc = .gone ∨ rx.pc = .gone)
    (hst : mq.senderSet = false → tx.completed = 0)
    (hste : RecvStep size tx.pc.isGone mq rx mq' rx') :
    QueueInv size mq' tx.sent tx.handle.sendPending rx'.handle.consumePending ∧
      RecvInv size mq' tx rx' := by
  have hpc {pc : RecvPc} (heq : rx.pc = pc) :
      RecvPcInv size (rx.view mq tx.sent) tx.pc.isGone pc := heq ▸ h.pc
  have hgn : rx.pc ≠ .gone → mq.detached = true → tx.pc.isGone = true := by
    intro hne hd
    rw [(hdt hd).resolve_right hne]
    rfl
  have his : tx.pc.isGone = true → tx.pc = .gone := by
    intro hg
    cases htx : tx.pc <;> rw [htx] at hg <;> first | rfl | cases hg
  have hc : rx.pc ≠ .idle ∧ rx.pc ≠ .gone → rx.returned = none := by
    rintro ⟨hid, hne⟩
    exact h.inCall hid hne
  -- a step inside a call that keeps the handle
  have stay : ∀ {mq'' : Queue} {pc' : RecvPc}, rx.pc ≠ .idle ∧ rx.pc ≠ .gone →
      mq''.bytesRead = mq.bytesRead → mq''.bytesWritten = mq.bytesWritten → mq''.ring = mq.ring →
      RecvPcInv size (rx.view mq tx.sent) tx.pc.isGone pc' →
      QueueInv size mq'' tx.sent tx.handle.sendPending rx.handle.consumePending ∧
        RecvInv size mq'' tx { rx with pc := pc' } := by
    intro mq'' pc' hin hr hwri hrn hinv
    refine ⟨hq.congr hr hwri hrn, of_none h.received h.ended (hc hin) ?_⟩
    have hv : view { rx with pc := pc' } mq'' tx.sent = rx.view mq tx.sent := by
      unfold view
      rw [hr, hwri]
    rw [hv]
    exact hinv
  cases hste with
  | attach heq =>
    have hpc := hpc heq
    have hnn := hc (by simp [heq])
    exact ⟨hq.congr rfl rfl rfl, of_none h.received h.ended hnn hpc⟩
  | receive nw heq =>
    have hpc := hpc heq
    refine ⟨hq, of_none h.received h.ended rfl ?_⟩
    split
    · exact hpc
    · split <;> exact hpc
  | goneDetached heq hd =>
    exact stay (by simp [heq]) rfl rfl rfl ⟨hpc heq, fun _ => hgn (by simp [heq]) hd⟩
  | goneWorker heq hwr =>
    exact stay (by simp [heq]) rfl rfl rfl ⟨hpc heq, fun _ => hwr⟩
  | notGone heq hd =>
    exact stay (by simp [heq]) rfl rfl rfl ⟨hpc heq, nofun⟩
  | noSender wasGone heq hs =>
    have hnn := hc (by simp [heq])
    cases wasGone with
    | true =>
      refine ⟨hq, of_none h.received ?_ hnn (hpc heq).1⟩
      exact fun _ => ⟨his ((hpc heq).2 rfl), fun _ => by rw [hst hs]; exact Nat.zero_le _⟩
    | false => exact ⟨hq, of_none h.received h.ended hnn (hpc heq).1⟩
  | sender wasGone heq hs | lastSender heq hs =>
    exact ⟨hq, of_none h.received h.ended (hc (by simp [heq])) (hpc heq).1⟩
  | waitRead heq | waitAgain heq hd =>
    have hpc := hpc heq
    exact stay (by simp [heq]) rfl rfl rfl hpc
  | waitDetached result heq hd =>
    exact stay (by simp [heq]) rfl rfl rfl ⟨hpc heq, hgn (by simp [heq]) hd⟩
  | waitSender heq hd =>
    have hpc := hpc heq
    exact ⟨hq, of_none h.received h.ended (hc (by simp [heq])) hpc⟩
  | waitWorker heq hwr =>
    exact stay (by simp [heq]) rfl rfl rfl ⟨hpc heq, hwr⟩
  | lastNoSender heq hs =>
    refine ⟨hq.congr rfl rfl rfl, of_none h.received ?_ (hc (by simp [heq])) (hpc heq).1⟩
    exact fun _ => ⟨his (hpc heq).2, fun _ => by rw [hst hs]; exact Nat.zero_le _⟩
  | startGiveBack nw heq hm =>
    exact receive_inv hq.giveBack h.received (hc (by simp [heq])) h.ended (hpc heq)
  | start nw heq hfw =>
    exact receive_inv hq h.received (hc (by simp [heq])) h.ended (hpc heq)
  | enough f heq he =>
    exact gotBytes_inv hsz hps hq h (hc (by simp [heq])) (hpc heq) he
  | short f heq hfw hrn =>
    refine stay (by simp [heq]) rfl rfl rfl ⟨hpc heq, le_refl _, ?_⟩
    cases hp : f.phase <;> rw [hp] at hfw <;> exact hfw
  | shortDetached f written heq hd =>
    exact stay (by simp [heq]) rfl rfl rfl
      ⟨(hpc heq).1, (hpc heq).2.2, hgn (by simp [heq]) hd⟩
  | shortDrain f written heq hd | recheckAgain f written heq hw =>
    exact stay (by simp [heq]) rfl rfl rfl (hpc heq).1
  | recheckEnd f written heq hw =>
    have hpc := hpc heq
    refine ⟨hq, of_none h.received ?_ (hc (by simp [heq])) hpc.1.atMessage⟩
    intro _
    refine ⟨his hpc.2.2, fun hd => ?_⟩
    have hf := hsn.flushed (.inr hd)
    have hcompleted := hsn.completed_at
    rw [hf] at hcompleted
    exact completed_of_short hpc.1 (hw ▸ hpc.2.1) hcompleted hsn.completed_le
  | drain f heq =>
    have hpc := hpc heq
    have hnn := hc (by simp [heq])
    refine ⟨hq.giveBack, of_none h.received h.ended hnn ?_⟩
    split
    · exact hpc.atMessage
    · exact hpc
  | readLength nw rb offset heq =>
    exact gotLength_inv hq h (hc (by simp [heq])) (hpc heq).1 (hpc heq).2.1 (hpc heq).2.2
  | copy nw offset rb i heq hi =>
    obtain ⟨m, hpr, hgt, hcp⟩ := hpc heq
    obtain ⟨hpr', hcp'⟩ := copyByte_inv hq hpr hgt hcp hi
    exact ⟨hq, of_none h.received h.ended (hc (by simp [heq])) ⟨m, hpr', { hgt with }, hcp'⟩⟩
  | copied nw offset rb i heq hi =>
    obtain ⟨m, hpr, hgt, hcp⟩ := hpc heq
    have hrb := hcp.pos
    refine copied_recv hq h.received (hc (by simp [heq])) h.ended hpr
      (by omega) hcp.inside hcp.whole hgt.written hcp.allocated ?_
    intro j hj
    obtain ho | hn := lt_or_ge j rx.handle.partialBytes
    · exact hpr.buffered j ho
    obtain ⟨d, rfl⟩ := Nat.exists_eq_add_of_le hn
    exact hcp.done d (by omega)
  | detach heq | exit hne =>
    exact ⟨hq.congr rfl rfl rfl, h.received, h.returned, fun _ hne => absurd rfl hne, h.ended,
      trivial⟩
  | die hne => exact ⟨hq, h.received, h.returned, fun _ hne => absurd rfl hne, h.ended, trivial⟩

/-! ## Both together -/

/-- What holds in every state of the two. -/
structure Inv (ringSize : Nat) (w : World) : Prop where
  queue : QueueInv ringSize w.mq w.tx.sent w.tx.handle.sendPending w.rx.handle.consumePending
  send : SendInv ringSize w.mq w.tx
  recv : RecvInv ringSize w.mq w.tx w.rx
  /-- A queue is detached only when one of the two is gone. -/
  detached : w.mq.detached = true → w.tx.pc = .gone ∨ w.rx.pc = .gone
  unset : w.mq.senderSet = false → (w.tx.pc = .unattached ∨ w.tx.pc = .gone) ∧ w.tx.completed = 0

theorem create_inv (size : Nat) (ring : Nat → UInt8) : Inv size (World.create ring) := by
  refine ⟨⟨dvd_zero 8, dvd_zero 8, dvd_zero 8, dvd_zero 8, le_refl _, Nat.zero_le _, Nat.zero_le _,
    ?_⟩, ?_, ?_, ?_, fun _ => ⟨.inl rfl, rfl⟩⟩
  · intro n _ hn
    exact absurd hn (Nat.not_lt_zero n)
  · exact SendInv.of_pc ⟨nofun, le_refl _, le_refl _⟩ rfl nofun
      (.inr (.inl ⟨rfl, rfl, rfl, rfl, rfl⟩))
  · exact of_none rfl nofun rfl (.inl ⟨rfl, rfl, rfl⟩)
  intro h
  cases h

theorem SendStep.detached_of (hs : SendStep size gone mq tx mq' tx')
    (h : mq'.detached = true) : mq.detached = true ∨ tx'.pc = .gone ∨ gone = true := by
  cases hs with
  | goneWorker f heq hg | waitWorker f heq hg => exact .inr (.inr hg)
  | waitDetached f result heq hd => exact .inl hd
  | detached heq | exit hne => exact .inr (.inl rfl)
  | _ => exact .inl h

theorem SendStep.unset_of (hst : SendStep size gone mq tx mq' tx')
    (h : mq.senderSet = false → (tx.pc = .unattached ∨ tx.pc = .gone) ∧ tx.completed = 0)
    (hs : mq'.senderSet = false) : (tx'.pc = .unattached ∨ tx'.pc = .gone) ∧ tx'.completed = 0 := by
  cases hst with
  | attach heq => cases hs
  | detached heq | exit hne | die hne => exact ⟨.inr rfl, (h hs).2⟩
  | _ =>
    obtain ⟨hpc | hpc, -⟩ := h hs
    all_goals simp_all

theorem RecvStep.detached_of (hs : RecvStep size gone mq rx mq' rx') (h : mq'.detached = true) :
    mq.detached = true ∨ rx'.pc = .gone ∨ gone = true ∨ rx.pc = .askSenderLast := by
  cases hs with
  | goneWorker heq hg => exact .inr (.inr (.inl hg))
  | lastNoSender heq hsn => exact .inr (.inr (.inr heq))
  | detach heq | exit hne => exact .inr (.inl rfl)
  | _ => exact .inl h

theorem RecvStep.alive (hs : RecvStep size gone mq rx mq' rx') : rx.pc ≠ .gone := by
  cases hs <;> simp_all

theorem isGone_send {pc : SendPc} (h : pc.isGone = true) : pc = .gone := by
  cases pc <;> first | rfl | cases h

theorem isGone_recv {pc : RecvPc} (h : pc.isGone = true) : pc = .gone := by
  cases pc <;> first | rfl | cases h

theorem step_inv {w w' : World} (hsz : 8 ∣ size) (hp : 0 < size)
    (h : Inv size w) (hste : Step size w w') : Inv size w' := by
  cases hste with
  | send hs =>
    obtain ⟨hq, hsn⟩ := sendStep_inv hsz h.queue h.send hs
    refine ⟨hq, hsn, h.recv.frame hs, fun hd => ?_, hs.unset_of h.unset⟩
    obtain ho | hg | hg := hs.detached_of hd
    · exact .inr ((h.detached ho).resolve_left hs.frame.2.2.2)
    · exact .inl hg
    · exact .inr (isGone_recv hg)
  | receive hr =>
    obtain ⟨hq, hrc⟩ := recvStep_inv hsz hp h.queue h.send h.recv h.detached
      (fun hst => (h.unset hst).2) hr
    obtain ⟨hw, hrn, hrd, hdt, hst⟩ := hr.frame
    refine ⟨hq, h.send.frame hw hrn hrd hdt, hrc, fun hd => ?_, ?_⟩
    · obtain ho | hg | hg | hl := hr.detached_of hd
      · exact .inl ((h.detached ho).resolve_right hr.alive)
      · exact .inr hg
      · exact .inl (isGone_send hg)
      have hpc := h.recv.pc
      rw [hl] at hpc
      exact .inl (isGone_send hpc.2)
    rw [show ∀ mq rx, ({ w with mq := mq, rx := rx } : World).mq = mq from fun _ _ => rfl, hst]
    exact h.unset

theorem Reachable.inv {w : World} (hs : 8 ∣ size) (hp : 0 < size)
    (h : Reachable size w) : Inv size w := by
  induction h with
  | create ring => exact create_inv size ring
  | step _ hst ih => exact step_inv hs hp ih hst

/-- **A shared memory queue is a FIFO of messages.**  In every state that a queue can come to,
whatever the calls and however the steps of both sides interleave:

* the messages received are the first ones of those sent, in order and byte for byte, and the
  last one stands at the place that was returned until the next call;
* the bytes in use, pending ones included, are no more than the ring holds;
* if a call to receive has found the queue detached and the sender has detached itself, then
  every message that was written completely before has been received. -/
theorem shmMq_fifo {ringSize : Nat} (hsize : 8 ∣ ringSize) (hpos : 0 < ringSize) {w : World}
    (h : Reachable ringSize w) :
    w.rx.received = (w.tx.sent.map Message.payload).take w.rx.received.length ∧
    (∀ place, w.rx.returned = some place →
      w.rx.received.getLast? = some (place.payload w.mq w.rx.handle)) ∧
    w.mq.bytesRead ≤ w.mq.bytesWritten ∧
    w.mq.bytesWritten + w.tx.handle.sendPending - w.mq.bytesRead ≤ ringSize ∧
    (w.rx.ended = true → w.tx.detachedQueue = true → w.tx.completed ≤ w.rx.received.length) ∧
    w.rx.pc ≠ .failed := by
  have hi := h.inv hsize hpos
  have hrd := hi.queue.read_le
  have hrm := hi.queue.room
  refine ⟨hi.recv.received, ?_, by omega, by omega, fun hended => (hi.recv.ended hended).2, ?_⟩
  · intro place hpl
    have hr := hi.recv.returned place hpl
    cases place with
    | ring offset nbytes =>
      obtain ⟨p, last, hp, he, hs, hl, rfl, hb⟩ := hr
      rw [Place.payload, hi.queue.bytes hp he hs hb]
      exact hl
    | buffer nbytes => exact hr
  intro hf
  have hpc := hi.recv.pc
  rwa [hf] at hpc

/-- A message of nine bytes in two pieces. -/
def ninePieces : Message := ⟨[[1, 2, 3, 4, 5, 6, 7, 8], [9]], by simp, by decide⟩

/-- The ring when the message has been copied, byte after byte. -/
def writtenRing : Nat → UInt8 :=
  [9, 0, 0, 0, 0, 0, 0, 0, 1, 2, 3, 4, 5, 6, 7, 8, 9].zipIdx.foldl
    (fun ring byte => update ring byte.2 byte.1) fun _ => 0

/-- In a ring of 128 bytes the message is written, reported as sent and not yet made visible. -/
theorem reachable_written : Reachable 128
    ⟨⟨0, 0, writtenRing, false, true, true⟩,
      ⟨⟨24, 0, false, true⟩, .idle, [ninePieces], 1, none, false, false⟩,
      ⟨⟨fun _ => 0, 0, 0, 0, 0, false, false⟩, .idle, [], none, false⟩⟩ := by
  have h : Reachable 128 (World.create fun _ => 0) := .create _
  replace h := h.step (.send (.attach rfl))
  replace h := h.step (.receive (.attach rfl))
  replace h := h.step (.send (.send ⟨ninePieces, true, false⟩ rfl rfl))
  replace h := h.step (.send (.readRead _ rfl (by decide)))
  replace h := h.step (.send (.room _ _ _ rfl rfl rfl (by decide)))
  iterate 8 replace h := h.step (.send (.copy _ _ _ _ rfl (by decide)))
  replace h := h.step (.send (.copied _ _ _ _ rfl (by decide)))
  replace h := h.step (.send (.sentAll _ rfl (by decide)))
  replace h := h.step (.send (.readRead _ rfl (by decide)))
  replace h := h.step (.send (.room _ _ _ rfl rfl rfl (by decide)))
  iterate 8 replace h := h.step (.send (.copy _ _ _ _ rfl (by decide)))
  replace h := h.step (.send (.copied _ _ _ _ rfl (by decide)))
  replace h := h.step (.send (.sentAll _ rfl (by decide)))
  replace h := h.step (.send (.readRead _ rfl (by decide)))
  replace h := h.step (.send (.room _ _ _ rfl rfl rfl (by decide)))
  replace h := h.step (.send (.copy _ _ _ _ rfl (by decide)))
  replace h := h.step (.send (.copied _ _ _ _ rfl (by decide)))
  replace h := h.step (.send (.sentAll _ rfl (by decide)))
  replace h := h.step (.send (.finish _ rfl rfl))
  replace h := h.step (.send (.finishReceiver _ rfl))
  exact h

/-- The sender detaches and the message is received, then the end. -/
theorem shmMq_fifo_ninePieces : ∃ w : World, Reachable 128 w ∧ w.rx.ended = true ∧
    w.tx.completed = 1 ∧ w.rx.received = [ninePieces.payload] ∧
    w.tx.completed ≤ w.rx.received.length := by
  have h := reachable_written
  replace h := h.step (.send (.detach rfl))
  replace h := h.step (.send (.detached rfl))
  replace h := h.step (.receive (.receive true rfl))
  replace h := h.step (.receive (.goneDetached rfl rfl))
  replace h := h.step (.receive (.sender true rfl rfl))
  replace h := h.step (.receive (.start true rfl (by decide)))
  replace h := h.step (.receive (.enough _ rfl (by decide)))
  replace h := h.step (.receive (.readLength true 24 0 rfl))
  replace h := h.step (.receive (.receive true rfl))
  replace h := h.step (.receive (.start true rfl (by decide)))
  replace h := h.step (.receive (.short _ rfl (by decide) (by decide)))
  replace h := h.step (.receive (.shortDetached _ _ rfl rfl))
  replace h := h.step (.receive (.recheckEnd _ _ rfl rfl))
  have hf := (shmMq_fifo (by decide) (by decide) h).2.2.2.2.1 rfl rfl
  exact ⟨_, h, rfl, rfl, rfl, hf⟩

/-- The sender's process ends instead, and the callback of its memory segment detaches the
queue: the message that was reported as sent is never received. -/
theorem shmMq_exit_loses : ∃ w : World, Reachable 128 w ∧ w.tx.pc = .gone ∧ w.rx.ended = true ∧
    w.tx.completed = 1 ∧ w.rx.received = [] := by
  have h := reachable_written
  replace h := h.step (.send (.exit (by simp)))
  replace h := h.step (.receive (.receive true rfl))
  replace h := h.step (.receive (.goneDetached rfl rfl))
  replace h := h.step (.receive (.sender true rfl rfl))
  replace h := h.step (.receive (.start true rfl (by decide)))
  replace h := h.step (.receive (.short _ rfl (by decide) (by decide)))
  replace h := h.step (.receive (.shortDetached _ _ rfl rfl))
  replace h := h.step (.receive (.recheckEnd _ _ rfl rfl))
  exact ⟨_, h, rfl, rfl, rfl, rfl⟩

end AthenaPG.ShmMq
