import AthenaPG.Storage.ShmMq

/-!
The sender's side of a shared memory queue.

The messages form one stream of bytes: for each message its length word, its payload, and
padding up to the alignment, which nobody writes.  The counters are positions in that stream,
and what lies between the two of them stands in the ring.

* `stream`, `position`: the stream, and where a message begins;
* `nextChunk_spec`: pieces are recombined without loss and written aligned but for the end;
* `QueueInv`, `SendInv`: what holds of the queue and of the sender;
* `sendStep_inv`: what every step of the sender keeps.
-/

namespace AthenaPG.ShmMq
open List Nat Sender Function

/-! ## Words and alignment -/

theorem wordValue_wordBytes (k n : Nat) : wordValue (wordBytes k n) = n % 256 ^ k := by
  induction k generalizing n with
  | zero => simp [wordBytes, wordValue, mod_one]
  | succ k ih =>
    have hs := @mod_mul 256 (256 ^ k) n
    rw [← pow_succ'] at hs
    rw [wordBytes, wordValue, ih, UInt8.toNat_ofNat', hs]

theorem length_wordBytes (k n : Nat) : (wordBytes k n).length = k := by
  induction k generalizing n with
  | zero => rfl
  | succ k ih => rw [wordBytes, length_cons, ih]

theorem length_lengthWord (n : Nat) : (lengthWord n).length = 8 := length_wordBytes 8 n

theorem le_maxAlign (n : Nat) : n ≤ maxAlign n := by
  unfold maxAlign
  omega

theorem dvd_maxAlign (n : Nat) : 8 ∣ maxAlign n := by
  unfold maxAlign
  omega

variable {n k : Nat} {ms : List Message} {m : Message} {j offset size : Nat}
  {messages : List Message} {i : Nat} {call : SendCall} {f : SendFrame} {cp : Nat}

theorem maxAlign_le (h : n ≤ k) (hk : 8 ∣ k) : maxAlign n ≤ k := by
  unfold maxAlign
  omega

theorem maxAlign_of_dvd (h : 8 ∣ n) : maxAlign n = n := by
  unfold maxAlign
  omega

theorem maxAlign_add {a : Nat} (h : 8 ∣ a) (b : Nat) : maxAlign (a + b) = a + maxAlign b := by
  unfold maxAlign
  omega

/-! ## The stream -/

variable (m)

def Message.words : List UInt8 := lengthWord m.payload.length ++ m.payload

/-- The bytes of a message in the stream, the padding left open. -/
def Message.image : List (Option UInt8) :=
  m.words.map some ++ List.replicate (maxAlign m.words.length - m.words.length) none

def stream (messages : List Message) : List (Option UInt8) := messages.flatMap Message.image

def position (messages : List Message) (k : Nat) : Nat := (stream (messages.take k)).length

theorem Message.length_words : m.words.length = 8 + m.payload.length := by
  rw [words, length_append, length_lengthWord]

theorem Message.length_image : m.image.length = 8 + maxAlign m.payload.length := by
  have hle := le_maxAlign m.words.length
  rw [image, length_append, length_map, length_replicate,
    Nat.add_sub_cancel' hle, m.length_words, maxAlign_add (by decide)]

variable {m}

theorem stream_append (ms more : List Message) : stream (ms ++ more) = stream ms ++ stream more :=
  flatMap_append

theorem position_succ (h : ms[k]? = some m) :
    position ms (k + 1) = position ms k + (8 + maxAlign m.payload.length) := by
  rw [position, take_add_one, h, stream_append, length_append, Option.toList_some, stream,
    stream, flatMap_singleton, m.length_image]
  rfl

theorem position_append (h : k ≤ ms.length) (more : List Message) :
    position (ms ++ more) k = position ms k := by
  rw [position, position, take_append_of_le_length h]

theorem position_mono (h : j ≤ k) : position ms j ≤ position ms k := by
  obtain ⟨d, rfl⟩ := Nat.exists_eq_add_of_le h
  rw [position, position, take_add, stream_append, length_append]
  exact le_add_right _ _

theorem position_length (ms : List Message) : position ms ms.length = (stream ms).length := by
  rw [position, take_length]

theorem stream_image (h : ms[k]? = some m) (hj : j < m.image.length) :
    (stream ms)[position ms k + j]? = m.image[j]? := by
  have hs : stream ms = stream (ms.take k) ++ (m.image ++ stream (ms.drop (k + 1))) := by
    obtain ⟨hk, rfl⟩ := List.getElem?_eq_some_iff.mp h
    conv_lhs => rw [← take_append_drop k ms, drop_eq_getElem_cons hk, stream_append]
    rfl
  rw [position, hs, getElem?_append_right (le_add_right _ _),
    Nat.add_sub_cancel_left, getElem?_append_left hj]

theorem stream_word (h : ms[k]? = some m) {b : UInt8} (hj : m.words[j]? = some b) :
    (stream ms)[position ms k + j]? = some (some b) := by
  have hlt := (List.getElem?_eq_some_iff.mp hj).1
  rw [stream_image h (by simp [Message.image]; omega), Message.image,
    getElem?_append_left (by simpa using hlt), getElem?_map, hj]
  rfl

theorem stream_padding {ms : List Message} {k : Nat} {m : Message} (h : ms[k]? = some m) {j : Nat}
    (hw : m.words.length ≤ j) (hj : j < maxAlign m.words.length) :
    (stream ms)[position ms k + j]? = some none := by
  rw [stream_image h (by simp [Message.image]; omega), Message.image,
    getElem?_append_right (by simpa using hw), length_map,
    getElem?_replicate_of_lt (by omega)]

theorem message_of_position_lt (hk : k ≤ ms.length) (hn : position ms k < n)
    (hl : n ≤ (stream ms).length) : ∃ m, ms[k]? = some m := by
  obtain hlt | hge := lt_or_ge k ms.length
  · exact ⟨ms[k], getElem?_eq_getElem hlt⟩
  obtain rfl : k = ms.length := le_antisymm hk hge
  rw [position_length] at hn
  omega

/-! ## Pieces -/

theorem drop_flatten_cons (pc : List UInt8) (rest : List (List UInt8)) (h : pc.length ≤ offset) :
    (pc :: rest).flatten.drop offset = rest.flatten.drop (offset - pc.length) := by
  rw [flatten_cons, drop_append, drop_eq_nil_of_le h, nil_append]

/-- Skipping pieces leaves the bytes to come as they are; it only ends without a piece when no
byte is left or all are sent. -/
theorem skipPieces_spec (pb nbytes : Nat) (pcs : List (List UInt8)) (offset : Nat) :
    match skipPieces pb nbytes pcs offset with
    | none => pcs.flatten.drop offset = [] ∨ nbytes ≤ pb
    | some (pieces', offset') => ∃ pc rest, pieces' = pc :: rest ∧ offset' < pc.length ∧
        pieces'.flatten.drop offset' = pcs.flatten.drop offset := by
  induction pcs generalizing offset with
  | nil => exact .inl (by simp)
  | cons pc rest ih =>
    by_cases hs : pc.length ≤ offset
    · by_cases he : rest.isEmpty = true
      · rw [skipPieces, if_pos hs, if_pos he]
        refine .inl ?_
        rw [drop_flatten_cons pc rest hs, List.isEmpty_iff.mp he]
        simp
      by_cases hm : pb < nbytes
      · rw [skipPieces, if_pos hs, if_neg he, if_pos hm, drop_flatten_cons pc rest hs]
        exact ih (offset - pc.length)
      rw [skipPieces, if_pos hs, if_neg he, if_neg hm]
      exact .inr (by omega)
    rw [skipPieces, if_neg hs]
    exact ⟨pc, rest, rfl, by omega, rfl⟩

theorem drop_flatten_next (pc : List UInt8) (rest : List (List UInt8)) (h : offset < pc.length) :
    (pc :: rest).flatten.drop offset = pc[offset] :: (pc :: rest).flatten.drop (offset + 1) := by
  have hlt : offset < (pc :: rest).flatten.length := by
    rw [flatten_cons, length_append]
    omega
  rw [drop_eq_getElem_cons hlt]
  congr 1
  simp [getElem_append_left h]

theorem gather_spec (pcs : List (List UInt8)) (offset : Nat) (tmp : List UInt8)
    (h : tmp.length < 8) :
    (gather pcs offset tmp).1 =
        tmp ++ (pcs.flatten.drop offset).take (8 - tmp.length) ∧
      (gather pcs offset tmp).2.1.flatten.drop (gather pcs offset tmp).2.2 =
        (pcs.flatten.drop offset).drop (8 - tmp.length) := by
  induction pcs, offset, tmp using gather.induct with
  | case1 offset tmp => simp [gather]
  | case2 offset tmp pc rest ho hf =>
    have hon : 8 - tmp.length = 1 := by omega
    rw [gather, dif_pos ho, if_pos hf, drop_flatten_next pc rest ho, hon]
    exact ⟨rfl, rfl⟩
  | case3 offset tmp pc rest ho hf ih =>
    obtain ⟨hfs, hs⟩ := ih (by simp; omega)
    have hon : 8 - tmp.length = (8 - (tmp ++ [pc[offset]]).length) + 1 := by
      simp
      omega
    rw [gather, dif_pos ho, if_neg hf,
      drop_flatten_next pc rest ho, hon, take_succ_cons, drop_succ_cons, hfs,
      hs]
    simp
  | case4 offset tmp pc rest ho ih =>
    rw [gather, dif_neg ho, drop_flatten_cons pc rest (by omega)]
    exact ih h

/-- A chunk of the bytes that follow, an aligned number of them or all that are left; there is
none only if all bytes are sent. -/
def ChunkOk (payload : List UInt8) (partialBytes : Nat) :
    Option (List UInt8 × List (List UInt8) × Nat × Bool) → Prop
  | none => payload.length ≤ partialBytes
  | some (data, pieces, offset, gathered) =>
    data ≠ [] ∧ data = (payload.drop partialBytes).take data.length ∧
      (8 ∣ data.length ∨ partialBytes + data.length = payload.length) ∧
      pieces.flatten.drop offset = payload.drop (partialBytes + if gathered then data.length else 0)

/-- **The pieces of a message are recombined without loss.** -/
theorem nextChunk_spec {payload : List UInt8} {pb : Nat} {pcs : List (List UInt8)}
    (hp : pcs.flatten.drop offset = payload.drop pb) :
    ChunkOk payload pb (nextChunk pb payload.length pcs offset) := by
  have hsk := skipPieces_spec pb payload.length pcs offset
  unfold nextChunk
  cases hs : skipPieces pb payload.length pcs offset with
  | none =>
    simp only [hs] at hsk
    obtain he | hle := hsk
    · rw [hp] at he
      exact drop_eq_nil_iff.mp he
    exact hle
  | some found =>
    obtain ⟨pieces', offset'⟩ := found
    simp only [hs] at hsk
    obtain ⟨pc, rest, rfl, hlt, hd⟩ := hsk
    rw [hp] at hd
    have hl : payload.drop pb ≠ [] := by
      rw [← hd, drop_flatten_next pc rest hlt]
      simp
    have hln : 0 < payload.length - pb := by simpa [length_pos_iff] using hl
    dsimp only
    split
    · -- gathered over several pieces
      obtain ⟨hf, hsn⟩ := gather_spec (pc :: rest) offset' [] (by simp)
      simp only [ChunkOk, hf, hsn, hd, nil_append, length_nil, Nat.sub_zero,
        if_true, length_take, length_drop, drop_drop]
      refine ⟨?_, ?_, ?_, ?_⟩
      · simpa using hln
      · rw [← length_drop, take_eq_take_min]
      · omega
      obtain h | h := le_total 8 (payload.length - pb)
      · rw [min_eq_left h]
      · rw [drop_eq_nil_of_le (by omega), drop_eq_nil_of_le (by omega)]
    rename_i hdr
    by_cases hr : rest.isEmpty = true
    · -- the last piece
      have hpc : pc.drop offset' = payload.drop pb := by
        rw [← hd, List.isEmpty_iff.mp hr]
        simp
      have ha : (pc.drop offset').take (pc.length - offset') = payload.drop pb := by
        rw [← hpc, take_of_length_le (by simp)]
      simp only [ChunkOk, hr, if_true, ha, Bool.false_eq_true, if_false, add_zero]
      refine ⟨hl, ?_, .inr ?_, hd⟩
      · rw [take_length]
      rw [length_drop]
      omega
    -- an aligned part of a piece
    have hrm : offset' + 8 ≤ pc.length := by
      simp only [hr, Bool.not_false, Bool.true_and, decide_eq_true_eq] at hdr
      omega
    have hc : 8 ≤ maxAlignDown (pc.length - offset') ∧
        maxAlignDown (pc.length - offset') ≤ pc.length - offset' ∧
        8 ∣ maxAlignDown (pc.length - offset') := by
      unfold maxAlignDown
      omega
    have hda : (pc.drop offset').take (maxAlignDown (pc.length - offset')) =
        (payload.drop pb).take (maxAlignDown (pc.length - offset')) := by
      rw [← hd, flatten_cons, drop_append_of_le_length (by omega),
        take_append_of_le_length (by rw [length_drop]; exact hc.2.1)]
    have hdt : ((pc.drop offset').take (maxAlignDown (pc.length - offset'))).length =
        maxAlignDown (pc.length - offset') := by
      rw [length_take, length_drop]
      exact min_eq_left hc.2.1
    simp only [ChunkOk, hr, Bool.false_eq_true, if_false, add_zero, hdt]
    refine ⟨?_, hda, .inl hc.2.2, hd⟩
    rw [← length_pos_iff, hdt]
    omega

/-! ## What holds of the queue -/

/-- The counters are aligned and in order, what is used fits into the ring, and it stands there:
`messages` is all that the sender was asked to send. -/
structure QueueInv (ringSize : Nat) (mq : Queue) (messages : List Message)
    (sendPending consumePending : Nat) : Prop where
  read8 : 8 ∣ mq.bytesRead
  written8 : 8 ∣ mq.bytesWritten
  send8 : 8 ∣ sendPending
  consume8 : 8 ∣ consumePending
  read_le : mq.bytesRead + consumePending ≤ mq.bytesWritten
  room : mq.bytesWritten + sendPending ≤ mq.bytesRead + ringSize
  inStream : mq.bytesWritten + sendPending ≤ (stream messages).length
  ring : ∀ n, mq.bytesRead ≤ n → n < mq.bytesWritten + sendPending → ∀ b,
    (stream messages)[n]? = some (some b) → mq.ring (n % ringSize) = b

theorem QueueInv.append {mq : Queue} {sendPending consumePending : Nat}
    (h : QueueInv size mq messages sendPending consumePending) (more : List Message) :
    QueueInv size mq (messages ++ more) sendPending consumePending := by
  have hin := h.inStream
  refine { h with inStream := ?_, ring := ?_ }
  · rw [stream_append, length_append]
    omega
  intro n hr hw b hb
  rw [stream_append, getElem?_append_left (by omega)] at hb
  exact h.ring n hr hw b hb

theorem mod_ne_of_lt {a b : Nat} (hlt : a < b) (hr : b < a + size) : a % size ≠ b % size := by
  intro h
  have hd := (modEq_iff_dvd' hlt.le).mp h
  have := le_of_dvd (by omega) hd
  omega

theorem mod_add_of_lt (h : n % size + i < size) : (n + i) % size = n % size + i := by
  rw [add_mod, mod_eq_of_lt (show i < size by omega), mod_eq_of_lt h]

/-! ## What holds of the sender -/

/-- What the sender's state means: the position up to which it has written, its place in the
message, and its history. -/
structure SendView where
  written : Nat
  partialBytes : Nat
  lengthWordComplete : Bool
  sent : List Message
  completed : Nat
  current : Option Message

open SendView

def Sender.view (tx : Sender) (mq : Queue) : SendView :=
  ⟨mq.bytesWritten + tx.handle.sendPending, tx.handle.partialBytes, tx.handle.lengthWordComplete,
    tx.sent, tx.completed, tx.current⟩

def SendView.progress (v : SendView) : Nat :=
  if v.lengthWordComplete then 8 + v.partialBytes else v.partialBytes

/-- All messages have been written. -/
structure Between (v : SendView) : Prop where
  all : v.sent.length = v.completed
  written : v.written = position v.sent v.completed
  partialBytes : v.partialBytes = 0
  lengthWord : v.lengthWordComplete = false
  current : v.current = none

/-- All messages but the last have been written. -/
structure Within (v : SendView) (m : Message) : Prop where
  message : v.sent[v.completed]? = some m
  last : v.sent.length = v.completed + 1
  current : v.current = some m
  progress8 : 8 ∣ v.progress
  lengthWord : v.lengthWordComplete = false → v.partialBytes = 0

/-- A call of `shm_mq_send_bytes` sends the bytes of the message that come next. -/
structure FrameOk (v : SendView) (f : SendFrame) : Prop where
  within : Within v f.call.message
  data : f.data = (f.call.message.words.drop v.progress).take f.data.length
  inside : v.progress + f.data.length ≤ f.call.message.words.length
  whole : 8 ∣ f.data.length ∨ v.progress + f.data.length = f.call.message.words.length
  sent_le : f.sent ≤ f.data.length
  sent8 : 8 ∣ f.sent ∨ f.sent = f.data.length
  lengthWord : v.lengthWordComplete = false → f.data.length = 8
  place : v.lengthWordComplete = true → f.pieces.flatten.drop f.offset =
    f.call.message.payload.drop (v.partialBytes + if f.gathered then f.data.length else 0)
  written : v.written = position v.sent v.completed + v.progress + maxAlign f.sent

def Resting (v : SendView) (aborted : Bool) : Prop :=
  (aborted = true ∧ v.current = none ∧ v.partialBytes = 0 ∧ v.lengthWordComplete = false) ∨
    Between v ∨
    ∃ m, Within v m ∧ (v.lengthWordComplete = true → v.partialBytes < m.payload.length) ∧
      v.written = position v.sent v.completed + v.progress

/-- A call on a queue that is known to be detached: nothing will be written. -/
def Hopeless (v : SendView) (aborted : Bool) (f : SendFrame) : Prop :=
  aborted = true ∧ v.partialBytes = 0 ∧ v.lengthWordComplete = false ∧ f.sent < f.data.length

/-- A `memcpy` into free space. -/
structure CopyOk (ringSize : Nat) (mq : Queue) (v : SendView) (f : SendFrame)
    (offset sendnow i : Nat) : Prop where
  offset_eq : offset = v.written % ringSize
  inRing : offset + sendnow ≤ ringSize
  room : v.written + sendnow ≤ mq.bytesRead + ringSize
  inside : f.sent + sendnow ≤ f.data.length
  before : 8 ∣ f.sent
  whole : 8 ∣ sendnow ∨ f.sent + sendnow = f.data.length
  le : i ≤ sendnow
  done : ∀ j < i, mq.ring (offset + j) = f.data.getD (f.sent + j) 0

def SendPcInv (ringSize : Nat) (mq : Queue) (v : SendView) (aborted : Bool) : SendPc → Prop
  | .unattached | .idle => Resting v aborted
  | .loop f => Hopeless v aborted f ∨ FrameOk v f
  | .checkDetached f rb =>
    (Hopeless v aborted f ∨ FrameOk v f) ∧ (rb ≤ mq.bytesRead ∧ 8 ∣ rb) ∧ f.sent < f.data.length
  | .full f | .askGone f | .askReceiver f | .waitReceiver f | .waitDetached f _ =>
    FrameOk v f ∧ f.sent < f.data.length
  | .copying f offset sendnow i => FrameOk v f ∧ CopyOk ringSize mq v f offset sendnow i
  | .finish _ | .finishReceiver _ | .flush _ => Between v
  | .detaching | .gone => True

/-- What holds of the sender wherever it stands. -/
structure SendBase (mq : Queue) (tx : Sender) : Prop where
  aborted : tx.aborted = true → mq.detached = true
  completed_le : tx.completed ≤ tx.sent.length
  completed_at : position tx.sent tx.completed ≤ mq.bytesWritten + tx.handle.sendPending

structure SendInv (ringSize : Nat) (mq : Queue) (tx : Sender) : Prop extends SendBase mq tx where
  flushed : tx.pc = .detaching ∨ tx.detachedQueue = true → tx.handle.sendPending = 0
  detached : tx.detachedQueue = true → tx.pc = .gone
  pc : SendPcInv ringSize mq (tx.view mq) tx.aborted tx.pc

open SendInv

variable {size : Nat} {mq mq' : Queue} {tx tx' : Sender}

theorem SendInv.of_pc (hbs : SendBase mq tx) (hqu : tx.detachedQueue = false)
    (hd : tx.pc ≠ .detaching)
    (hpc : SendPcInv size mq (tx.view mq) tx.aborted tx.pc) : SendInv size mq tx where
  toSendBase := hbs
  flushed := by
    rintro (h | h)
    · exact absurd h hd
    rw [hqu] at h
    cases h
  detached := by
    intro h
    rw [hqu] at h
    cases h
  pc := hpc

theorem SendInv.frame (h : SendInv size mq tx) (hw : mq'.bytesWritten = mq.bytesWritten)
    (hr : mq'.ring = mq.ring) (hrd : mq.bytesRead ≤ mq'.bytesRead)
    (hd : mq.detached = true → mq'.detached = true) : SendInv size mq' tx := by
  have hv : tx.view mq' = tx.view mq := by
    unfold view
    rw [hw]
  refine ⟨⟨fun ha => hd (h.aborted ha), h.completed_le, ?_⟩, h.flushed, h.detached, ?_⟩
  · rw [hw]
    exact h.completed_at
  have hpc := h.pc
  rw [hv]
  cases hc : tx.pc with
  | checkDetached f rb =>
    rw [hc] at hpc
    exact ⟨hpc.1, ⟨hpc.2.1.1.trans hrd, hpc.2.1.2⟩, hpc.2.2⟩
  | copying f offset now i =>
    rw [hc] at hpc
    have hcp := hpc.2
    have hrm := hcp.room
    refine ⟨hpc.1, { hcp with room := by omega, done := ?_ }⟩
    rw [hr]
    exact hcp.done
  | _ =>
    rwa [hc] at hpc

/-! ## Steps within a message -/

theorem complete_inv (hbs : SendBase mq tx) (hqu : tx.detachedQueue = false)
    (hm : tx.sent[tx.completed]? = some m) (hl : tx.sent.length = tx.completed + 1)
    (hw : mq.bytesWritten + tx.handle.sendPending =
      position tx.sent tx.completed + (8 + maxAlign m.payload.length)) :
    SendInv size mq (tx.complete call) := by
  have hn := hw.trans (position_succ hm).symm
  refine of_pc ⟨hbs.aborted, hl.ge, hn.ge⟩ hqu ?_ ?_
  · exact nofun
  · exact ⟨hl, hn, rfl, rfl, rfl⟩

theorem sendData_inv {pcs : List (List UInt8)} (hbs : SendBase mq tx)
    (hqu : tx.detachedQueue = false) (hw : Within (tx.view mq) call.message)
    (hwo : tx.handle.lengthWordComplete = true)
    (hle : tx.handle.partialBytes ≤ call.message.payload.length)
    (hpl : pcs.flatten.drop offset = call.message.payload.drop tx.handle.partialBytes)
    (hwr : mq.bytesWritten + tx.handle.sendPending =
      position tx.sent tx.completed + (8 + tx.handle.partialBytes)) :
    SendInv size mq (tx.sendData call pcs offset) := by
  have hp : (tx.view mq).progress = 8 + tx.handle.partialBytes := if_pos hwo
  have hpr8 : 8 ∣ tx.handle.partialBytes := by
    have := hw.progress8
    omega
  have hc := nextChunk_spec hpl
  unfold sendData
  cases hn : nextChunk tx.handle.partialBytes call.message.payload.length pcs offset with
  | none =>
    rw [hn] at hc
    have heq := le_antisymm hle hc
    refine complete_inv hbs hqu hw.message hw.last ?_
    rw [hwr, ← heq, maxAlign_of_dvd hpr8]
  | some chunk =>
    obtain ⟨data, pieces', offset', gathered⟩ := chunk
    rw [hn] at hc
    obtain ⟨-, hd, hwh, hpl'⟩ := hc
    have hl : data.length ≤ call.message.payload.length - tx.handle.partialBytes := by
      have := congrArg List.length hd
      rw [length_take, length_drop] at this
      omega
    have hwor := call.message.length_words
    refine of_pc { hbs with } hqu
      nofun (.inr ?_)
    refine ⟨hw, ?_, ?_, ?_, zero_le _, .inl (dvd_zero 8), ?_, fun _ => hpl', ?_⟩
    · change data = (call.message.words.drop (tx.view mq).progress).take data.length
      rw [hp, ← drop_drop, Message.words, drop_left' (length_lengthWord _)]
      exact hd
    · change (tx.view mq).progress + data.length ≤ call.message.words.length
      rw [hp]
      omega
    · change 8 ∣ data.length ∨ (tx.view mq).progress + data.length = call.message.words.length
      rw [hp]
      omega
    · intro hf
      rw [show tx.handle.lengthWordComplete = false from hf] at hwo
      cases hwo
    change mq.bytesWritten + tx.handle.sendPending =
      position tx.sent tx.completed + (tx.view mq).progress + maxAlign 0
    rw [hp, hwr]
    rfl

section

variable (hbs : SendBase mq tx) (hqu : tx.detachedQueue = false)
include hbs hqu

theorem sendv_inv (hwt : Within (tx.view mq) call.message)
    (hn : tx.handle.lengthWordComplete = true →
      tx.handle.partialBytes < call.message.payload.length)
    (hwr : mq.bytesWritten + tx.handle.sendPending =
      position tx.sent tx.completed + (tx.view mq).progress) :
    SendInv size mq (tx.sendv call) := by
  unfold sendv
  split <;> rename_i hw
  · have hp : (tx.view mq).progress = 8 + tx.handle.partialBytes := if_pos hw
    rw [hp] at hwr
    exact sendData_inv hbs hqu hwt hw (hn hw).le rfl hwr
  · have hw : tx.handle.lengthWordComplete = false := by simpa using hw
    have hz : tx.handle.partialBytes = 0 := hwt.lengthWord hw
    have hp : (tx.view mq).progress = 0 := by
      unfold progress view
      rw [hw, hz]
      rfl
    have hl := length_lengthWord call.message.payload.length
    have hwo := call.message.length_words
    rw [hz, drop_zero]
    refine of_pc { hbs with } hqu
      nofun (.inr ?_)
    refine ⟨hwt, ?_, ?_, .inl ?_, zero_le _, .inl (dvd_zero 8), fun _ => hl, ?_, ?_⟩
    · change lengthWord _ = (call.message.words.drop (tx.view mq).progress).take _
      rw [hp, drop_zero, Message.words, take_left]
    · change (tx.view mq).progress + (lengthWord _).length ≤ call.message.words.length
      rw [hp]
      omega
    · exact hl.symm ▸ dvd_refl 8
    · intro ht
      rw [show tx.handle.lengthWordComplete = true from ht] at hw
      cases hw
    dsimp only [view]
    rw [hwr]
    rfl

theorem sentAll_inv (hf : FrameOk (tx.view mq) f) (hs : f.data.length ≤ f.sent) :
    SendInv size mq (tx.sentAll f) := by
  have hal := le_antisymm hf.sent_le hs
  have hw := hf.within
  have hwo := f.call.message.length_words
  have hi := hf.inside
  have hwh := hf.whole
  have hwri : mq.bytesWritten + tx.handle.sendPending =
      position tx.sent tx.completed + (tx.view mq).progress + maxAlign f.sent := hf.written
  have hp8 := hw.progress8
  unfold Sender.sentAll
  by_cases hwr : tx.handle.lengthWordComplete = true
  · have hp : (tx.view mq).progress = 8 + tx.handle.partialBytes := if_pos hwr
    rw [hp] at hi hwh hwri hp8
    rw [if_pos hwr]
    have haf : SendBase mq { tx with
        handle := { tx.handle with partialBytes := tx.handle.partialBytes + f.sent } } :=
      { hbs with }
    dsimp only
    split
    next hm =>
      -- more bytes follow, so that the bytes sent are aligned
      have hs8 : 8 ∣ f.sent := by omega
      rw [maxAlign_of_dvd hs8] at hwri
      have hpl := hf.place hwr
      refine sendData_inv haf hqu
        ⟨hw.message, hw.last, hw.current, ?_, ?_⟩ hwr hm.le ?_ ?_
      · have ha : progress (view { tx with
            handle := { tx.handle with partialBytes := tx.handle.partialBytes + f.sent } } mq) =
            8 + (tx.handle.partialBytes + f.sent) := if_pos hwr
        rw [ha]
        omega
      · intro hfl
        rw [show tx.handle.lengthWordComplete = false from hfl] at hwr
        cases hwr
      · cases hg : f.gathered with
        | true =>
          rw [hg, if_pos rfl] at hpl
          rw [if_pos rfl, hpl, hal]
          rfl
        | false =>
          rw [hg] at hpl
          simp only [Bool.false_eq_true, if_false, add_zero] at hpl ⊢
          rw [← drop_drop, hpl, drop_drop]
          rfl
      rw [hwri]
      dsimp only
      omega
    next he =>
      refine complete_inv haf hqu hw.message hw.last ?_
      have hsm : 8 + tx.handle.partialBytes + maxAlign f.sent =
          8 + maxAlign f.call.message.payload.length := by
        rw [← maxAlign_add hp8, ← maxAlign_add (dvd_refl 8)]
        congr 1
        omega
      rw [hwri, add_assoc, hsm]
  have hwr : tx.handle.lengthWordComplete = false := by simpa using hwr
  have hz : tx.handle.partialBytes = 0 := hw.lengthWord hwr
  have hp : (tx.view mq).progress = 0 := by
    unfold progress view
    rw [hwr, hz]
    rfl
  rw [if_neg (by simp [hwr])]
  refine sendData_inv { hbs with } hqu
    ⟨hw.message, hw.last, hw.current, dvd_refl 8, fun _ => rfl⟩ rfl
    (zero_le _) rfl ?_
  rw [hwri, hp, hal, hf.lengthWord hwr]
  rfl

theorem block_inv (hf : FrameOk (tx.view mq) f) (hs : f.sent < f.data.length) :
    SendInv size mq (tx.block f) := by
  have hw := hf.within
  have hwo := f.call.message.length_words
  have hi := hf.inside
  have hp8 := hw.progress8
  have hs8 := hf.sent8.resolve_right hs.ne
  have hwri := hf.written
  rw [maxAlign_of_dvd hs8] at hwri
  -- the length word is never split
  have hsp : tx.handle.lengthWordComplete = false → f.sent = 0 ∧ tx.handle.partialBytes = 0 := by
    intro hwr
    have := hf.lengthWord hwr
    exact ⟨by omega, hw.lengthWord hwr⟩
  have hp : progress ((tx.block f).view mq) = (tx.view mq).progress + f.sent := by
    cases hwr : tx.handle.lengthWordComplete <;>
      simp [progress, view, block, hwr, add_assoc]
  refine of_pc { hbs with } hqu
    nofun (.inr (.inr ⟨f.call.message, ?_, ?_, ?_⟩))
  · refine ⟨hw.message, hw.last, hw.current, ?_, ?_⟩
    · rw [hp]
      omega
    intro hwr
    obtain ⟨hz, hn⟩ := hsp hwr
    change tx.handle.partialBytes + f.sent = 0
    omega
  · intro hwr
    have hb : (tx.view mq).progress = 8 + tx.handle.partialBytes := if_pos hwr
    change tx.handle.partialBytes + f.sent < f.call.message.payload.length
    omega
  rw [hp]
  exact hwri.trans (add_assoc _ _ _)

theorem abort_inv (hd : mq'.detached = true) (hw : mq'.bytesWritten = mq.bytesWritten) :
    SendInv size mq' tx.abort := by
  refine of_pc ⟨fun _ => hd, hbs.completed_le, ?_⟩ hqu nofun
    (.inl ⟨rfl, rfl, rfl, rfl⟩)
  rw [hw]
  exact hbs.completed_at

end

/-! ## Every step of the sender -/

theorem QueueInv.congr {sp : Nat} (h : QueueInv size mq messages sp cp)
    (hr : mq'.bytesRead = mq.bytesRead) (hw : mq'.bytesWritten = mq.bytesWritten)
    (hrn : mq'.ring = mq.ring) : QueueInv size mq' messages sp cp := by
  obtain ⟨h1, h2, h3, h4, h5, h6, h7, h8⟩ := h
  rw [← hr] at h1 h5 h6 h8
  rw [← hw] at h2 h5 h6 h7 h8
  rw [← hrn] at h8
  exact ⟨h1, h2, h3, h4, h5, h6, h7, h8⟩

theorem QueueInv.publish (h : QueueInv size mq messages tx.handle.sendPending cp) :
    QueueInv size (mq.publish tx) messages 0 cp where
  read8 := h.read8
  written8 := dvd_add h.written8 h.send8
  send8 := dvd_zero 8
  consume8 := h.consume8
  read_le := h.read_le.trans (le_add_right _ _)
  room := h.room
  inStream := h.inStream
  ring := h.ring

@[simp] theorem sendData_keeps (tx : Sender) (call : SendCall) (pcs : List (List UInt8))
    (offset : Nat) : (tx.sendData call pcs offset).sent = tx.sent ∧
      (tx.sendData call pcs offset).handle.sendPending = tx.handle.sendPending := by
  unfold sendData
  split <;> exact ⟨rfl, rfl⟩

@[simp] theorem sendv_keeps (tx : Sender) (call : SendCall) : (tx.sendv call).sent = tx.sent ∧
    (tx.sendv call).handle.sendPending = tx.handle.sendPending := by
  unfold sendv
  split
  · exact sendData_keeps tx call _ _
  · exact ⟨rfl, rfl⟩

@[simp] theorem sentAll_keeps (tx : Sender) (f : SendFrame) : (tx.sentAll f).sent = tx.sent ∧
    (tx.sentAll f).handle.sendPending = tx.handle.sendPending := by
  unfold Sender.sentAll
  split
  · dsimp only
    split
    · exact sendData_keeps _ f.call _ _
    · exact ⟨rfl, rfl⟩
  · exact sendData_keeps _ f.call _ _

theorem copy_inv {now : Nat} (hq : QueueInv size mq tx.sent tx.handle.sendPending cp)
    (hc : CopyOk size mq (tx.view mq) f offset now i) (hi : i < now) (b : UInt8)
    (hb : b = f.data.getD (f.sent + i) 0) :
    QueueInv size { mq with ring := update mq.ring (offset + i) b } tx.sent
        tx.handle.sendPending cp ∧
      CopyOk size { mq with ring := update mq.ring (offset + i) b } (tx.view mq) f
        offset now (i + 1) := by
  have hin := hc.inRing
  have hrm : mq.bytesWritten + tx.handle.sendPending + now ≤ mq.bytesRead + size := hc.room
  have hs : offset + i = (mq.bytesWritten + tx.handle.sendPending + i) % size := by
    have ho : offset = (mq.bytesWritten + tx.handle.sendPending) % size := hc.offset_eq
    rw [mod_add_of_lt (by omega), ← ho]
  refine ⟨{ hq with ring := ?_ }, { hc with le := hi, done := ?_ }⟩
  · intro n hr hw byte hby
    dsimp only at hr hw
    have hne : n % size ≠ offset + i := by
      rw [hs]
      exact mod_ne_of_lt (by omega) (by omega)
    dsimp only [view]
    rw [update_of_ne hne]
    exact hq.ring n hr hw byte hby
  intro j hj
  dsimp only [view]
  obtain hlt | rfl := Nat.lt_succ_iff_lt_or_eq.mp hj
  · rw [update_of_ne (by omega)]
    exact hc.done j hlt
  rw [update_self, hb]

section

variable (hsz : 8 ∣ size) (hq : QueueInv size mq tx.sent tx.handle.sendPending cp)
include hsz hq

theorem copied_inv {now : Nat} (hf : FrameOk (tx.view mq) f)
    (hc : CopyOk size mq (tx.view mq) f offset now i) (hi : now ≤ i) :
    QueueInv size mq tx.sent (tx.handle.sendPending + maxAlign now) cp ∧
      FrameOk { tx.view mq with
        written := mq.bytesWritten + (tx.handle.sendPending + maxAlign now) }
        { f with sent := f.sent + now } := by
  have hw := hf.within
  have hm : tx.sent[tx.completed]? = some f.call.message := hw.message
  have hl : tx.sent.length = tx.completed + 1 := hw.last
  have hwr : mq.bytesWritten + tx.handle.sendPending =
      position tx.sent tx.completed + (tx.view mq).progress + maxAlign f.sent := hf.written
  have hrm : mq.bytesWritten + tx.handle.sendPending + now ≤ mq.bytesRead + size := hc.room
  have hin := hc.inRing
  have hle := hc.inside
  have hs8 := hc.before
  have hins := hf.inside
  have hp8 := hw.progress8
  have hr8 := hq.read8
  have hwr8 := dvd_add hq.written8 hq.send8
  have ha := dvd_maxAlign now
  rw [maxAlign_of_dvd hs8] at hwr
  constructor
  · refine { hq with send8 := dvd_add hq.send8 ha, room := ?_, inStream := ?_, ring := ?_ }
    · have : maxAlign now ≤ mq.bytesRead + size -
          (mq.bytesWritten + tx.handle.sendPending) := maxAlign_le (by omega) (by omega)
      omega
    · have hnx := position_succ hm
      rw [← hl, position_length] at hnx
      have hln := f.call.message.length_words
      have he : (tx.view mq).progress + f.sent + maxAlign now ≤
          8 + maxAlign f.call.message.payload.length := by
        rw [← maxAlign_add (dvd_add hp8 hs8), ← maxAlign_add (dvd_refl 8)]
        unfold maxAlign
        omega
      omega
    intro n hr hn b hb
    obtain hol | hnw := lt_or_ge n (mq.bytesWritten + tx.handle.sendPending)
    · exact hq.ring n hr hol b hb
    -- a byte copied just now, or padding
    obtain ⟨j, rfl⟩ := Nat.exists_eq_add_of_le hnw
    obtain hj | hj := lt_or_ge j now
    · have hd : f.call.message.words[(tx.view mq).progress + f.sent + j]? =
          some (f.data.getD (f.sent + j) 0) := by
        rw [hf.data, getD_eq_getElem?_getD, getElem?_take_of_lt (by omega),
          getElem?_drop, add_assoc, getElem?_eq_getElem (by omega)]
        rfl
      have hwo := stream_word hm hd
      rw [show position tx.sent tx.completed + ((tx.view mq).progress + f.sent + j) =
        mq.bytesWritten + tx.handle.sendPending + j by omega, hb] at hwo
      have ho : offset = (mq.bytesWritten + tx.handle.sendPending) % size := hc.offset_eq
      rw [mod_add_of_lt (by omega), ← ho, hc.done j (by omega)]
      exact (Option.some.inj (Option.some.inj hwo)).symm
    have hpd : f.sent + now = f.data.length ∧
        (tx.view mq).progress + f.data.length = f.call.message.words.length := by
      have hwh := hf.whole
      have hu : ¬ 8 ∣ now := by
        intro h8
        rw [maxAlign_of_dvd h8] at hn
        omega
      have he := hc.whole.resolve_left hu
      exact ⟨he, hwh.resolve_left (by omega)⟩
    have hnn := @stream_padding _ _ _ hm ((tx.view mq).progress + f.sent + j)
      (by omega) (by
        rw [show f.call.message.words.length =
          (tx.view mq).progress + f.sent + now by omega,
          maxAlign_add (dvd_add hp8 hs8)]
        omega)
    rw [show position tx.sent tx.completed + ((tx.view mq).progress + f.sent + j) =
      mq.bytesWritten + tx.handle.sendPending + j by omega, hb] at hnn
    cases hnn
  · refine ⟨⟨hm, hl, hw.current, hp8, hw.lengthWord⟩, hf.data,
      hins, hf.whole, hle, ?_, hf.lengthWord, hf.place, ?_⟩
    · have hwh := hc.whole
      dsimp only
      omega
    change mq.bytesWritten + (tx.handle.sendPending + maxAlign now) =
      position tx.sent tx.completed + (tx.view mq).progress + maxAlign (f.sent + now)
    rw [maxAlign_add hs8]
    omega

/-- The part of the data that is copied next fits into free space, and is aligned but at the end
of the data. -/
theorem room_copyOk {rb wb : Nat} (hf : FrameOk (tx.view mq) f)
    (hrb : rb ≤ mq.bytesRead ∧ 8 ∣ rb) (hs : f.sent < f.data.length)
    (hwb : wb = mq.bytesWritten + tx.handle.sendPending) (hr : size - (wb - rb) ≠ 0) :
    CopyOk size mq (tx.view mq) f (wb % size)
      (min (min (size - (wb - rb)) (f.data.length - f.sent)) (size - wb % size)) 0 := by
  have hwb8 : 8 ∣ wb := hwb ▸ dvd_add hq.written8 hq.send8
  have ho : wb % size < size := mod_lt _ (by omega)
  have ho8 := (dvd_mod_iff hsz).mpr hwb8
  refine ⟨?_, ?_, ?_, ?_, hf.sent8.resolve_right hs.ne, ?_, zero_le _, ?_⟩
  · rw [hwb]
    rfl
  · omega
  · dsimp only [view]
    omega
  · omega
  · omega
  intro j hj
  omega

/-- **Every step of the sender keeps the invariant of the queue and its own.** -/
theorem sendStep_inv {gone : Bool} (h : SendInv size mq tx)
    (hst : SendStep size gone mq tx mq' tx') :
    QueueInv size mq' tx'.sent tx'.handle.sendPending cp ∧ SendInv size mq' tx' := by
  have hpc := h.pc
  have hbs := h.toSendBase
  have hs : ∀ pc, SendBase mq { tx with pc := pc } := fun _ => { hbs with }
  have hqu : tx.detachedQueue = false := by
    have hne : tx.pc ≠ .gone := by cases hst <;> simp [*]
    cases hd : tx.detachedQueue with
    | false => rfl
    | true => exact absurd (h.detached hd) hne
  have hfra {f : SendFrame} (hdt : mq.detached = false)
      (hf : Hopeless (tx.view mq) tx.aborted f ∨ FrameOk (tx.view mq) f) :
      FrameOk (tx.view mq) f :=
    hf.resolve_left fun hh => by
      rw [hbs.aborted hh.1] at hdt
      cases hdt
  cases hst with
  | attach heq =>
    rw [heq] at hpc
    exact ⟨hq.congr rfl rfl rfl, of_pc { hbs with } hqu nofun hpc⟩
  | send call heq hcr =>
    rw [heq] at hpc
    have hq' := hq.append [call.message]
    refine ⟨by simpa using hq', ?_⟩
    obtain ⟨hab, -, hn, hw⟩ | hb | ⟨m, hwt, -⟩ := hpc
    · -- the queue is detached already
      unfold sendv
      have hw : tx.handle.lengthWordComplete = false := hw
      have hn : tx.handle.partialBytes = 0 := hn
      rw [if_neg (by simp [hw])]
      refine of_pc ⟨hbs.aborted, ?_, ?_⟩ hqu nofun
        (.inl ⟨hab, hn, hw, ?_⟩)
      · have := hbs.completed_le
        simp only [length_append, length_singleton]
        omega
      · rw [position_append hbs.completed_le]
        exact hbs.completed_at
      simp only [hn, drop_zero, length_lengthWord]
      omega
    · have hal : tx.sent.length = tx.completed := hb.all
      have hn : tx.handle.partialBytes = 0 := hb.partialBytes
      have hw : tx.handle.lengthWordComplete = false := hb.lengthWord
      have hp : progress (view { tx with
          sent := tx.sent ++ [call.message], current := some call.message } mq) = 0 := by
        unfold progress view
        rw [hw, hn]
        rfl
      refine sendv_inv ⟨hbs.aborted, ?_, ?_⟩ hqu ⟨?_, ?_, rfl, ?_, fun _ => hn⟩ ?_ ?_
      · simp [← hal]
      · rw [position_append hal.ge]
        exact hbs.completed_at
      · dsimp only [view]
        rw [← hal, getElem?_concat_length]
      · dsimp only [view]
        rw [length_append, hal]
        rfl
      · rw [hp]
        exact dvd_zero 8
      · intro ht
        rw [show tx.handle.lengthWordComplete = true from ht] at hw
        cases hw
      rw [hp, position_append hal.ge]
      exact hb.written
    have : tx.current = some m := hwt.current
    rw [hcr] at this
    cases this
  | retry call heq hcr =>
    rw [heq] at hpc
    refine ⟨by simpa using hq, ?_⟩
    obtain ⟨-, hnn, -⟩ | hb | ⟨m, hwt, hn, hwr⟩ := hpc
    · rw [show tx.current = none from hnn] at hcr
      cases hcr
    · rw [show tx.current = none from hb.current] at hcr
      cases hcr
    obtain rfl : m = call.message :=
      Option.some.inj ((show tx.current = some m from hwt.current).symm.trans hcr)
    exact sendv_inv hbs hqu hwt hn hwr
  | sentAll f heq hsn =>
    rw [heq] at hpc
    refine ⟨by simpa using hq, ?_⟩
    obtain ⟨-, -, -, hlt⟩ | hfr := hpc
    · omega
    · exact sentAll_inv hbs hqu hfr hsn
  | readRead f heq hsn =>
    rw [heq] at hpc
    exact ⟨hq, of_pc (hs _) hqu nofun ⟨hpc, ⟨le_refl _, hq.read8⟩, hsn⟩⟩
  | sawDetached f rb heq hdt | goneDetached f heq hdt => exact ⟨hq, abort_inv hbs hqu hdt rfl⟩
  | fullUnknown f rb heq hdt hfl ha =>
    rw [heq] at hpc
    have hfr := hfra hdt hpc.1
    refine ⟨hq, of_pc (hs _) hqu ?_ ?_⟩
    · dsimp only
      split <;> exact nofun
    dsimp only
    split <;> exact ⟨hfr, hpc.2.2⟩
  | fullKnown f rb heq hdt hfl ha =>
    rw [heq] at hpc
    have hfr := hfra hdt hpc.1
    exact ⟨hq, of_pc (hs _) hqu nofun ⟨hfr, hpc.2.2⟩⟩
  | room f rb wb heq hwb hdt hrm =>
    rw [heq] at hpc
    have hfr := hfra hdt hpc.1
    refine ⟨hq, of_pc (hs _) hqu nofun ⟨hfr, ?_⟩⟩
    exact room_copyOk hsz hq hfr hpc.2.1 hpc.2.2 hwb hrm
  | publishBlock f heq hnw =>
    rw [heq] at hpc
    exact ⟨hq.publish, block_inv { hbs with } hqu hpc.1 hpc.2⟩
  | publishWait f heq hnw =>
    rw [heq] at hpc
    exact ⟨hq.publish, of_pc { hbs with } hqu nofun (.inr hpc.1)⟩
  | goneWorker f heq hg | waitDetached f result heq hdt | waitWorker f heq hg =>
    exact ⟨hq.congr rfl rfl rfl, abort_inv hbs hqu rfl rfl⟩
  | notGone f heq hdt | waitRead f heq | waitAgain f heq hdt
  | finish call heq hdt =>
    rw [heq] at hpc
    exact ⟨hq, of_pc (hs _) hqu nofun hpc⟩
  | noReceiver f heq hr =>
    rw [heq] at hpc
    exact ⟨hq, block_inv hbs hqu hpc.1 hpc.2⟩
  | receiver f heq hr | waitReceiver f heq hdt =>
    rw [heq] at hpc
    exact ⟨hq, of_pc { hbs with } hqu nofun (.inr hpc.1)⟩
  | copy f offset now i heq hi =>
    rw [heq] at hpc
    obtain ⟨hq', hcp⟩ := copy_inv hq hpc.2 hi _ rfl
    exact ⟨hq', of_pc { hbs with } hqu nofun ⟨hpc.1, hcp⟩⟩
  | copied f offset now i heq hi =>
    rw [heq] at hpc
    obtain ⟨hq', hfr⟩ := copied_inv hsz hq hpc.1 hpc.2 hi
    refine ⟨hq', of_pc ⟨hbs.aborted, hbs.completed_le, ?_⟩ hqu nofun (.inr hfr)⟩
    exact hbs.completed_at.trans (Nat.add_le_add_left (Nat.le_add_right _ _) _)
  | finishDetached call heq hdt =>
    rw [heq] at hpc
    exact ⟨hq, of_pc (hs _) hqu nofun (.inr (.inl hpc))⟩
  | finishReceiver call heq =>
    rw [heq] at hpc
    refine ⟨hq, of_pc { hbs with } hqu ?_ ?_⟩
    · dsimp only
      split <;> exact nofun
    dsimp only
    split
    · exact hpc
    · exact .inr (.inl hpc)
  | flush call heq =>
    rw [heq] at hpc
    exact ⟨hq.publish, of_pc { hbs with } hqu nofun (.inr (.inl hpc))⟩
  | detach heq =>
    refine ⟨hq.publish, { hbs with }, fun _ => rfl, ?_, trivial⟩
    intro ht
    rw [show tx.detachedQueue = true from ht] at hqu
    cases hqu
  | detached heq =>
    exact ⟨hq.congr rfl rfl rfl, ⟨fun _ => rfl, hbs.completed_le, hbs.completed_at⟩,
      fun _ => h.flushed (.inl heq), fun _ => rfl, trivial⟩
  | exit hne =>
    refine ⟨hq.congr rfl rfl rfl, ⟨fun _ => rfl, hbs.completed_le, hbs.completed_at⟩,
      ?_, fun _ => rfl, trivial⟩
    rintro (hc | ht)
    · cases hc
    · exact h.flushed (.inr ht)
  | die hne =>
    refine ⟨hq, hs _, ?_, fun _ => rfl, trivial⟩
    rintro (hc | ht)
    · cases hc
    · exact h.flushed (.inr ht)

end

end AthenaPG.ShmMq
