import AthenaPG.Storage.SInvalAdt

/-!
Delivery of shared invalidation messages, over every interleaving.

A backend is followed by the position that its returned calls have reached in the log of
all messages.  While it is not in the reset state, its counter is that position, and
every message from the oldest counter on still stands in the buffer.  A backend whose
flag is not set has nothing to read, but for a batch whose flags are just being set.

* `Delivered`, `position`: what the calls of one backend have returned, against the log;
* `siCleanupQueue_spec`: what a cleanup does to the counters;
* `Inv`, `inv_step`: what every step of every process keeps;
* **`sinval_delivery`**: each backend obtains the messages since it joined, in order,
  and no slot of the buffer that is still needed is overwritten.
-/

namespace AthenaPG.SInval
open List Function ReadPhase Pc

variable {Msg : Type}

/-! ## What a backend has obtained -/

/-- The number of messages that a backend has obtained or has been told to forget, counted
from the first message of all; its calls stand last first. -/
def position (joined : Nat) : List (Return Msg) → Nat
  | [] => joined
  | .messages _ data _ :: rest => position joined rest + data.length
  | .reset upTo :: _ => upTo

/-- The calls of a backend that joined after `joined` messages have returned the log from
there on, piece by piece, a reset standing for all messages up to the moment when it looked.
A call that did not fill its array left none of the messages of that moment. -/
def Delivered (log : List Msg) (joined : Nat) : List (Return Msg) → Prop
  | [] => joined ≤ log.length
  | .messages datasize data settled :: rest =>
    Delivered log joined rest ∧ data <+: log.drop (position joined rest) ∧
      data.length ≤ datasize ∧
      (data.length < datasize → settled ≤ position joined rest + data.length)
  | .reset upTo :: rest =>
    Delivered log joined rest ∧ position joined rest ≤ upTo ∧ upTo ≤ log.length

theorem Delivered.position_le {log : List Msg} {joined : Nat} {returns : List (Return Msg)}
    (h : Delivered log joined returns) : position joined returns ≤ log.length := by
  induction returns with
  | nil => exact h
  | cons ret rest ih =>
    cases ret with
    | messages dz data settled =>
      have hr := ih h.1
      have hl := h.2.1.length_le
      rw [length_drop] at hl
      simp only [position]
      omega
    | reset upTo => exact h.2.2

variable {data : List Msg} {seg : SISeg Msg} {w w' : World Msg} {b p : Nat} {pc : Pc Msg}
  {dz seen : Nat} {rest : List Msg} {maxBackends : Nat}

theorem prefix_drop_append {log ex : List Msg} {n : Nat} (hn : n ≤ log.length)
    (h : data <+: log.drop n) : data <+: (log ++ ex).drop n := by
  rw [drop_append_of_le_length hn]
  exact h.trans (prefix_append _ _)

theorem Delivered.append {log ex : List Msg} {joined : Nat} {returns : List (Return Msg)}
    (h : Delivered log joined returns) : Delivered (log ++ ex) joined returns := by
  induction returns with
  | nil => exact le_trans h (by simp)
  | cons ret rest ih =>
    cases ret with
    | messages dz data settled => exact ⟨ih h.1, prefix_drop_append h.1.position_le h.2.1, h.2.2⟩
    | reset upTo => exact ⟨ih h.1, h.2.1, le_trans h.2.2 (by simp)⟩

theorem prefix_concat {l : List Msg} {m : Msg} (h : data <+: l) (hm : l[data.length]? = some m) :
    data ++ [m] <+: l := by
  obtain ⟨t, rfl⟩ := h
  cases t with
  | nil => simp at hm
  | cons x t =>
    have hx : x = m := by simpa using hm
    exact ⟨t, by simp [hx]⟩

/-! ## Cleaning the queue -/

variable (stateP : ProcState)

/-- The entry belongs to a backend whose counter holds messages back. -/
def ProcState.Live : Prop :=
  stateP.procPid ≠ 0 ∧ stateP.resetState = false ∧ stateP.sendOnly = false

/-- What a cleanup leaves of an entry: at most the reset state is entered. -/
structure Kept (old new : ProcState) : Prop where
  procPid : new.procPid = old.procPid
  sendOnly : new.sendOnly = old.sendOnly
  hasMessages : new.hasMessages = old.hasMessages
  resetState : new.resetState = false → old.resetState = false

theorem Kept.refl : Kept stateP stateP := ⟨rfl, rfl, rfl, id⟩

theorem Kept.trans {a b c : ProcState} (hab : Kept a b) (hbc : Kept b c) : Kept a c :=
  ⟨hbc.procPid.trans hab.procPid, hbc.sendOnly.trans hab.sendOnly,
    hbc.hasMessages.trans hab.hasMessages, fun h => hab.resetState (hbc.resetState h)⟩

/-- What the first loop has done after `n` entries. -/
structure ScanOk (seg : SISeg Msg) (n : Nat) (scan : CleanupScan) : Prop where
  kept : ∀ i, Kept (seg.procState i) (scan.procState i)
  next : ∀ i, (scan.procState i).nextMsgNum = (seg.procState i).nextMsgNum
  le_max : scan.min ≤ seg.maxMsgNum
  le_next : ∀ i < n, (scan.procState i).Live → scan.min ≤ (scan.procState i).nextMsgNum
  bounded : ∀ lo, lo ≤ seg.maxMsgNum → (∀ i, (seg.procState i).Live →
    lo ≤ (seg.procState i).nextMsgNum) → lo ≤ scan.min

theorem cleanupScan_ok (lowb : Int) (seg : SISeg Msg) (n : Nat) :
    ScanOk seg n (cleanupScan lowb seg n) := by
  induction n with
  | zero => exact ⟨fun i => .refl _, fun _ => rfl, le_refl _, by simp, fun lo hlo _ => hlo⟩
  | succ n ih =>
    rw [cleanupScan]
    set scan := cleanupScan lowb seg n
    unfold cleanupVisit
    simp only
    split
    next hd =>
      refine ⟨ih.kept, ih.next, ih.le_max, fun i hi hl => ?_, ih.bounded⟩
      obtain hlt | rfl := Nat.lt_succ_iff_lt_or_eq.mp hi
      · exact ih.le_next i hlt hl
      obtain hd | hd | hd := hd
      · exact absurd hd hl.1
      · rw [hl.2.1] at hd
        cases hd
      rw [hl.2.2] at hd
      cases hd
    rename_i ha
    split
    · -- the backend is sent into the reset state
      refine ⟨(forall_update_iff _ fun i => Kept (seg.procState i)).mpr
          ⟨(ih.kept n).trans ⟨rfl, rfl, rfl, nofun⟩, fun i _ => ih.kept i⟩,
        (forall_update_iff _ fun i stateP =>
          ProcState.nextMsgNum stateP = (seg.procState i).nextMsgNum).mpr
          ⟨ih.next n, fun i _ => ih.next i⟩, ih.le_max, fun i hi hl => ?_, ih.bounded⟩
      obtain rfl | hne := eq_or_ne i n
      · simp only [update_self] at hl
        exact absurd hl.2.1 (by simp)
      simp only [update_of_ne hne] at hl ⊢
      exact ih.le_next i (by omega) hl
    refine ⟨ih.kept, ih.next, ?_, fun i hi hl => ?_, fun lo hm hal => ?_⟩
    · have := ih.le_max
      simp only
      split <;> omega
    · simp only
      obtain hlt | rfl := Nat.lt_succ_iff_lt_or_eq.mp hi
      · have := ih.le_next i hlt hl
        split <;> omega
      split <;> omega
    have hs := ih.bounded lo hm hal
    have hl : (seg.procState n).Live := by
      have hk := ih.kept n
      simp only [not_or] at ha
      refine ⟨hk.procPid ▸ ha.1, hk.resetState ?_, hk.sendOnly ▸ ?_⟩
      · simpa using ha.2.1
      · simpa using ha.2.2
    have hn := hal n hl
    rw [← ih.next n] at hn
    simp only
    split <;> omega

/-- What a cleanup does to the segment; the counters may all be reduced. -/
structure Cleaned (seg seg' : SISeg Msg) (shift : Nat) : Prop where
  amount : shift = 0 ∨ shift = msgNumWraparound
  max : seg'.maxMsgNum = seg.maxMsgNum - shift
  lower : seg.minMsgNum ≤ seg'.minMsgNum + shift
  nonneg : 0 ≤ seg'.minMsgNum
  upper : seg'.minMsgNum ≤ seg'.maxMsgNum
  bound : seg'.minMsgNum < msgNumWraparound
  buffer : seg'.buffer = seg.buffer
  lastBackend : seg'.lastBackend = seg.lastBackend
  kept : ∀ i, Kept (seg.procState i) (seg'.procState i)
  next : ∀ i < seg.lastBackend, (seg'.procState i).Live →
    (seg'.procState i).nextMsgNum = (seg.procState i).nextMsgNum - shift ∧
      seg'.minMsgNum ≤ (seg'.procState i).nextMsgNum

theorem Cleaned.final {seg' : SISeg Msg} {shi : Nat} (h : Cleaned seg seg' shi)
    (thr : Int) (needSig : Option Nat) :
    Cleaned seg (markSignaled { seg' with nextThreshold := thr } needSig) shi := by
  cases needSig with
  | none => exact { h with }
  | some i =>
    refine ⟨h.amount, h.max, h.lower, h.nonneg, h.upper, h.bound, h.buffer, h.lastBackend,
      fun j => ?_, fun j hj hl => ?_⟩
    · simp only [markSignaled, SISeg.setProc]
      obtain rfl | hne := eq_or_ne j i
      · rw [update_self]
        exact (h.kept j).trans ⟨rfl, rfl, rfl, id⟩
      rw [update_of_ne hne]
      exact h.kept j
    simp only [markSignaled, SISeg.setProc] at hl ⊢
    obtain rfl | hne := eq_or_ne j i
    · rw [update_self] at hl ⊢
      exact h.next j hj hl
    rw [update_of_ne hne] at hl ⊢
    exact h.next j hj hl

/-- **What `SICleanupQueue` does**, for every `minFree`. -/
theorem siCleanupQueue_spec (minFree : Int) (hn : 0 ≤ seg.minMsgNum)
    (hle : seg.minMsgNum ≤ seg.maxMsgNum) (hmx : seg.maxMsgNum < 2 * msgNumWraparound)
    (hlv : ∀ i, (seg.procState i).Live → seg.minMsgNum ≤ (seg.procState i).nextMsgNum ∧
      (seg.procState i).nextMsgNum ≤ seg.maxMsgNum) :
    ∃ shift, Cleaned seg (siCleanupQueue minFree seg).1 shift := by
  have hw : msgNumWraparound = 1073741824 := rfl
  unfold siCleanupQueue
  simp only
  set lowbound := wrapInt (seg.maxMsgNum - maxNumMessages + minFree)
  have hs := cleanupScan_ok lowbound seg seg.lastBackend
  set scan := cleanupScan lowbound seg seg.lastBackend
  have hl := hs.bounded _ hle fun i hi => (hlv i hi).1
  have hu := hs.le_max
  by_cases hb : scan.min ≥ msgNumWraparound
  · rw [if_pos hb]
    refine ⟨msgNumWraparound, Cleaned.final ?_ _ _⟩
    refine ⟨.inr rfl, rfl, ?_, ?_, ?_, ?_, rfl, rfl, fun i => ?_, fun i hi hi' => ?_⟩
    · simp only [rebase]
      omega
    · simp only [rebase]
      omega
    · simp only [rebase]
      omega
    · simp only [rebase]
      omega
    · simp only [rebase]
      split
      · exact (hs.kept i).trans ⟨rfl, rfl, rfl, id⟩
      · exact hs.kept i
    simp only [rebase, if_pos hi] at hi' ⊢
    have ho : (seg.procState i).Live :=
      ⟨(hs.kept i).procPid ▸ hi'.1, (hs.kept i).resetState hi'.2.1, (hs.kept i).sendOnly ▸ hi'.2.2⟩
    have hr := hlv i ho
    have hm := hs.le_next i hi hi'
    rw [hs.next i] at hm ⊢
    rw [wrapInt_of_lt (by omega) (by omega)]
    exact ⟨rfl, by omega⟩
  rw [if_neg hb]
  refine ⟨0, Cleaned.final ?_ _ _⟩
  refine ⟨.inl rfl, by simp, by simpa using hl, le_trans hn hl, hu,
    by simpa using hb, rfl, rfl, hs.kept, fun i hi hi' => ⟨?_, hs.le_next i hi hi'⟩⟩
  simpa using hs.next i

/-! ## The invariant -/

/-- A writer is setting flags and has not come to entry `b`. -/
def Kicking (w : World Msg) (b : Nat) : Prop :=
  ∃ q i rest, (w.procs q).pc = .insertKick i rest ∧ i ≤ b

/-- A backend that has reached position `n` has its flag set, or there is nothing more but
a batch whose flags are being set. -/
def Announced (w : World Msg) (b n : Nat) : Prop :=
  (w.seg.procState b).hasMessages = true ∨ w.completed ≤ n ∧ (n = w.log.length ∨ Kicking w b)

/-- The counters and the buffer. -/
structure QueueOk (w : World Msg) : Prop where
  nonneg : 0 ≤ w.seg.minMsgNum
  le : w.seg.minMsgNum ≤ w.seg.maxMsgNum
  room : w.seg.maxMsgNum ≤ w.seg.minMsgNum + 4096
  bound : w.seg.minMsgNum < msgNumWraparound
  total : w.seg.maxMsgNum + w.base = w.log.length
  aligned : w.base % 4096 = 0
  buffer : ∀ (k : Nat) m, w.seg.minMsgNum + w.base ≤ k → w.log[k]? = some m →
    w.seg.buffer (k % 4096) = m

/-- What a writer that stores messages relies on. -/
def WriterOk (w : World Msg) : Pc Msg → Prop
  | .insertWrite max written todo _ =>
    max = w.seg.maxMsgNum + written.length ∧
      (w.log.length + written.length + todo.length : Int) ≤ w.seg.minMsgNum + w.base + 4096 ∧
      ∀ (j : Nat) m, written[j]? = some m → w.seg.buffer ((w.log.length + j) % 4096) = m
  | _ => True

def ReadPhase.pending : ReadPhase Msg → Nat
  | .copying _ _ _ data => data.length
  | _ => 0

/-- What holds of a receiving backend. -/
structure ReaderOk (w : World Msg) (p b : Nat) : Prop where
  delivered : Delivered w.log (w.procs p).joined (w.procs p).returns
  live : (w.seg.procState b).resetState = false →
    w.seg.minMsgNum ≤ (w.seg.procState b).nextMsgNum ∧
      (w.seg.procState b).nextMsgNum ≤ w.seg.maxMsgNum ∧
      (w.seg.procState b).nextMsgNum + w.base =
        position (w.procs p).joined (w.procs p).returns + (w.procs p).pc.phase.pending
  outside : (w.procs p).pc.phase = .outside →
    Announced w b (position (w.procs p).joined (w.procs p).returns)
  testing : ∀ max seen, (w.procs p).pc.phase = .testing max seen →
    max + w.base = seen ∧ w.seg.minMsgNum ≤ max ∧
      position (w.procs p).joined (w.procs p).returns ≤ seen ∧
      seen ≤ w.log.length ∧ Announced w b seen
  copying : ∀ datasize max seen data, (w.procs p).pc.phase = .copying datasize max seen data →
    (w.seg.procState b).resetState = false ∧ max + w.base = seen ∧
      position (w.procs p).joined (w.procs p).returns + data.length ≤ seen ∧
      seen ≤ w.log.length ∧
      data <+: w.log.drop (position (w.procs p).joined (w.procs p).returns) ∧
      data.length ≤ datasize ∧ Announced w b seen

/-- What every step keeps. -/
structure Inv (w : World Msg) : Prop where
  exclusive : ∀ p q, (w.procs p).pc.holdsWrite = true → (w.procs q).pc.holdsWrite = true → p = q
  slot : ∀ p b, (w.procs p).backend = some b →
    p ≠ 0 ∧ (w.seg.procState b).procPid = p ∧ b < w.seg.lastBackend
  owner : ∀ b, (w.seg.procState b).procPid ≠ 0 →
    (w.procs (w.seg.procState b).procPid).backend = some b
  queue : QueueOk w
  completed : w.completed ≤ w.log.length
  writer : ∀ q, WriterOk w (w.procs q).pc
  reader : ∀ p b, (w.procs p).backend = some b → (w.seg.procState b).sendOnly = false →
    ReaderOk w p b

/-- What another process leaves unchanged for a backend. -/
structure Frame (w w' : World Msg) (p b : Nat) : Prop where
  joined : (w'.procs p).joined = (w.procs p).joined
  returns : (w'.procs p).returns = (w.procs p).returns
  phase : (w'.procs p).pc.phase = (w.procs p).pc.phase
  next : (w'.seg.procState b).nextMsgNum = (w.seg.procState b).nextMsgNum
  reset : (w'.seg.procState b).resetState = (w.seg.procState b).resetState
  min : w'.seg.minMsgNum = w.seg.minMsgNum
  max : w.seg.maxMsgNum ≤ w'.seg.maxMsgNum
  base : w'.base = w.base
  log : ∃ extra, w'.log = w.log ++ extra
  announced : ∀ n ≤ w.log.length, Announced w b n → Announced w' b n

theorem ReaderOk.frame (h : ReaderOk w p b) (hf : Frame w w' p b) : ReaderOk w' p b := by
  obtain ⟨extra, hl⟩ := hf.log
  have hln : w.log.length ≤ w'.log.length := by simp [hl]
  have hps := h.delivered.position_le
  refine ⟨?_, fun hr => ?_, fun hp => ?_, fun max seen hp => ?_, fun dz max seen data hp => ?_⟩
  · rw [hf.joined, hf.returns, hl]
    exact h.delivered.append
  · rw [hf.reset] at hr
    obtain ⟨hmn, hm, hn⟩ := h.live hr
    rw [hf.next, hf.min, hf.base, hf.joined, hf.returns, hf.phase]
    exact ⟨hmn, le_trans hm hf.max, hn⟩
  · rw [hf.phase] at hp
    rw [hf.joined, hf.returns]
    exact hf.announced _ hps (h.outside hp)
  · rw [hf.phase] at hp
    obtain ⟨hm, hmn, hle, hs, ha⟩ := h.testing max seen hp
    rw [hf.joined, hf.returns, hf.base, hf.min]
    exact ⟨hm, hmn, hle, le_trans hs hln, hf.announced _ hs ha⟩
  rw [hf.phase] at hp
  obtain ⟨hr, hm, hle, hs, hd, hsz, ha⟩ := h.copying dz max seen data hp
  rw [hf.joined, hf.returns, hf.base, hf.reset, hl]
  refine ⟨hr, hm, hle, by simp; omega, prefix_drop_append hps hd, hsz, hf.announced _ hs ha⟩

theorem writerOk_of_not_holds (h : pc.holdsWrite = false) : WriterOk w pc := by cases pc <;> trivial

theorem Inv.of_step (h : Inv w) (p : Nat) (hp : ∀ q, q ≠ p → w'.procs q = w.procs q)
    (hbc : (w'.procs p).backend = (w.procs p).backend)
    (hw : (w'.procs p).pc.holdsWrite = true → (w.procs p).pc.holdsWrite = true ∨ w.WriteFree)
    (hl : w'.seg.lastBackend = w.seg.lastBackend)
    (hpd : ∀ b, (w'.seg.procState b).procPid = (w.seg.procState b).procPid)
    (hsn : ∀ b, (w'.seg.procState b).sendOnly = (w.seg.procState b).sendOnly)
    (hqu : QueueOk w') (hc : w'.completed ≤ w'.log.length) (hwr : ∀ q, WriterOk w' (w'.procs q).pc)
    (hrd : ∀ q b, (w.procs q).backend = some b → (w.seg.procState b).sendOnly = false →
      ReaderOk w q b → ReaderOk w' q b) : Inv w' := by
  have hback : ∀ q, (w'.procs q).backend = (w.procs q).backend := by
    intro q
    obtain rfl | hne := eq_or_ne q p
    · exact hbc
    · rw [hp q hne]
  refine ⟨fun q r hq hr => ?_, fun q b hq => ?_, fun b hb => ?_, hqu, hc, hwr, fun q b hq hs => ?_⟩
  · obtain rfl | hqp := eq_or_ne q p
    · obtain rfl | hrq := eq_or_ne r q
      · rfl
      rw [hp r hrq] at hr
      obtain ho | hf := hw hq
      · exact h.exclusive q r ho hr
      rw [hf r] at hr
      cases hr
    rw [hp q hqp] at hq
    obtain rfl | hrp := eq_or_ne r p
    · obtain ho | hf := hw hr
      · exact h.exclusive q r hq ho
      rw [hf q] at hq
      cases hq
    rw [hp r hrp] at hr
    exact h.exclusive q r hq hr
  · rw [hback] at hq
    rw [hpd, hl]
    exact h.slot q b hq
  · rw [hpd] at hb ⊢
    rw [hback]
    exact h.owner b hb
  rw [hback] at hq
  rw [hsn] at hs
  exact hrd q b hq hs (h.reader q b hq hs)

structure SameQueue (w w' : World Msg) : Prop where
  min : w'.seg.minMsgNum = w.seg.minMsgNum
  max : w'.seg.maxMsgNum = w.seg.maxMsgNum
  buffer : w'.seg.buffer = w.seg.buffer
  log : w'.log = w.log
  base : w'.base = w.base
  completed : w'.completed = w.completed

theorem ReaderOk.same (h : ReaderOk w p b) (hs : SameQueue w w')
    (hp : w'.procs p = w.procs p) (he : w'.seg.procState b = w.seg.procState b)
    (hk : Kicking w b → Kicking w' b) : ReaderOk w' p b := by
  refine h.frame ⟨by rw [hp], by rw [hp], by rw [hp], by rw [he], by rw [he],
    hs.min, hs.max.ge, hs.base, ⟨[], by rw [hs.log, append_nil]⟩, fun n _ ha => ?_⟩
  unfold Announced
  rw [he, hs.completed, hs.log]
  exact ha.imp_right fun ha => ha.imp_right fun ha => ha.imp_right hk

theorem QueueOk.same (h : QueueOk w) (hs : SameQueue w w') : QueueOk w' := by
  obtain ⟨hm, hmx, hbf, hl, hb, -⟩ := hs
  refine ⟨?_, ?_, ?_, ?_, ?_, ?_, ?_⟩
  · rw [hm]; exact h.nonneg
  · rw [hm, hmx]; exact h.le
  · rw [hm, hmx]; exact h.room
  · rw [hm]; exact h.bound
  · rw [hmx, hb, hl]; exact h.total
  · rw [hb]; exact h.aligned
  · rw [hm, hb, hl, hbf]; exact h.buffer

theorem WriterOk.same (h : WriterOk w pc) (hs : SameQueue w w') : WriterOk w' pc := by
  obtain ⟨hm, hmx, hb, hl, hbs, -⟩ := hs
  cases pc with
  | insertWrite max wr todo rest =>
    simp only [WriterOk, hm, hmx, hb, hl, hbs] at h ⊢
    exact h
  | _ => trivial

theorem Inv.of_local (h : Inv w) (p : Nat) (hp : ∀ q, q ≠ p → w'.procs q = w.procs q)
    (hb : (w'.procs p).backend = (w.procs p).backend)
    (hwr : (w'.procs p).pc.holdsWrite = true → (w.procs p).pc.holdsWrite = true ∨ w.WriteFree)
    (hsm : SameQueue w w') (hl : w'.seg.lastBackend = w.seg.lastBackend)
    (hpd : ∀ b, (w'.seg.procState b).procPid = (w.seg.procState b).procPid)
    (hsn : ∀ b, (w'.seg.procState b).sendOnly = (w.seg.procState b).sendOnly)
    (ho : ∀ q, q ≠ p → ∀ b, (w.procs q).backend = some b →
      (w'.seg.procState b).nextMsgNum = (w.seg.procState b).nextMsgNum ∧
      (w'.seg.procState b).resetState = (w.seg.procState b).resetState ∧
      ((w.seg.procState b).hasMessages = true → (w'.seg.procState b).hasMessages = true))
    (hk : ∀ b, Kicking w b → (w'.seg.procState b).hasMessages = true ∨ Kicking w' b)
    (hw : WriterOk w (w'.procs p).pc)
    (hsl : ∀ b, (w.procs p).backend = some b → (w.seg.procState b).sendOnly = false →
      ReaderOk w p b → ReaderOk w' p b) : Inv w' := by
  refine h.of_step p hp hb hwr hl hpd hsn
    (h.queue.same hsm) ?_ (fun q => ?_) fun q b hq hs hok => ?_
  · rw [hsm.completed, hsm.log]
    exact h.completed
  · obtain rfl | hne := eq_or_ne q p
    · exact hw.same hsm
    rw [hp q hne]
    exact (h.writer q).same hsm
  obtain rfl | hne := eq_or_ne q p
  · exact hsl b hq hs hok
  obtain ⟨hn, hr, hf⟩ := ho q hne b hq
  refine hok.frame ⟨?_, ?_, ?_, hn, hr, hsm.min, hsm.max.ge, hsm.base,
    ⟨[], by rw [hsm.log, append_nil]⟩, fun n _ ha => ?_⟩
  · rw [hp q hne]
  · rw [hp q hne]
  · rw [hp q hne]
  obtain ha | ⟨hc, ha | ha⟩ := ha
  · exact .inl (hf ha)
  · exact .inr ⟨hsm.completed ▸ hc, .inl (hsm.log ▸ ha)⟩
  obtain hst | hst := hk b ha
  · exact .inl hst
  · exact .inr ⟨hsm.completed ▸ hc, .inr hst⟩

/-! ## Steps that change where a process stands -/

namespace World

variable (w)

/-- The flag of a backend is set. -/
abbrev kick (i : Nat) : World Msg := w.setProc i { w.seg.procState i with hasMessages := true }

@[simp] theorem setPc_seg (p : Nat) (pc : Pc Msg) : (w.setPc p pc).seg = w.seg := rfl

@[simp] theorem setPc_self (p : Nat) (pc : Pc Msg) :
    (w.setPc p pc).procs p = { w.procs p with pc := pc } := update_self ..

@[simp] theorem finish_self (p : Nat) (ret : Return Msg) :
    (w.finish p ret).procs p =
      { w.procs p with pc := .idle, returns := ret :: (w.procs p).returns } :=
  update_self ..

@[simp] theorem setProc_self (b : Nat) (state : ProcState) :
    (w.setProc b state).seg.procState b = state := update_self ..

theorem setProc_other {b c : Nat} (h : c ≠ b) :
    (w.setProc b stateP).seg.procState c = w.seg.procState c := update_of_ne h ..

variable {w} {v : World Msg} (h : v.procs = w.procs)
include h

theorem setPc_other : ∀ q, q ≠ p → (v.setPc p pc).procs q = w.procs q := fun q hq =>
  (update_of_ne hq ..).trans (congrFun h q)

theorem finish_other {ret : Return Msg} :
    ∀ q, q ≠ p → (v.finish p ret).procs q = w.procs q := fun q hq =>
  (update_of_ne hq ..).trans (congrFun h q)

end World

open World

theorem Kicking.other (hp : ∀ q, q ≠ p → w'.procs q = w.procs q)
    (hpc : ∀ i rest, (w.procs p).pc ≠ .insertKick i rest) (h : Kicking w b) : Kicking w' b := by
  obtain ⟨q, i, rest, hq, hi⟩ := h
  have hne : q ≠ p := by
    rintro rfl
    exact hpc i rest hq
  exact ⟨q, i, rest, by rw [hp q hne]; exact hq, hi⟩

theorem Inv.setPc (h : Inv w)
    (hwr : pc.holdsWrite = true → (w.procs p).pc.holdsWrite = true ∨ w.WriteFree)
    (hp : pc.phase = (w.procs p).pc.phase)
    (hk : ∀ i rest, (w.procs p).pc ≠ .insertKick i rest) (hw : WriterOk w pc) :
    Inv (w.setPc p pc) := by
  have ho : ∀ q, q ≠ p → (w.setPc p pc).procs q = w.procs q := setPc_other rfl
  refine h.of_local p ho (by simp) (by simpa using hwr) ⟨rfl, rfl, rfl, rfl, rfl, rfl⟩ rfl
    (fun _ => rfl) (fun _ => rfl) (fun _ _ _ _ => ⟨rfl, rfl, id⟩)
    (fun b hb => .inr (hb.other ho hk)) (by simpa using hw) fun b _ _ hok => ?_
  refine hok.frame ⟨by simp, by simp, by simpa using hp, rfl, rfl, rfl, le_refl _, rfl,
    ⟨[], by simp [World.setPc]⟩, fun n _ ha => ?_⟩
  exact ha.imp_right fun ha => ⟨ha.1, ha.2.imp_right fun hb => hb.other ho hk⟩

/-! ## Reading -/

theorem Inv.read (h : Inv w) (hba : (w.procs p).backend = some b)
    (hp : ∀ q, q ≠ p → w'.procs q = w.procs q) (hb : (w'.procs p).backend = (w.procs p).backend)
    (hi : (w'.procs p).pc.holdsWrite = false)
    (hk : ∀ i rest, (w.procs p).pc ≠ .insertKick i rest) (hsm : SameQueue w w')
    (hl : w'.seg.lastBackend = w.seg.lastBackend)
    (hs : ∀ c, c ≠ b → w'.seg.procState c = w.seg.procState c)
    (hpd : (w'.seg.procState b).procPid = (w.seg.procState b).procPid)
    (hsn : (w'.seg.procState b).sendOnly = (w.seg.procState b).sendOnly)
    (hsl : ReaderOk w p b → ReaderOk w' p b) : Inv w' := by
  refine h.of_local p hp hb (by rw [hi]; simp) hsm hl (fun c => ?_) (fun c => ?_)
    (fun q hq c hc => ?_) (fun c hc => .inr (hc.other hp hk))
    (writerOk_of_not_holds hi) fun c hc _ hok => ?_
  · obtain rfl | hne := eq_or_ne c b
    · exact hpd
    · rw [hs c hne]
  · obtain rfl | hne := eq_or_ne c b
    · exact hsn
    · rw [hs c hne]
  · have hne : c ≠ b := by
      rintro rfl
      exact hq ((h.slot q c hc).2.1.symm.trans (h.slot p c hba).2.1)
    rw [hs c hne]
    exact ⟨rfl, rfl, id⟩
  rw [hba] at hc
  cases hc
  exact hsl hok

theorem inv_getQuick (h : Inv w) (hpc : (w.procs p).pc = .idle)
    (hba : (w.procs p).backend = some b) (hf : (w.seg.procState b).hasMessages = false) :
    Inv (w.finish p (.messages dz [] w.completed)) := by
  refine h.read hba (finish_other rfl) (by simp) (by simp [holdsWrite]) (by simp [hpc])
    ⟨rfl, rfl, rfl, rfl, rfl, rfl⟩ rfl (fun _ _ => rfl) rfl rfl fun hok => ?_
  have hp : (w.procs p).pc.phase = .outside := by rw [hpc]; rfl
  have ha := hok.outside hp
  have hs : w.completed ≤ position (w.procs p).joined (w.procs p).returns := by
    obtain ha | ha := ha
    · rw [hf] at ha
      cases ha
    exact ha.1
  refine ⟨?_, fun hr => ?_, fun _ => ?_, ?_, ?_⟩
  · rw [finish_self]
    exact ⟨hok.delivered, nil_prefix, Nat.zero_le _, fun _ => hs⟩
  · have hl := hok.live hr
    rw [hp] at hl
    rw [finish_self]
    exact hl
  · rw [finish_self]
    exact ha.imp_right fun ha => ⟨ha.1, ha.2.imp_right fun hb =>
      hb.other (finish_other rfl) (by simp [hpc])⟩
  · simp [phase]
  simp [phase]

theorem inv_getLock (h : Inv w) (hpc : (w.procs p).pc = .getLock dz)
    (hba : (w.procs p).backend = some b) :
    Inv ((w.setProc b { w.seg.procState b with hasMessages := false }).setPc p
      (.getMax dz)) := by
  refine h.read hba (setPc_other rfl) (by simp; rfl)
    (by simp [holdsWrite]) (by simp [hpc]) ⟨rfl, rfl, rfl, rfl, rfl, rfl⟩ rfl
    (fun c hc => w.setProc_other _ hc) (by simp) (by simp) fun hok => ?_
  refine ⟨?_, fun hr => ?_, ?_, ?_, ?_⟩
  · rw [setPc_self]
    exact hok.delivered
  · rw [setPc_seg, setProc_self] at hr
    have hl := hok.live hr
    rw [setPc_self, setPc_seg, setProc_self]
    rwa [hpc] at hl
  · simp [phase]
  · simp [phase]
  simp [phase]

theorem inv_getMax (h : Inv w) (hpc : (w.procs p).pc = .getMax dz) :
    Inv (w.setPc p (.getTest dz w.seg.maxMsgNum w.log.length)) := by
  refine h.of_local p (setPc_other rfl) (by simp)
    (by simp [holdsWrite]) ⟨rfl, rfl, rfl, rfl, rfl, rfl⟩ rfl
    (fun _ => rfl) (fun _ => rfl) (fun _ _ _ _ => ⟨rfl, rfl, id⟩)
    (fun b hb => .inr (hb.other (setPc_other rfl) (by simp [hpc])))
    (by simp [WriterOk]) fun b _ _ hok => ?_
  refine ⟨?_, fun hr => ?_, ?_, fun max seen hp => ?_, ?_⟩
  · rw [setPc_self]
    exact hok.delivered
  · have hl := hok.live hr
    rw [hpc] at hl
    rw [setPc_self]
    exact hl
  · simp [phase]
  · rw [setPc_self] at hp ⊢
    cases hp
    exact ⟨h.queue.total, h.queue.le, hok.delivered.position_le, le_refl _,
      .inr ⟨h.completed, .inl rfl⟩⟩
  simp [phase]

section

variable {max : Int} (h : Inv w) (hpc : (w.procs p).pc = .getTest dz max seen)
  (hback : (w.procs p).backend = some b)
include h hpc hback

theorem inv_getReset :
    Inv ((w.setProc b { w.seg.procState b with
      nextMsgNum := max, resetState := false, signaled := false }).finish p (.reset seen)) := by
  refine h.read hback (finish_other rfl) (by simp; rfl)
    (by simp [holdsWrite]) (by simp [hpc]) ⟨rfl, rfl, rfl, rfl, rfl, rfl⟩ rfl
    (fun c hc => w.setProc_other _ hc) (w.setProc_self b _ ▸ rfl) (w.setProc_self b _ ▸ rfl)
    fun hok => ?_
  obtain ⟨hm, hmn, hp, hs, ha⟩ := hok.testing max seen (by rw [hpc]; rfl)
  refine ⟨?_, fun _ => ?_, fun _ => ?_, ?_, ?_⟩
  · rw [finish_self]
    exact ⟨hok.delivered, hp, hs⟩
  · have ht := h.queue.total
    rw [finish_self]
    change _ ≤ ((w.setProc b _).seg.procState b).nextMsgNum ∧
      ((w.setProc b _).seg.procState b).nextMsgNum ≤ _ ∧
      ((w.setProc b _).seg.procState b).nextMsgNum + _ = _
    rw [setProc_self]
    change w.seg.minMsgNum ≤ max ∧ max ≤ w.seg.maxMsgNum ∧ max + w.base = (seen : Int) + 0
    omega
  · rw [finish_self]
    refine ha.imp (fun hf => ?_) fun ha => ⟨ha.1, ha.2.imp_right fun hb => hb.other
      (finish_other (by rfl)) (by simp [hpc])⟩
    change ((w.setProc b _).seg.procState b).hasMessages = true
    rw [setProc_self]
    exact hf
  · simp [phase]
  simp [phase]

theorem inv_getNoReset (hr : (w.seg.procState b).resetState = false) :
    Inv (w.setPc p (.getCopy dz max seen [])) := by
  refine h.read hback (setPc_other rfl) (by simp) (by simp [holdsWrite]) (by simp [hpc])
    ⟨rfl, rfl, rfl, rfl, rfl, rfl⟩ rfl (fun _ _ => rfl) rfl rfl fun hok => ?_
  obtain ⟨hm, -, hps, hs, ha⟩ := hok.testing max seen (by rw [hpc]; rfl)
  refine ⟨?_, fun _ => ?_, ?_, ?_, fun datasize' max' seen' data hp => ?_⟩
  · rw [setPc_self]
    exact hok.delivered
  · have hl := hok.live hr
    rw [hpc] at hl
    rw [setPc_self]
    exact hl
  · simp [phase]
  · simp [phase]
  rw [setPc_self] at hp ⊢
  cases hp
  exact ⟨hr, hm, hps, hs, nil_prefix, Nat.zero_le _,
    ha.imp_right fun ha => ⟨ha.1, ha.2.imp_right fun hb =>
      hb.other (setPc_other rfl) (by simp [hpc])⟩⟩

end

theorem slotOf_eq {n : Int} {base k : Nat} (hn : 0 ≤ n) (hb : base % 4096 = 0)
    (hk : n + base = k) : slotOf n = k % 4096 := by
  have hm : n.tmod (4096 : Nat) = n % 4096 := Int.tmod_eq_emod_of_nonneg hn
  unfold slotOf maxNumMessages
  rw [hm]
  omega

theorem Inv.buffer_next (h : Inv w) {max : Int} (hok : ReaderOk w p b)
    (hpc : (w.procs p).pc = .getCopy dz max seen data)
    (hnx : (w.seg.procState b).nextMsgNum < max) :
    data ++ [w.seg.buffer (slotOf (w.seg.procState b).nextMsgNum)] <+:
      w.log.drop (position (w.procs p).joined (w.procs p).returns) := by
  obtain ⟨hr, hm, -, hs, hd, -, -⟩ := hok.copying dz max seen data (by rw [hpc]; rfl)
  obtain ⟨hmn, -, hp⟩ := hok.live hr
  rw [hpc] at hp
  simp only [phase, pending] at hp
  set pos := position (w.procs p).joined (w.procs p).returns
  have hn := h.queue.nonneg
  have hlt : pos + data.length < w.log.length := by omega
  have hg := getElem?_eq_getElem hlt
  refine prefix_concat hd ?_
  rw [getElem?_drop, hg, slotOf_eq (k := pos + data.length) (by omega) h.queue.aligned
    (by omega), h.queue.buffer (pos + data.length) _ (by omega) hg]

section

variable {max : Int} (h : Inv w) (hpc : (w.procs p).pc = .getCopy dz max seen data)
  (hback : (w.procs p).backend = some b)
include h hpc hback

theorem inv_getCopy (hsz : data.length < dz) (hn : (w.seg.procState b).nextMsgNum < max) :
    Inv ((w.setProc b { w.seg.procState b with
      nextMsgNum := (w.seg.procState b).nextMsgNum + 1 }).setPc p (.getCopy dz max seen
        (data ++ [w.seg.buffer (slotOf (w.seg.procState b).nextMsgNum)]))) := by
  refine h.read hback (setPc_other rfl) (by simp; rfl)
    (by simp [holdsWrite]) (by simp [hpc]) ⟨rfl, rfl, rfl, rfl, rfl, rfl⟩ rfl
    (fun c hc => w.setProc_other _ hc) (by simp) (by simp) fun hok => ?_
  obtain ⟨hr, hm, -, hs, -, -, ha⟩ := hok.copying dz max seen data (by rw [hpc]; rfl)
  have hl := hok.live hr
  rw [hpc] at hl
  simp only [phase, pending] at hl
  have ht := h.queue.total
  refine ⟨?_, fun _ => ?_, ?_, ?_, fun datasize' max' seen' data' hp => ?_⟩
  · rw [setPc_self]
    exact hok.delivered
  · rw [setPc_self, setPc_seg, setProc_self]
    simp only [phase, pending, length_append, length_singleton, setPc, setProc, SISeg.setProc]
    omega
  · simp [phase]
  · simp [phase]
  rw [setPc_self] at hp ⊢
  rw [setPc_seg, setProc_self]
  cases hp
  refine ⟨hr, hm, ?_, hs, h.buffer_next hok hpc hn, ?_, ?_⟩
  · rw [length_append, length_singleton]
    simp only [setProc]
    omega
  · rw [length_append, length_singleton]
    omega
  refine ha.imp (fun hf => ?_) fun ha => ⟨ha.1, ha.2.imp_right fun hb => hb.other
    (setPc_other (by rfl)) (by simp [hpc])⟩
  rw [setPc_seg, setProc_self]
  exact hf

theorem inv_getDone {state : ProcState}
    (hsto : ¬ (data.length < dz ∧ (w.seg.procState b).nextMsgNum < max))
    (hp : state.procPid = (w.seg.procState b).procPid)
    (hsn : state.sendOnly = (w.seg.procState b).sendOnly)
    (hn : state.nextMsgNum = (w.seg.procState b).nextMsgNum)
    (hfl : (w.seg.procState b).nextMsgNum ≥ max ∧
        state.hasMessages = (w.seg.procState b).hasMessages ∨ state.hasMessages = true) :
    Inv ((w.setProc b state).finish p (.messages dz data seen)) := by
  have hs : ((w.setProc b state).finish p (.messages dz data seen)).seg.procState b =
      state := w.setProc_self b state
  refine h.read hback (finish_other rfl) (by simp; rfl)
    (by simp [holdsWrite]) (by simp [hpc]) ⟨rfl, rfl, rfl, rfl, rfl, rfl⟩ rfl
    (fun c hc => w.setProc_other _ hc) (by rw [hs, hp]) (by rw [hs, hsn])
    fun hok => ?_
  obtain ⟨ho, hm, hps, hse, hd, hsz, ha⟩ := hok.copying dz max seen data (by rw [hpc]; rfl)
  have hl := hok.live ho
  rw [hpc] at hl
  simp only [phase, pending] at hl
  refine ⟨?_, fun _ => ?_, fun _ => ?_, ?_, ?_⟩
  · rw [finish_self]
    exact ⟨hok.delivered, hd, hsz, fun hlt => by simp only [setProc]; omega⟩
  · rw [finish_self, hs, hn]
    simp only [phase, pending, position, Nat.cast_add, Nat.cast_zero, add_zero,
      finish, setProc, SISeg.setProc]
    omega
  · rw [finish_self]
    obtain ⟨hcg, hf⟩ | hf := hfl
    · -- all that was seen is read
      have hal : position (w.procs p).joined (w.procs p).returns + data.length = seen := by omega
      change Announced _ b (position (w.procs p).joined (w.procs p).returns + data.length)
      rw [hal]
      refine ha.imp (fun hst => ?_) fun ha => ⟨ha.1, ha.2.imp_right fun hb => hb.other
        (finish_other (by rfl)) (by simp [hpc])⟩
      rw [hs, hf]
      exact hst
    exact .inl (by rw [hs]; exact hf)
  · simp [phase]
  simp [phase]

end

/-! ## Inserting -/

theorem ReaderOk.of_write {q : Nat} (hok : ReaderOk w q b)
    (ho : ∀ r, r ≠ p → w'.procs r = w.procs r)
    (hs : w'.procs p = { w.procs p with pc := pc }) (hp : pc.phase = (w.procs p).pc.phase)
    (hn : (w'.seg.procState b).nextMsgNum = (w.seg.procState b).nextMsgNum)
    (hr : (w'.seg.procState b).resetState = (w.seg.procState b).resetState)
    (hm : w'.seg.minMsgNum = w.seg.minMsgNum) (hmx : w.seg.maxMsgNum ≤ w'.seg.maxMsgNum)
    (hb : w'.base = w.base) (hl : ∃ extra, w'.log = w.log ++ extra)
    (ha : ∀ n ≤ w.log.length, Announced w b n → Announced w' b n) : ReaderOk w' q b := by
  obtain rfl | hne := eq_or_ne q p
  · refine hok.frame ⟨?_, ?_, ?_, hn, hr, hm, hmx, hb, hl, ha⟩
    · rw [hs]
    · rw [hs]
    · rw [hs, hp]
  refine hok.frame ⟨?_, ?_, ?_, hn, hr, hm, hmx, hb, hl, ha⟩
  · rw [ho q hne]
  · rw [ho q hne]
  · rw [ho q hne]

section

variable (h : Inv w)
include h

theorem Inv.writerOk_step (hh : (w.procs p).pc.holdsWrite = true)
    (ho : ∀ q, q ≠ p → w'.procs q = w.procs q) (hp : WriterOk w' (w'.procs p).pc) (q : Nat) :
    WriterOk w' (w'.procs q).pc := by
  obtain rfl | hne := eq_or_ne q p
  · exact hp
  rw [ho q hne]
  refine writerOk_of_not_holds ?_
  by_contra hhl
  exact hne (h.exclusive q p (by simpa using hhl) hh)

theorem inv_insertWrite {max : Int} {m : Msg} {wr todo : List Msg}
    (hpc : (w.procs p).pc = .insertWrite max wr (m :: todo) rest) :
    Inv ((w.store (slotOf max) m).setPc p (.insertWrite (max + 1) (wr ++ [m]) todo rest)) := by
  have hh : (w.procs p).pc.holdsWrite = true := by rw [hpc]; rfl
  have hw := h.writer p
  rw [hpc] at hw
  obtain ⟨hm, hr, hwr⟩ := hw
  rw [length_cons] at hr
  have hq := h.queue
  have hn := hq.nonneg
  have hle := hq.le
  have ht := hq.total
  have hs : slotOf max = (w.log.length + wr.length) % 4096 :=
    @slotOf_eq max w.base _ (by omega) hq.aligned (by push_cast; omega)
  refine h.of_step p (setPc_other rfl) (by simp; rfl) (fun _ => .inl hh) rfl (fun _ => rfl)
    (fun _ => rfl) ⟨hq.nonneg, hq.le, hq.room, hq.bound, hq.total, hq.aligned, fun k x hk hx => ?_⟩
    h.completed (fun q => ?_) fun q b _ _ hok => ?_
  · have hlt : k < w.log.length := (List.getElem?_eq_some_iff.mp hx).1
    simp only [setPc, store] at hk ⊢
    rw [hs, update_of_ne (by omega)]
    exact hq.buffer k x hk hx
  · refine h.writerOk_step hh (setPc_other (by rfl)) ?_ q
    rw [setPc_self]
    simp only [WriterOk, setPc, store, length_append, length_singleton]
    refine ⟨by push_cast; omega, by push_cast; omega, fun j x hj => ?_⟩
    rw [hs]
    obtain hlt | rfl | hgt := lt_trichotomy j wr.length
    · rw [getElem?_append_left hlt] at hj
      rw [update_of_ne (by omega)]
      exact hwr j x hj
    · rw [update_self]
      simpa using hj
    rw [getElem?_eq_none (by simp; omega)] at hj
    cases hj
  refine hok.of_write (setPc_other rfl) (setPc_self ..) (by rw [hpc]; rfl) rfl rfl rfl
    (le_refl _) rfl ⟨[], by simp [setPc, store]⟩ fun n _ ha => ha.imp_right fun ha =>
      ⟨ha.1, ha.2.imp_right fun hb => hb.other (setPc_other (by rfl)) (by simp [hpc])⟩

theorem inv_insertPublish {max : Int} {wr : List Msg}
    (hpc : (w.procs p).pc = .insertWrite max wr [] rest) :
    Inv ((w.publish max wr).setPc p (.insertKick 0 rest)) := by
  have hh : (w.procs p).pc.holdsWrite = true := by rw [hpc]; rfl
  have hw := h.writer p
  rw [hpc] at hw
  obtain ⟨hm, hr, hwr⟩ := hw
  have hq := h.queue
  have hle := hq.le
  have ht := hq.total
  refine h.of_step p (setPc_other rfl) (by simp; rfl) (fun _ => .inl hh) rfl (fun _ => rfl)
    (fun _ => rfl) ⟨hq.nonneg, ?_, ?_, hq.bound, ?_, hq.aligned, fun k x hk hx => ?_⟩ ?_
    (fun q => ?_) fun q b _ _ hok => ?_
  · simp only [setPc, publish]
    omega
  · simp only [setPc, publish]
    omega
  · simp only [setPc, publish, length_append, Nat.cast_add]
    omega
  · simp only [setPc, publish] at hk hx ⊢
    obtain hlt | hge := lt_or_ge k w.log.length
    · rw [getElem?_append_left hlt] at hx
      exact hq.buffer k x hk hx
    rw [getElem?_append_right hge] at hx
    have hn := hwr (k - w.log.length) x hx
    rwa [Nat.add_sub_cancel' hge] at hn
  · have hc := h.completed
    simp only [setPc, publish, length_append]
    omega
  · refine h.writerOk_step hh (setPc_other (by rfl)) ?_ q
    rw [setPc_self]
    trivial
  refine hok.of_write (setPc_other rfl) (setPc_self ..) (by rw [hpc]; rfl) rfl rfl rfl ?_ rfl
    ⟨wr, rfl⟩ fun n _ ha => ha.imp_right fun ha => ⟨ha.1, .inr ?_⟩
  · simp only [setPc, publish]
    omega
  exact ⟨p, 0, rest, by rw [setPc_self], Nat.zero_le b⟩

theorem inv_insertKick {i : Nat} (hpc : (w.procs p).pc = .insertKick i rest) :
    Inv ((w.kick i).setPc p (.insertKick (i + 1) rest)) := by
  have hh : (w.procs p).pc.holdsWrite = true := by rw [hpc]; rfl
  have hk : ∀ b, Kicking w b →
      (((w.kick i).setPc p (.insertKick (i + 1) rest)).seg.procState b).hasMessages = true ∨
      Kicking ((w.kick i).setPc p (.insertKick (i + 1) rest)) b := by
    rintro b ⟨q, j, rest', hq, hj⟩
    have hqp : q = p := h.exclusive q p (by rw [hq]; rfl) hh
    rw [hqp, hpc] at hq
    cases hq
    rw [setPc_seg]
    obtain rfl | hne := eq_or_ne b i
    · exact .inl (by rw [setProc_self])
    · exact .inr ⟨p, i + 1, rest, by rw [setPc_self], by omega⟩
  have hf : ∀ b, let stateP := (w.kick i).seg.procState b
      stateP.procPid = (w.seg.procState b).procPid ∧
      stateP.sendOnly = (w.seg.procState b).sendOnly ∧
      stateP.nextMsgNum = (w.seg.procState b).nextMsgNum ∧
      stateP.resetState = (w.seg.procState b).resetState ∧
      ((w.seg.procState b).hasMessages = true → stateP.hasMessages = true) := by
    intro b
    obtain rfl | hne := eq_or_ne b i
    · simp only [setProc_self]
      exact ⟨trivial, trivial, trivial, trivial, fun _ => trivial⟩
    simp only [setProc_other _ _ hne]
    exact ⟨trivial, trivial, trivial, trivial, id⟩
  refine h.of_local p (setPc_other rfl) (by simp; rfl) (fun _ => .inl hh)
    ⟨rfl, rfl, rfl, rfl, rfl, rfl⟩ rfl (fun b => (hf b).1) (fun b => (hf b).2.1)
    (fun q _ b _ => (hf b).2.2) hk (by rw [setPc_self]; trivial) fun b _ _ hok => ?_
  refine hok.of_write (setPc_other rfl) (setPc_self ..) (by rw [hpc]; rfl) (hf b).2.2.1
    (hf b).2.2.2.1 rfl (le_refl _) rfl ⟨[], by simp [setPc, setProc]⟩
    fun n _ ha => ?_
  obtain ha | ⟨hc, ha | ha⟩ := ha
  · exact .inl ((hf b).2.2.2.2 ha)
  · exact .inr ⟨hc, .inl ha⟩
  · exact (hk b ha).imp_right fun hb => ⟨hc, .inr hb⟩

theorem inv_insertRelease {i : Nat} (hpc : (w.procs p).pc = .insertKick i rest)
    (hi : ¬ i < w.seg.lastBackend) :
    Inv ({ w with completed := w.log.length }.setPc p (.insert rest)) := by
  have hh : (w.procs p).pc.holdsWrite = true := by rw [hpc]; rfl
  have hq := h.queue
  refine h.of_step p (setPc_other rfl) (by simp) (fun _ => .inl hh) rfl (fun _ => rfl)
    (fun _ => rfl) { hq with } (le_refl _)
    (fun q => ?_) fun q b hback _ hok => ?_
  · refine h.writerOk_step hh (setPc_other (by rfl)) ?_ q
    rw [setPc_self]
    trivial
  refine hok.of_write (setPc_other rfl) (setPc_self ..) (by rw [hpc]; rfl) rfl rfl rfl (le_refl _)
    rfl ⟨[], by simp [setPc]⟩ fun n _ ha => ?_
  obtain ha | ⟨-, ha | ⟨r, j, rest', hr, hj⟩⟩ := ha
  · exact .inl ha
  · exact .inr ⟨ha.ge, .inl ha⟩
  -- every flag has been set
  have hrp : r = p := h.exclusive r p (by rw [hr]; rfl) hh
  rw [hrp, hpc] at hr
  cases hr
  have := (h.slot q b hback).2.2
  omega

/-! ## Cleaning, joining and leaving -/

theorem Inv.cleaned (mf : Int) : ∃ shift, Cleaned w.seg (siCleanupQueue mf w.seg).1 shift := by
  have hq := h.queue
  have hb := hq.bound
  have hr := hq.room
  have hw : msgNumWraparound = 1073741824 := rfl
  refine siCleanupQueue_spec mf hq.nonneg hq.le (by omega) fun i hl => ?_
  have hok := h.reader _ i (h.owner i hl.1) hl.2.2
  exact ⟨(hok.live hl.2.1).1, (hok.live hl.2.1).2.1⟩

theorem inv_clean (mf : Int) (hh : (w.procs p).pc.holdsWrite = true)
    (hkc : ∀ i rest, (w.procs p).pc ≠ .insertKick i rest) (hrd : w.ReadFree)
    (hp : pc.phase = .outside) (hw : ∀ w' : World Msg, WriterOk w' pc) :
    Inv ((w.clean mf).setPc p pc) := by
  obtain ⟨shift, hc⟩ := h.cleaned mf
  have hbs : ((w.clean mf).setPc p pc).base = w.base + shift := by
    have hmx := hc.max
    simp only [setPc, clean]
    omega
  have hq := h.queue
  have hrm := hq.room
  have ht := hq.total
  have hl := hc.lower
  have hmx := hc.max
  refine h.of_step p (setPc_other rfl) (by simp; rfl) (fun _ => .inl hh) hc.lastBackend
    (fun b => (hc.kept b).procPid) (fun b => (hc.kept b).sendOnly)
    ⟨hc.nonneg, hc.upper, ?_, hc.bound, ?_, ?_, fun k m hk hm => ?_⟩ h.completed
    (fun q => ?_) fun q b hback hsn hok => ?_
  · simp only [setPc, clean]
    omega
  · rw [hbs]
    simp only [setPc, clean]
    omega
  · have ha := hq.aligned
    have hwr : msgNumWraparound = 1073741824 := rfl
    have ham := hc.amount
    rw [hbs]
    omega
  · rw [hbs] at hk
    simp only [setPc, clean] at hk hm ⊢
    rw [hc.buffer]
    exact hq.buffer k m (by omega) hm
  · refine h.writerOk_step hh (setPc_other (by rfl)) ?_ q
    rw [setPc_self]
    exact hw _
  have hsm : (((w.clean mf).setPc p pc).procs q).joined = (w.procs q).joined ∧
      (((w.clean mf).setPc p pc).procs q).returns = (w.procs q).returns ∧
      (((w.clean mf).setPc p pc).procs q).pc.phase = .outside := by
    obtain rfl | hne := eq_or_ne q p
    · rw [setPc_self]
      exact ⟨rfl, rfl, hp⟩
    rw [setPc_other rfl q hne]
    exact ⟨rfl, rfl, hrd q⟩
  obtain ⟨hj, hr, ho⟩ := hsm
  have hs := h.slot q b hback
  refine ⟨?_, fun hrs => ?_, fun _ => ?_, ?_, ?_⟩
  · rw [hj, hr]
    exact hok.delivered
  · have hkp := hc.kept b
    have hol := hok.live (hkp.resetState hrs)
    obtain ⟨hn, hmn⟩ := hc.next b hs.2.2
      ⟨by rw [hkp.procPid, hs.2.1]; exact hs.1, hrs, by rw [hkp.sendOnly, hsn]⟩
    rw [hrd q] at hol
    rw [hj, hr, ho, hbs]
    simp only [setPc, clean] at hn hmn ⊢
    omega
  · rw [hj, hr]
    refine (hok.outside (hrd q)).imp (fun hf => ?_) fun han => ⟨han.1,
      han.2.imp_right fun hb => hb.other (setPc_other rfl) hkc⟩
    exact (hc.kept b).hasMessages.trans hf
  · simp [ho]
  simp [ho]

end

theorem freeSlot_spec (h : freeSlot maxBackends seg = some b) :
    (seg.procState b).procPid = 0 ∧ b < seg.lastBackend ∨ b = seg.lastBackend := by
  unfold freeSlot at h
  split at h
  next i hi =>
    cases h
    have hm := mem_of_find?_eq_some hi
    have hp := find?_some hi
    exact .inl ⟨by simpa using hp, mem_range.mp hm⟩
  · split at h
    · cases h
      exact .inr rfl
    · cases h

theorem inv_join (h : Inv w) (sendOnly : Bool) (hpc : (w.procs p).pc = .idle)
    (hn : (w.procs p).backend = none) (hp : p ≠ 0)
    (hf : freeSlot maxBackends w.seg = some b) : Inv (w.join p sendOnly b) := by
  have hsl := freeSlot_spec hf
  have hpd : (w.seg.procState b).procPid = 0 := by
    obtain ⟨hpd, -⟩ | hl := hsl
    · exact hpd
    by_contra hpd
    have := (h.slot _ b (h.owner b hpd)).2.2
    omega
  have hs : (w.join p sendOnly b).procs p = ⟨some b, .idle, w.log.length, []⟩ := update_self ..
  have ho : ∀ q, q ≠ p → (w.join p sendOnly b).procs q = w.procs q := fun q hq => update_of_ne hq ..
  have hen : (w.join p sendOnly b).seg.procState b =
      ⟨p, w.seg.maxMsgNum, false, false, false, sendOnly⟩ := update_self ..
  have he : ∀ c, c ≠ b → (w.join p sendOnly b).seg.procState c = w.seg.procState c :=
    fun c hc => update_of_ne hc ..
  have hl : w.seg.lastBackend ≤ (w.join p sendOnly b).seg.lastBackend ∧
      b < (w.join p sendOnly b).seg.lastBackend := by
    simp only [join, sharedInvalBackendInit]
    split <;> omega
  have hne : ∀ q c, (w.procs q).backend = some c → q ≠ p ∧ c ≠ b := by
    intro q c hq
    constructor
    · rintro rfl
      rw [hn] at hq
      cases hq
    · rintro rfl
      have hq' := h.slot q c hq
      exact hq'.1 (hq'.2.1.symm.trans hpd)
  have hsm : SameQueue w (w.join p sendOnly b) := ⟨rfl, rfl, rfl, rfl, rfl, rfl⟩
  have hq := h.queue
  refine ⟨fun q r hq hr => ?_, fun q c hqc => ?_, fun c hc => ?_,
    h.queue.same hsm, h.completed,
    fun q => ?_, fun q c hqc hsn => ?_⟩
  · have hi : ∀ q, ((w.join p sendOnly b).procs q).pc = (w.procs q).pc := by
      intro q
      obtain rfl | hqp := eq_or_ne q p
      · rw [hs, hpc]
      · rw [ho q hqp]
    rw [hi] at hq hr
    exact h.exclusive q r hq hr
  · obtain rfl | hqp := eq_or_ne q p
    · rw [hs] at hqc
      cases hqc
      rw [hen]
      exact ⟨hp, rfl, hl.2⟩
    rw [ho q hqp] at hqc
    rw [he c (hne q c hqc).2]
    have hq := h.slot q c hqc
    exact ⟨hq.1, hq.2.1, lt_of_lt_of_le hq.2.2 hl.1⟩
  · obtain rfl | hcb := eq_or_ne c b
    · rw [hen, hs]
    rw [he c hcb] at hc ⊢
    have how := h.owner c hc
    rw [ho _ (hne _ c how).1]
    exact how
  · obtain rfl | hqp := eq_or_ne q p
    · rw [hs]
      trivial
    rw [ho q hqp]
    exact (h.writer q).same hsm
  obtain rfl | hqp := eq_or_ne q p
  · rw [hs] at hqc
    cases hqc
    refine ⟨?_, fun _ => ?_, fun _ => ?_, ?_, ?_⟩
    · rw [hs]
      exact le_refl _
    · rw [hs, hen]
      exact ⟨hq.le, le_refl _, by simpa [position, pending, phase, join] using hq.total⟩
    · rw [hs]
      exact .inr ⟨h.completed, .inl rfl⟩
    · simp [hs, phase]
    simp [hs, phase]
  rw [ho q hqp] at hqc
  have hcb := (hne q c hqc).2
  rw [he c hcb] at hsn
  exact (h.reader q c hqc hsn).same hsm (ho q hqp) (he c hcb) fun hb => hb.other ho (by simp [hpc])

theorem lt_lastActive {procState : Nat → ProcState} {n : Nat} (hb : b < n)
    (hp : (procState b).procPid ≠ 0) : b < lastActive procState n := by
  induction n with
  | zero => cases hb
  | succ n ih =>
    rw [lastActive]
    split
    · exact hb
    rename_i hn
    have hne : b ≠ n := by
      rintro rfl
      exact hn hp
    exact ih (by omega)

theorem inv_leave (h : Inv w) (hpc : (w.procs p).pc = .idle)
    (hba : (w.procs p).backend = some b) : Inv (w.leave p b) := by
  have hsl : (w.leave p b).procs p = { w.procs p with backend := none } := update_self ..
  have ho : ∀ q, q ≠ p → (w.leave p b).procs q = w.procs q := fun q hq => update_of_ne hq ..
  have hen : ((w.leave p b).seg.procState b).procPid = 0 := by
    simp [leave, cleanupInvalidationState, SISeg.setProc]
  have he : ∀ c, c ≠ b → (w.leave p b).seg.procState c = w.seg.procState c :=
    fun c hc => update_of_ne hc ..
  have hp : ∀ q, ((w.leave p b).procs q).pc = (w.procs q).pc := by
    intro q
    obtain rfl | hqp := eq_or_ne q p
    · rw [hsl]
    · rw [ho q hqp]
  have hqp : ∀ q c, ((w.leave p b).procs q).backend = some c →
      q ≠ p ∧ c ≠ b ∧ (w.procs q).backend = some c := by
    intro q c hq
    have hne : q ≠ p := by
      rintro rfl
      rw [hsl] at hq
      cases hq
    rw [ho q hne] at hq
    refine ⟨hne, ?_, hq⟩
    rintro rfl
    exact hne ((h.slot q c hq).2.1.symm.trans (h.slot p c hba).2.1)
  have hsm : SameQueue w (w.leave p b) := ⟨rfl, rfl, rfl, rfl, rfl, rfl⟩
  refine ⟨fun q r hq hr => ?_, fun q c hqc => ?_, fun c hc => ?_, h.queue.same hsm, h.completed,
    fun q => ?_, fun q c hqc hsn => ?_⟩
  · rw [hp] at hq hr
    exact h.exclusive q r hq hr
  · obtain ⟨-, hcb, hqc⟩ := hqp q c hqc
    have hs := h.slot q c hqc
    rw [he c hcb]
    refine ⟨hs.1, hs.2.1, lt_lastActive hs.2.2 ?_⟩
    rw [show (w.seg.setProc b _).procState c = w.seg.procState c from he c hcb, hs.2.1]
    exact hs.1
  · obtain rfl | hcb := eq_or_ne c b
    · exact absurd hen hc
    rw [he c hcb] at hc ⊢
    have how := h.owner c hc
    rw [ho _ ?_]
    · exact how
    intro heq
    rw [heq, hba] at how
    cases how
    exact hcb rfl
  · rw [hp]
    exact (h.writer q).same hsm
  obtain ⟨hne, hcb, hqc⟩ := hqp q c hqc
  rw [he c hcb] at hsn
  exact (h.reader q c hqc hsn).same hsm (ho q hne) (he c hcb) fun hb => hb.other ho (by simp [hpc])

/-! ## Every interleaving -/

theorem inv_initial (buffer : Nat → Msg) : Inv (initialWorld buffer) := by
  have hw : msgNumWraparound = 1073741824 := rfl
  have hbn : (0 : Int) < msgNumWraparound := by omega
  refine ⟨fun p q hp => ?_, fun p b hp => ?_, fun b hb => absurd rfl hb,
    ⟨le_refl _, le_refl _, by simp [initialWorld], hbn, rfl, rfl, fun k m _ hm => ?_⟩,
    le_refl _, fun q => trivial, fun p b hp => ?_⟩
  · cases hp
  · cases hp
  · cases hm
  · cases hp

theorem inv_step (h : Inv w) (hst : Step maxBackends w w') : Inv w' := by
  cases hst with
  | backendInit sendOnly hpc hn hp hf hsl => exact inv_join h sendOnly hpc hn hp hsl
  | backendExit hpc hback hf => exact inv_leave h hpc hback
  | getQuick dz hpc hback hfl => exact inv_getQuick h hpc hback hfl
  | getEnter dz hpc hback hfl | insertCall data hpc | insertEnd hpc
  | cleanupCall minFree hpc => exact h.setPc nofun (by rw [hpc]; rfl) (by simp [hpc]) trivial
  | getLock hpc hback => exact inv_getLock h hpc hback
  | getMax hpc => exact inv_getMax h hpc
  | getReset hpc hback hrs => exact inv_getReset h hpc hback
  | getNoReset hpc hback hrs => exact inv_getNoReset h hpc hback hrs
  | getCopy hpc hback hsz hnx => exact inv_getCopy h hpc hback hsz hnx
  | getDone hpc hback hs =>
    split
    next hc => exact inv_getDone h hpc hback hs rfl rfl rfl (.inl ⟨hc, rfl⟩)
    · exact inv_getDone h hpc hback hs rfl rfl rfl (.inr rfl)
  | insertLock hpc hd hf | insertRelock hpc hf | cleanupLock hpc hf =>
    exact h.setPc (fun _ => .inr hf) (by rw [hpc]; rfl) (by simp [hpc]) trivial
  | insertClean hpc hm =>
    exact h.setPc (fun _ => .inl (by rw [hpc]; rfl)) (by rw [hpc]; rfl) (by simp [hpc]) trivial
  | insertCleanup hpc hr =>
    split
    · exact inv_clean h _ (by rw [hpc]; rfl) (by simp [hpc]) hr rfl fun _ => trivial
    · exact inv_clean h _ (by rw [hpc]; rfl) (by simp [hpc]) hr rfl fun _ => trivial
  | insertStart hpc hm =>
    refine h.setPc (fun _ => .inl (by rw [hpc]; rfl)) (by rw [hpc]; rfl) (by simp [hpc]) ?_
    have ht := h.queue.total
    rw [mustClean, not_or] at hm
    have hrm := hm.1
    unfold maxNumMessages at hrm
    refine ⟨by simp, ?_, fun j m hj => by simp at hj⟩
    rw [length_nil]
    omega
  | insertWrite hpc => exact inv_insertWrite h hpc
  | insertPublish hpc => exact inv_insertPublish h hpc
  | insertKick hpc hi => exact inv_insertKick h hpc
  | insertRelease hpc hi => exact inv_insertRelease h hpc hi
  | cleanupBody hpc hr =>
    exact inv_clean h _ (by rw [hpc]; rfl) (by simp [hpc]) hr rfl fun _ => trivial

theorem Reachable.inv (h : Reachable maxBackends w) : Inv w := by
  induction h with
  | initial buffer => exact inv_initial buffer
  | step _ hs ih => exact inv_step ih hs

/-- A slot of the buffer holds a message that a backend has still to read. -/
def Needed (w : World Msg) (slot : Nat) : Prop :=
  ∃ p b msgNum, (w.procs p).backend = some b ∧ (w.seg.procState b).sendOnly = false ∧
    (w.seg.procState b).resetState = false ∧ (w.seg.procState b).nextMsgNum ≤ msgNum ∧
    msgNum < w.seg.maxMsgNum ∧ slot = slotOf msgNum

theorem step_buffer (h : Inv w) (hs : Step maxBackends w w') :
    w'.seg.buffer = w.seg.buffer ∨ ∃ p max wr m todo rest,
      (w.procs p).pc = .insertWrite max wr (m :: todo) rest ∧
      w'.seg.buffer = Function.update w.seg.buffer (slotOf max) m := by
  cases hs with
  | @insertCleanup p batch rest hpc hr =>
    obtain ⟨shift, hc⟩ := h.cleaned batch.length
    exact .inl hc.buffer
  | @cleanupBody p minFree hpc hr =>
    obtain ⟨shift, hc⟩ := h.cleaned minFree
    exact .inl hc.buffer
  | @insertWrite p max m wr todo rest hpc => exact .inr ⟨p, max, wr, m, todo, rest, hpc, rfl⟩
  | _ => exact .inl rfl

theorem buffer_eq_of_needed (h : Inv w) (hst : Step maxBackends w w') {slot : Nat}
    (hn : Needed w slot) : w'.seg.buffer slot = w.seg.buffer slot := by
  obtain hsm | ⟨p, max, wr, m, todo, rest, hpc, hs⟩ := step_buffer h hst
  · rw [hsm]
  obtain ⟨q, b, msgNum, hback, hsn, hr, hnx, hm, rfl⟩ := hn
  have hl := (h.reader q b hback hsn).live hr
  have hw := h.writer p
  rw [hpc] at hw
  obtain ⟨hnm, hrm, -⟩ := hw
  rw [length_cons] at hrm
  have hq := h.queue
  have hnn := hq.nonneg
  have ht := hq.total
  have ha := hq.aligned
  rw [hs, slotOf_eq (k := w.log.length + wr.length) (by omega) ha
    (by push_cast; omega), slotOf_eq (k := (msgNum + w.base).toNat) (by omega) ha (by omega),
    update_of_ne (by omega)]

/-- **Delivery of shared invalidation messages.**  In every state of every interleaving, the
calls of a receiving backend have returned the messages since it joined, in order and
unchanged, a reset standing for those up to that point; a call that did not fill its array
left none of the messages inserted before it looked; and no step overwrites a slot that a
backend has still to read. -/
theorem sinval_delivery {maxBackends : Nat} {w : World Msg} (hreach : Reachable maxBackends w) :
    (∀ p b, (w.procs p).backend = some b → (w.seg.procState b).sendOnly = false →
      Delivered w.log (w.procs p).joined (w.procs p).returns) ∧
    ∀ w', Step maxBackends w w' → ∀ slot, Needed w slot → w'.seg.buffer slot = w.seg.buffer slot :=
  ⟨fun p b hback hs => (hreach.inv.reader p b hback hs).delivered,
    fun _ hst _ hn => buffer_eq_of_needed hreach.inv hst hn⟩

/-- A backend joins, inserts a message and reads it. -/
theorem sinval_delivery_oneMessage :
    ∃ w : World Nat, Reachable 1 w ∧ w.log = [7] ∧
      (w.procs 1).returns = [.messages 4 [7] 1] ∧
      Delivered w.log (w.procs 1).joined (w.procs 1).returns := by
  have h0 : Reachable 1 (initialWorld fun _ => (0 : Nat)) := .initial _
  have h1 := h0.step (.backendInit (p := 1) (b := 0) false rfl rfl (by decide) (fun _ => rfl) rfl)
  have h2 := h1.step (.insertCall (p := 1) [7] rfl)
  have hf : (setPc (join (initialWorld fun _ => (0 : Nat)) 1 false 0) 1
      (.insert [7])).WriteFree := by
    intro q
    obtain rfl | hne := eq_or_ne q 1
    · rfl
    rw [setPc_other rfl _ hne]
    simp [join, update_of_ne hne, initialWorld, holdsWrite]
  have h3 := h2.step (.insertLock (p := 1) rfl (by decide) hf)
  have h4 := h3.step (.insertStart (p := 1) rfl (by unfold mustClean; decide))
  have h5 := h4.step (.insertWrite (p := 1) rfl)
  have h6 := h5.step (.insertPublish (p := 1) rfl)
  have h7 := h6.step (.insertKick (p := 1) rfl (by decide))
  have h8 := h7.step (.insertRelease (p := 1) rfl (by decide))
  have h9 := h8.step (.insertEnd (p := 1) rfl)
  have h10 := h9.step (.getEnter (p := 1) (b := 0) 4 rfl rfl rfl)
  have h11 := h10.step (.getLock (p := 1) (b := 0) rfl rfl)
  have h12 := h11.step (.getMax (p := 1) rfl)
  have h13 := h12.step (.getNoReset (p := 1) (b := 0) rfl rfl rfl)
  have h14 := h13.step (.getCopy (p := 1) (b := 0) rfl rfl (by decide) (by decide))
  have h15 := h14.step (.getDone (p := 1) (b := 0) rfl rfl (by decide))
  exact ⟨_, h15, rfl, rfl, (sinval_delivery h15).1 1 0 rfl rfl⟩

end AthenaPG.SInval
